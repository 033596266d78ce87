import Phiola.Android.Filters
import Phiola.Framework.Machine
import Mathlib.Data.List.Nodup

/-!
# Starting and stopping on Android

`Track.start()` waits for the tags of a file, and in that time `t.state` is `STATE_NONE`. All
playbacks use one `TrackHandle`.
-/

namespace Phiola.Android.Playback

variable {F U : Type} [DecidableEq F]

structure TrackHandle (U : Type) where
  state : State
  stopped : Bool
  error : Bool
  url : Option U
  -- the file that the tags are of
  tags : Option U
  pos_msec : Int
  prev_pos_msec : Int
  seek_msec : Int
  skip_tail_msec : Int
  time_total_msec : Int
deriving DecidableEq, Repr

/-- A call of `start()` that was taken; `stopped` and `replaced` tell what was called while its
tags were read. -/
structure Request (U : Type) where
  id : Nat
  url : U
  stopped : Bool
  replaced : Bool
deriving DecidableEq, Repr

inductive Event (F U : Type) where
  | opened (f : F) (r : Request U) (url : Option U)
  | closed (f : F)
deriving DecidableEq, Repr

structure World (F U : Type) where
  t : TrackHandle U
  -- `prepareAsync()` was called since the last `reset()`, and has finished
  armed : Bool
  prepared : Bool
  tmr : Bool
  -- the callbacks of `meta()` that are to come
  pending : List (Request U)
  next_id : Nat
  log : List (Event F U)
deriving DecidableEq, Repr

/-- What `open()` of the filters does: whether each returns 0, and what `Queue` sets. -/
structure Open (F : Type) where
  answer : F → Bool
  seek_msec : Int
  skip_tail_msec : Int

section Model

-- the filters in their order, with those of `Queue` and of `MP`
variable (filters : List F) (queue mp : F)

def trk_close (w : World F U) : World F U :=
  { w with
    t := {w.t with state := .NONE, tags := none, error := false}
    armed := false, prepared := false, tmr := false
    log := w.log ++ filters.map .closed }

/-- `open()` of one filter. -/
def open_filter (o : Open F) (r : Request U) (w : World F U) (f : F) : World F U :=
  let w := {w with log := w.log ++ [.opened f r w.t.url]}
  let w :=
    if f = queue then
      {w with t := {w.t with seek_msec := o.seek_msec, skip_tail_msec := o.skip_tail_msec}}
    else w
  if f = mp then {w with t := {w.t with state := .OPENING}, armed := o.answer f} else w

/-- `start_3()` over the rest of the filters. -/
def start_3 (o : Open F) (r : Request U) : List F → World F U → World F U
  | [], w => w
  | f :: fs, w =>
    let w := open_filter queue mp o r w f
    if o.answer f then start_3 o r fs w
    else trk_close filters {w with t := {w.t with error := true}}

def start (w : World F U) (url : U) (play_no_tags : Bool) (o : Open F) : World F U :=
  if w.t.state ≠ .NONE then w
  else
    let r : Request U := ⟨w.next_id,url,false,false⟩
    let w := { w with
      t := { w.t with
        url := some url, tags := none, seek_msec := -1, prev_pos_msec := -1, time_total_msec := 0 }
      pending := w.pending.map fun r => {r with replaced := true}
      next_id := w.next_id + 1 }
    if play_no_tags then start_3 filters queue mp o r filters w
    else {w with pending := w.pending ++ [r]}

/-- `start_2()`, run by the main loop for the request at `i`. -/
def start_2 (w : World F U) (i : Nat) (length_msec : Int) (o : Open F) : Option (World F U) :=
  w.pending[i]?.map fun r =>
    start_3 filters queue mp o r filters { w with
      pending := w.pending.eraseIdx i
      t := {w.t with tags := some r.url, time_total_msec := length_msec} }

def stop (w : World F U) : World F U :=
  trk_close filters { w with
    t := {w.t with stopped := true}
    pending := w.pending.map fun r => {r with stopped := true} }

def on_complete (w : World F U) : World F U :=
  if w.t.state = .NONE then w
  else trk_close filters {w with t := {w.t with stopped := false}}

/-- The first part of `MP.on_process()`. -/
def take_seek (t : TrackHandle U) : TrackHandle U :=
  if t.seek_msec ≠ -1 then
    { t with
      state := if t.state = .PLAYING then .SEEKING else t.state
      skip_tail_msec :=
        if t.seek_msec ≥ t.time_total_msec - t.skip_tail_msec then 0 else t.skip_tail_msec
      seek_msec := -1 }
  else t

def on_process (w : World F U) : World F U :=
  let w := {w with t := take_seek w.t}
  if w.t.skip_tail_msec > 0 ∧ w.t.pos_msec ≥ w.t.time_total_msec - w.t.skip_tail_msec then
    on_complete filters w
  else if w.t.state = .UNPAUSE then {w with t := {w.t with state := .PLAYING}}
  else w

/-- `Track.update()`: only `MP` changes the track in `process()`. -/
def update (w : World F U) : World F U :=
  filters.foldl (fun w f => if f = mp then on_process filters w else w) w

def pause (w : World F U) : World F U :=
  if w.t.state = .PLAYING then update filters mp {w with t := {w.t with state := .PAUSED}} else w

def unpause (w : World F U) : World F U :=
  if w.t.state = .PAUSED then update filters mp {w with t := {w.t with state := .UNPAUSE}} else w

def seek (w : World F U) (msec : Int) : World F U :=
  if w.t.state = .PLAYING ∨ w.t.state = .PAUSED then
    update filters mp {w with t := {w.t with seek_msec := msec, pos_msec := msec}}
  else w

/-- `MP.on_start()` -/
def on_start (w : World F U) (duration : Int) : World F U :=
  let t := {w.t with state := .PLAYING, time_total_msec := duration}
  {w with prepared := true, tmr := true, t := if t.seek_msec > 0 then {t with seek_msec := -1} else t}

def on_seek_complete (w : World F U) : World F U :=
  if w.t.state = .SEEKING then {w with t := {w.t with state := .PLAYING}} else w

/-- `MP.update()`, posted by the timer. -/
def tick (w : World F U) (position : Int) : World F U :=
  if w.t.state ≠ .PLAYING then w
  else
    let w := {w with t := {w.t with pos_msec := position}}
    if w.t.prev_pos_msec < 0 ∨ position.tdiv 1000 ≠ w.t.prev_pos_msec.tdiv 1000 then
      update filters mp {w with t := {w.t with prev_pos_msec := position}}
    else w

inductive Act (F U : Type) where
  | start (url : U) (play_no_tags : Bool) (o : Open F)
  | tags (i : Nat) (length_msec : Int) (o : Open F)
  | stop
  | pause
  | unpause
  | seek (msec : Int)
  | prepared (duration : Int)
  | completed
  | seek_completed
  | error
  | tick (position : Int)

/-- `MediaPlayer` calls back only between `prepareAsync()` and `reset()`. -/
def step (w : World F U) : Act F U → Option (World F U)
  | .start url play_no_tags o => some (start filters queue mp w url play_no_tags o)
  | .tags i length_msec o => start_2 filters queue mp w i length_msec o
  | .stop => some (stop filters w)
  | .pause => some (pause filters mp w)
  | .unpause => some (unpause filters mp w)
  | .seek msec => some (seek filters mp w msec)
  | .prepared duration =>
    if w.armed ∧ ¬w.prepared then some (on_start w duration) else none
  | .completed => if w.armed then some (on_complete filters w) else none
  | .seek_completed => if w.armed then some (on_seek_complete w) else none
  | .error => if w.armed then some {w with t := {w.t with error := true}} else none
  | .tick position => some (tick filters mp w position)

def init : World F U where
  t := ⟨.NONE,false,false,none,none,0,0,0,0,0⟩
  armed := false
  prepared := false
  tmr := false
  pending := []
  next_id := 0
  log := []

end Model

/-! ## What is promised -/

def opens (f : F) (log : List (Event F U)) : Nat :=
  log.countP fun | .opened g _ _ => decide (g = f) | .closed _ => false

def closes (f : F) (log : List (Event F U)) : Nat :=
  log.countP fun | .opened .. => false | .closed g => decide (g = f)

/-- The requests that a filter was opened for. -/
def opened_ids (f : F) (log : List (Event F U)) : List Nat :=
  log.filterMap fun | .opened g r _ => if g = f then some r.id else none | .closed _ => none

/-- Openings and closings take turns, the first one is an opening. -/
def Alternates (f : F) (log : List (Event F U)) : Prop :=
  ∀ p, p <+: log → closes f p ≤ opens f p ∧ opens f p ≤ closes f p + 1

structure Kept (filters : List F) (w : World F U) : Prop where
  alternate : ∀ f ∈ filters, Alternates f w.log
  -- a request that was stopped or followed by another one is not opened
  wanted : ∀ f r url, .opened f r url ∈ w.log →
    r.stopped = false ∧ r.replaced = false ∧ url = some r.url
  once : ∀ f ∈ filters, (opened_ids f w.log).Nodup
  state : w.t.state = .NONE ↔ ∀ f ∈ filters, opens f w.log = closes f w.log

/-- `start()` finds no callback to come, `stop()` finds an open track, and no filter refuses a
track but the last one. -/
def Clear (filters : List F) (w : World F U) : Act F U → Prop
  | .start _ play_no_tags o =>
    w.t.state ≠ .NONE ∨
      w.pending = [] ∧ (play_no_tags = true → ∀ f ∈ filters.dropLast, o.answer f = true)
  | .tags _ _ o => ∀ f ∈ filters.dropLast, o.answer f = true
  | .stop => w.t.state ≠ .NONE
  | .pause | .unpause | .seek _ | .prepared _ | .completed | .seek_completed | .error | .tick _ =>
    True

instance (filters : List F) (w : World F U) : ∀ a, Decidable (Clear filters w a)
  | .start _ play_no_tags o =>
    inferInstanceAs (Decidable (w.t.state ≠ .NONE ∨
      w.pending = [] ∧ (play_no_tags = true → ∀ f ∈ filters.dropLast, o.answer f = true)))
  | .tags _ _ o => inferInstanceAs (Decidable (∀ f ∈ filters.dropLast, o.answer f = true))
  | .stop => inferInstanceAs (Decidable (w.t.state ≠ .NONE))
  | .pause | .unpause | .seek _ | .prepared _ | .completed | .seek_completed | .error | .tick _ =>
    inferInstanceAs (Decidable True)

/-! ## Counting -/

theorem opens_append (f : F) (l m : List (Event F U)) :
    opens f (l ++ m) = opens f l + opens f m := List.countP_append

theorem closes_append (f : F) (l m : List (Event F U)) :
    closes f (l ++ m) = closes f l + closes f m := List.countP_append

theorem opens_map_opened (f : F) (fs : List F) (r : Request U) (url : Option U) :
    opens f (fs.map (.opened · r url)) = fs.count f := by
  rw [opens,List.countP_map,List.count]
  congr 1

theorem closes_map_opened (f : F) (fs : List F) (r : Request U) (url : Option U) :
    closes f (fs.map (.opened · r url)) = 0 := by
  rw [closes,List.countP_map,List.countP_eq_zero]
  exact fun _ _ => Bool.false_ne_true

theorem opens_map_closed (f : F) (fs : List F) :
    opens f (fs.map (.closed · : F → Event F U)) = 0 := by
  rw [opens,List.countP_map,List.countP_eq_zero]
  exact fun _ _ => Bool.false_ne_true

theorem closes_map_closed (f : F) (fs : List F) :
    closes f (fs.map (.closed · : F → Event F U)) = fs.count f := by
  rw [closes,List.countP_map,List.count]
  congr 1

theorem opened_ids_append (f : F) (l m : List (Event F U)) :
    opened_ids f (l ++ m) = opened_ids f l ++ opened_ids f m := List.filterMap_append

theorem opened_ids_map_closed (f : F) (fs : List F) :
    opened_ids f (fs.map (.closed · : F → Event F U)) = [] := by
  induction fs with
  | nil => rfl
  | cons g fs ih => exact ih

theorem opened_ids_map_opened (f : F) (fs : List F) (r : Request U) (url : Option U) :
    opened_ids f (fs.map (.opened · r url)) = List.replicate (fs.count f) r.id := by
  induction fs with
  | nil => rfl
  | cons g fs ih =>
    rw [List.map_cons,List.count_cons]
    by_cases hg : g = f
    · have hcons : opened_ids f (.opened g r url :: fs.map (.opened · r url)) =
          r.id :: opened_ids f (fs.map (.opened · r url)) :=
        List.filterMap_cons_some (if_pos hg)
      rw [hcons,ih,if_pos (beq_iff_eq.mpr hg),List.replicate_succ]
    · have hcons : opened_ids f (.opened g r url :: fs.map (.opened · r url)) =
          opened_ids f (fs.map (.opened · r url)) := List.filterMap_cons_none (if_neg hg)
      rw [hcons,ih,if_neg (by simpa using hg),Nat.add_zero]

/-- A part of the log that opens a filter at most once when it is closed, or the other way. -/
theorem Alternates.append {f : F} {l m : List (Event F U)} (h : Alternates f l)
    (hm : opens f l = closes f l ∧ opens f m ≤ 1 ∧ closes f m = 0 ∨
      opens f l = closes f l + opens f m + closes f m ∧ closes f m ≤ 1 ∧ opens f m = 0) :
    Alternates f (l ++ m) := by
  rintro p ⟨t,ht⟩
  rcases List.append_eq_append_iff.mp ht with ⟨a,hl,-⟩ | ⟨c,hp,hmc⟩
  · exact h p ⟨a,hl.symm⟩
  · subst hp hmc
    rw [opens_append,closes_append]
    rw [opens_append,closes_append] at hm
    omega

/-! ## The invariant -/

/-- Either no filter is open and at most one callback is to come, for the last request, or all
filters are open and none is to come. -/
structure Core (filters : List F) (state : State) (url : Option U) (armed : Bool)
    (pending : List (Request U)) (next_id : Nat) (log : List (Event F U)) : Prop where
  alternate : ∀ f, Alternates f log
  wanted : ∀ f r url, .opened f r url ∈ log →
    r.stopped = false ∧ r.replaced = false ∧ url = some r.url
  once : ∀ f, (opened_ids f log).Nodup
  old : ∀ f, ∀ id ∈ opened_ids f log, id < next_id
  coming : ∀ r ∈ pending, r.stopped = false ∧ r.replaced = false ∧ url = some r.url ∧
    r.id < next_id ∧ ∀ f, r.id ∉ opened_ids f log
  one : pending.length ≤ 1
  armed : armed = true → state ≠ .NONE
  waiting : state ≠ .NONE → pending = []
  shut : state = .NONE → ∀ f, opens f log = closes f log
  all : state ≠ .NONE → ∀ f, opens f log = closes f log + filters.count f

section Core

variable {filters : List F} {state : State} {url : Option U} {armed : Bool}
  {pending : List (Request U)} {next_id : Nat} {log : List (Event F U)}

theorem Core.moved (h : Core filters state url armed pending next_id log) {state' : State}
    {armed' : Bool} (hs : state ≠ .NONE) (hs' : state' ≠ .NONE) :
    Core filters state' url armed' pending next_id log :=
  ⟨h.alternate,h.wanted,h.once,h.old,h.coming,h.one,fun _ => hs',fun _ => h.waiting hs,
    fun hn => absurd hn hs',fun _ => h.all hs⟩

theorem Core.closing (h : Core filters state url armed pending next_id log)
    (hn : filters.Nodup) (hs : state ≠ .NONE) :
    Core filters .NONE url false pending next_id (log ++ filters.map .closed) := by
  have hids : ∀ f, opened_ids f (log ++ filters.map .closed) = opened_ids f log := by
    intro f
    rw [opened_ids_append,opened_ids_map_closed,List.append_nil]
  have hcount : ∀ f, filters.count f ≤ 1 := List.nodup_iff_count_le_one.mp hn
  refine ⟨fun f => ?_,fun f r u hm => ?_,fun f => ?_,fun f => ?_,?_,h.one,Bool.false_ne_true.elim,
    absurd rfl,fun _ f => ?_,absurd rfl⟩
  · refine (h.alternate f).append (.inr ?_)
    rw [closes_map_closed,opens_map_closed]
    exact ⟨h.all hs f,hcount f,rfl⟩
  · rcases List.mem_append.mp hm with hm | hm
    · exact h.wanted f r u hm
    · obtain ⟨_,_,he⟩ := List.mem_map.mp hm
      cases he
  · rw [hids]; exact h.once f
  · rw [hids]; exact h.old f
  · rw [h.waiting hs]
    exact fun r hr => nomatch hr
  · rw [opens_append,closes_append,closes_map_closed,opens_map_closed]
    exact h.all hs f

theorem Core.opening (h : Core filters .NONE url armed [] next_id log) (hn : filters.Nodup)
    {r : Request U} (hr : r.stopped = false ∧ r.replaced = false ∧ url = some r.url ∧
      r.id < next_id ∧ ∀ f, r.id ∉ opened_ids f log) {state' : State} {armed' : Bool}
    (hs : state' ≠ .NONE) :
    Core filters state' url armed' [] next_id (log ++ filters.map (.opened · r url)) := by
  have hcount : ∀ f, filters.count f ≤ 1 := List.nodup_iff_count_le_one.mp hn
  have hids : ∀ f, opened_ids f (log ++ filters.map (.opened · r url)) =
      opened_ids f log ++ List.replicate (filters.count f) r.id := by
    intro f
    rw [opened_ids_append,opened_ids_map_opened]
  refine ⟨fun f => ?_,fun f r' u hm => ?_,fun f => ?_,fun f id hid => ?_,fun r hr => (nomatch hr),
    Nat.zero_le 1,fun _ => hs,fun _ => rfl,fun hn => absurd hn hs,fun _ f => ?_⟩
  · refine (h.alternate f).append (.inl ?_)
    rw [opens_map_opened,closes_map_opened]
    exact ⟨h.shut rfl f,hcount f,rfl⟩
  · rcases List.mem_append.mp hm with hm | hm
    · exact h.wanted f r' u hm
    · obtain ⟨_,_,he⟩ := List.mem_map.mp hm
      cases he
      exact ⟨hr.1,hr.2.1,hr.2.2.1⟩
  · rw [hids]
    refine List.nodup_append.mpr ⟨h.once f,List.nodup_replicate.mpr (hcount f),?_⟩
    intro a ha b hb hab
    exact hr.2.2.2.2 f ((List.eq_of_mem_replicate hb).symm.trans hab.symm ▸ ha)
  · rw [hids] at hid
    rcases List.mem_append.mp hid with hid | hid
    · exact h.old f id hid
    · exact (List.eq_of_mem_replicate hid).symm ▸ hr.2.2.2.1
  · rw [opens_append,closes_append,opens_map_opened,closes_map_opened,h.shut rfl f,Nat.add_zero]

end Core

def Inv (filters : List F) (w : World F U) : Prop :=
  Core filters w.t.state w.t.url w.armed w.pending w.next_id w.log

theorem Inv.kept {filters : List F} {w : World F U} (h : Inv filters w) {mp : F}
    (hmp : mp ∈ filters) : Kept filters w := by
  refine ⟨fun f _ => h.alternate f,h.wanted,fun f _ => h.once f,fun hs f _ => h.shut hs f,?_⟩
  intro heq
  by_contra hs
  have hall := h.all hs mp
  have hpos := List.count_pos_iff.mpr hmp
  have := heq mp hmp
  omega

theorem Inv.trk_close {filters : List F} {w : World F U} (h : Inv filters w)
    (hn : filters.Nodup) (hs : w.t.state ≠ .NONE) : Inv filters (trk_close filters w) :=
  Core.closing h hn hs

theorem Inv.on_complete {filters : List F} {w : World F U} (h : Inv filters w)
    (hn : filters.Nodup) : Inv filters (on_complete filters w) := by
  rw [Playback.on_complete]
  split
  · exact h
  · next hs => exact Inv.trk_close (w := {w with t := {w.t with stopped := false}}) h hn hs

theorem Inv.handle {filters : List F} {w : World F U} (h : Inv filters w) {t : TrackHandle U}
    (hurl : t.url = w.t.url) (hs : t.state = .NONE ↔ w.t.state = .NONE) :
    Inv filters {w with t := t} := by
  change Core filters t.state t.url w.armed w.pending w.next_id w.log
  rw [hurl]
  by_cases hn : w.t.state = .NONE
  · rw [hs.mpr hn,← hn]
    exact h
  · exact Core.moved h hn fun ht => hn (hs.mp ht)

theorem take_seek_url (t : TrackHandle U) : (take_seek t).url = t.url := by
  rw [take_seek]
  split <;> rfl

theorem take_seek_state (t : TrackHandle U) : (take_seek t).state = .NONE ↔ t.state = .NONE := by
  rw [take_seek]
  split
  · dsimp only
    split
    · next hs => exact ⟨fun he => (by cases he),fun he => by cases hs.symm.trans he⟩
    · exact Iff.rfl
  · exact Iff.rfl

theorem Inv.on_process {filters : List F} {w : World F U} (h : Inv filters w)
    (hn : filters.Nodup) : Inv filters (on_process filters w) := by
  have hseek := h.handle (take_seek_url w.t) (take_seek_state w.t)
  rw [Playback.on_process]
  dsimp only
  split
  · exact hseek.on_complete hn
  · split
    · next hs =>
      refine h.handle (take_seek_url w.t) ⟨fun he => (by cases he),fun he => ?_⟩
      cases hs.symm.trans ((take_seek_state w.t).mpr he)
    · exact hseek

theorem Inv.update {filters : List F} {mp : F} {w : World F U} (h : Inv filters w)
    (hn : filters.Nodup) : Inv filters (update filters mp w) := by
  have hfold : ∀ (fs : List F) (w : World F U), Inv filters w →
      Inv filters (fs.foldl (fun w f => if f = mp then Playback.on_process filters w else w) w) := by
    intro fs
    induction fs with
    | nil => exact fun w h => h
    | cons f fs ih =>
      intro w h
      refine ih _ ?_
      dsimp only
      split
      · exact h.on_process hn
      · exact h
  exact hfold filters w h

/-! ## Opening -/

/-- The filters `fs` were opened. -/
structure Opened (mp : F) (r : Request U) (fs : List F) (w w' : World F U) : Prop where
  log : w'.log = w.log ++ fs.map (.opened · r w.t.url)
  state : w'.t.state = if mp ∈ fs then .OPENING else w.t.state
  url : w'.t.url = w.t.url
  pending : w'.pending = w.pending
  next_id : w'.next_id = w.next_id

theorem open_filter_opened (queue mp : F) (o : Open F) (r : Request U) (w : World F U) (f : F) :
    Opened mp r [f] w (open_filter queue mp o r w f) := by
  rw [open_filter]
  by_cases hq : f = queue <;> by_cases hm : f = mp
  · simp only [if_pos hq,if_pos hm]
    exact ⟨rfl,(if_pos (by simp [hm])).symm,rfl,rfl,rfl⟩
  · simp only [if_pos hq,if_neg hm]
    exact ⟨rfl,(if_neg (by simp [Ne.symm hm])).symm,rfl,rfl,rfl⟩
  · simp only [if_neg hq,if_pos hm]
    exact ⟨rfl,(if_pos (by simp [hm])).symm,rfl,rfl,rfl⟩
  · simp only [if_neg hq,if_neg hm]
    exact ⟨rfl,(if_neg (by simp [Ne.symm hm])).symm,rfl,rfl,rfl⟩

theorem Opened.cons {mp : F} {r : Request U} {f : F} {fs : List F} {w w₁ w₂ : World F U}
    (h : Opened mp r [f] w w₁) (k : Opened mp r fs w₁ w₂) : Opened mp r (f :: fs) w w₂ := by
  refine ⟨?_,?_,k.url.trans h.url,k.pending.trans h.pending,k.next_id.trans h.next_id⟩
  · rw [k.log,h.log,h.url,List.append_assoc]
    rfl
  · rw [k.state,h.state]
    by_cases hf : mp ∈ fs
    · rw [if_pos hf,if_pos (List.mem_cons_of_mem f hf)]
    · rw [if_neg hf]
      exact if_congr (by simp [hf]) rfl rfl

/-- All filters are opened, and closed again if the last one refuses. -/
theorem start_3_opened {filters : List F} {queue mp : F} {o : Open F} {r : Request U}
    {fs : List F} (hne : fs ≠ []) (ho : ∀ f ∈ fs.dropLast, o.answer f = true) (w : World F U) :
    ∃ w', Opened mp r fs w w' ∧
      (start_3 filters queue mp o r fs w = w' ∨
        start_3 filters queue mp o r fs w =
          trk_close filters {w' with t := {w'.t with error := true}}) := by
  induction fs generalizing w with
  | nil => exact absurd rfl hne
  | cons f fs ih =>
    have hf := open_filter_opened queue mp o r w f
    rw [start_3]
    cases fs with
    | nil =>
      refine ⟨_,hf,?_⟩
      dsimp only
      split
      · exact .inl rfl
      · exact .inr rfl
    | cons g fs =>
      obtain ⟨w',hw',hstart⟩ := ih (List.cons_ne_nil g fs)
        (fun k hk => ho k (List.mem_cons_of_mem f hk)) (open_filter queue mp o r w f)
      have hans : o.answer f = true := ho f List.mem_cons_self
      simp only [if_pos hans]
      exact ⟨w',hf.cons hw',hstart⟩

theorem Inv.start_3 {filters : List F} {queue mp : F} {w : World F U} (h : Inv filters w)
    (hn : filters.Nodup) (hmp : mp ∈ filters) (hs : w.t.state = .NONE) (hp : w.pending = [])
    {r : Request U} (hr : r.stopped = false ∧ r.replaced = false ∧ w.t.url = some r.url ∧
      r.id < w.next_id ∧ ∀ f, r.id ∉ opened_ids f w.log)
    {o : Open F} (ho : ∀ f ∈ filters.dropLast, o.answer f = true) :
    Inv filters (start_3 filters queue mp o r filters w) := by
  obtain ⟨w',hw',hstart⟩ := @start_3_opened _ _ _ filters queue mp _ r _
    (List.ne_nil_of_mem hmp) ho w
  have hstate : w'.t.state = .OPENING := hw'.state.trans (if_pos hmp)
  have hopen : Inv filters w' := by
    rw [Inv,hw'.url,hw'.pending,hw'.next_id,hw'.log,hp]
    rw [Inv,hs,hp] at h
    exact h.opening hn hr (by rw [hstate]; exact State.noConfusion)
  rcases hstart with hstart | hstart
  · rw [hstart]
    exact hopen
  · rw [hstart]
    exact Inv.trk_close (w := {w' with t := {w'.t with error := true}}) hopen hn
      (by rw [hstate]; exact State.noConfusion)

/-! ## Every action, every run -/

theorem Core.requested {filters : List F} {url : Option U} {armed : Bool} {next_id : Nat}
    {log : List (Event F U)} (h : Core filters .NONE url armed [] next_id log)
    (url' : Option U) : Core filters .NONE url' armed [] (next_id + 1) log :=
  ⟨h.alternate,h.wanted,h.once,fun f id hid => Nat.lt_succ_of_lt (h.old f id hid),
    fun _ hr => (nomatch hr),h.one,h.armed,h.waiting,h.shut,h.all⟩

theorem Core.awaited {filters : List F} {url : Option U} {armed : Bool} {next_id : Nat}
    {log : List (Event F U)} (h : Core filters .NONE url armed [] next_id log) {r : Request U}
    (hr : r.stopped = false ∧ r.replaced = false ∧ url = some r.url ∧ r.id < next_id ∧
      ∀ f, r.id ∉ opened_ids f log) : Core filters .NONE url armed [r] next_id log :=
  ⟨h.alternate,h.wanted,h.once,h.old,fun _ hm => List.mem_singleton.mp hm ▸ hr,le_rfl,h.armed,
    fun hs => absurd rfl hs,h.shut,h.all⟩

theorem Inv.start {filters : List F} {queue mp : F} {w : World F U} (h : Inv filters w)
    (hn : filters.Nodup) (hmp : mp ∈ filters) {url : U} {play_no_tags : Bool} {o : Open F}
    (hc : Clear filters w (.start url play_no_tags o)) :
    Inv filters (start filters queue mp w url play_no_tags o) := by
  rw [Playback.start]
  split
  · exact h
  · next hs =>
    have hs : w.t.state = .NONE := not_not.mp hs
    obtain ⟨hp,ho⟩ := hc.resolve_left (not_not.mpr hs)
    rw [Inv,hs,hp] at h
    have hreq := h.requested (some url)
    have hnew : ∀ f, w.next_id ∉ opened_ids f w.log := fun f hid => (h.old f _ hid).false
    simp only [hp,List.map_nil,List.nil_append]
    split
    · next hno =>
      refine Inv.start_3 (r := ⟨w.next_id,url,false,false⟩) (w := { w with
        t := { w.t with
          url := some url, tags := none, seek_msec := -1, prev_pos_msec := -1
          time_total_msec := 0 }
        pending := [], next_id := w.next_id + 1 }) ?_ hn hmp hs rfl
        ⟨rfl,rfl,rfl,Nat.lt_succ_self _,hnew⟩ (ho hno)
      rw [Inv]
      dsimp only
      rw [hs]
      exact hreq
    · rw [Inv]
      dsimp only
      rw [hs]
      exact hreq.awaited ⟨rfl,rfl,rfl,Nat.lt_succ_self _,hnew⟩

theorem Inv.start_2 {filters : List F} {queue mp : F} {w w' : World F U} (h : Inv filters w)
    (hn : filters.Nodup) (hmp : mp ∈ filters) {i : Nat} {length_msec : Int} {o : Open F}
    (ho : ∀ f ∈ filters.dropLast, o.answer f = true)
    (hw : start_2 filters queue mp w i length_msec o = some w') : Inv filters w' := by
  obtain ⟨r,hr,rfl⟩ := Option.map_eq_some_iff.mp hw
  have hmem := List.mem_of_getElem? hr
  have hs : w.t.state = .NONE := by
    by_contra hs
    rw [h.waiting hs] at hmem
    cases hmem
  have hone := h.one
  have hlt := (List.getElem?_eq_some_iff.mp hr).1
  have hcore : Core filters .NONE w.t.url w.armed [] w.next_id w.log :=
    ⟨h.alternate,h.wanted,h.once,h.old,fun r hr => (nomatch hr),Nat.zero_le 1,
      fun ha => absurd hs (h.armed ha),fun _ => rfl,fun _ => h.shut hs,fun hn => absurd rfl hn⟩
  have hp : w.pending.eraseIdx i = [] :=
    List.eq_nil_of_length_eq_zero (by rw [List.length_eraseIdx_of_lt hlt]; omega)
  refine Inv.start_3 (r := r) (w := { w with
    pending := w.pending.eraseIdx i
    t := {w.t with tags := some r.url, time_total_msec := length_msec} }) ?_ hn hmp hs hp
    (h.coming r hmem) ho
  rw [Inv]
  dsimp only
  rw [hs,hp]
  exact hcore

theorem Inv.step {filters : List F} {queue mp : F} {w w' : World F U} {a : Act F U}
    (h : Inv filters w) (hn : filters.Nodup) (hmp : mp ∈ filters) (hc : Clear filters w a)
    (hw : step filters queue mp w a = some w') : Inv filters w' := by
  cases a with
  | start url play_no_tags o =>
    obtain rfl := Option.some.inj hw
    exact h.start hn hmp hc
  | tags i length_msec o => exact h.start_2 hn hmp hc hw
  | stop =>
    obtain rfl := Option.some.inj hw
    refine Inv.trk_close (w := { w with
      t := {w.t with stopped := true}
      pending := w.pending.map fun r => {r with stopped := true} }) ?_ hn hc
    rw [Inv]
    dsimp only
    rw [h.waiting hc]
    have hcore := h
    rw [Inv,h.waiting hc] at hcore
    exact hcore
  | pause =>
    obtain rfl := Option.some.inj hw
    rw [pause]
    split
    · next hs =>
      exact (h.handle (t := {w.t with state := .PAUSED}) rfl
        ⟨nofun,fun he => by cases hs.symm.trans he⟩).update hn
    · exact h
  | unpause =>
    obtain rfl := Option.some.inj hw
    rw [unpause]
    split
    · next hs =>
      exact (h.handle (t := {w.t with state := .UNPAUSE}) rfl
        ⟨nofun,fun he => by cases hs.symm.trans he⟩).update hn
    · exact h
  | seek msec =>
    obtain rfl := Option.some.inj hw
    rw [seek]
    split
    · exact (h.handle (t := {w.t with seek_msec := msec, pos_msec := msec}) rfl Iff.rfl).update hn
    · exact h
  | prepared duration =>
    dsimp only [Playback.step] at hw
    split at hw
    · next ha =>
      obtain rfl := Option.some.inj hw
      have hs := h.armed ha.1
      have hplay : Core filters .PLAYING w.t.url w.armed w.pending w.next_id w.log :=
        Core.moved h hs nofun
      rw [on_start,Inv]
      dsimp only
      split <;> exact hplay
    · cases hw
  | completed =>
    dsimp only [Playback.step] at hw
    split at hw
    · obtain rfl := Option.some.inj hw
      exact h.on_complete hn
    · cases hw
  | seek_completed =>
    dsimp only [Playback.step] at hw
    split at hw
    · obtain rfl := Option.some.inj hw
      rw [on_seek_complete]
      split
      · next hs => exact h.handle rfl ⟨nofun,fun he => by cases hs.symm.trans he⟩
      · exact h
    · cases hw
  | error =>
    dsimp only [Playback.step] at hw
    split at hw
    · obtain rfl := Option.some.inj hw
      exact h.handle (by rfl) Iff.rfl
    · cases hw
  | tick position =>
    obtain rfl := Option.some.inj hw
    rw [tick]
    split
    · exact h
    · dsimp only
      split
      · exact (h.handle (t := {w.t with pos_msec := position, prev_pos_msec := position}) rfl
          Iff.rfl).update hn
      · exact h.handle rfl Iff.rfl

theorem inv_init (filters : List F) : Inv filters (init : World F U) :=
  ⟨fun _ p hp => by simp [List.prefix_nil.mp hp,opens,closes],fun _ _ _ h => (nomatch h),
    fun _ => List.nodup_nil,fun _ _ h => (nomatch h),fun _ h => (nomatch h),Nat.zero_le 1,
    fun h => (nomatch h),fun _ => rfl,fun _ _ => rfl,fun h => absurd rfl h⟩

/-- In every run in which each request is served before the next one and before a stop, and in
which only the last filter refuses, playbacks are opened and closed as promised. -/
theorem playbacks_kept {filters : List F} {queue mp : F} (hn : filters.Nodup)
    (hmp : mp ∈ filters) {as : List (Act F U)} {w : World F U}
    (has : Machine.AllSteps (step filters queue mp) (Clear filters) init as)
    (hrun : Machine.run (step filters queue mp) init as = some w) : Kept filters w :=
  (Machine.guarded_invariant (fun _ _ _ h hc hw => Inv.step h hn hmp hc hw) has hrun
    (inv_init filters)).kept hmp

/-! ## Four filters -/

open FilterChain (App)

def chain : List App := [.queue,.mp,.sysJobs,.svc]

def accepted : Open App := ⟨fun _ => true,0,1000⟩

/-- A track plays to its end, another one is stopped, and the last filter refuses a third one. -/
def served : List (Act App Nat) :=
  [.start 1 false accepted,.tags 0 5000 accepted,.start 3 false accepted,.prepared 5000,.tick 100,
    .pause,.seek 300,.unpause,.tick 4500,.start 2 true accepted,.error,.stop,
    .start 3 false accepted,.tags 0 5000 ⟨fun f => f ≠ .svc,0,0⟩]

def world (as : List (Act App Nat)) : World App Nat :=
  (Machine.run (step chain .queue .mp) init as).getD init

theorem run_world {as : List (Act App Nat)}
    (h : (Machine.run (step chain .queue .mp) init as).isSome = true) :
    Machine.run (step chain .queue .mp) init as = some (world as) := Machine.run_eq_getD h

theorem playbacks_kept_served : Kept chain (world served) := by
  have hclear : Machine.AllSteps (step chain App.queue App.mp) (Clear chain)
      (init : World App Nat) served := by decide +kernel
  have hsome : (Machine.run (step chain App.queue App.mp) (init : World App Nat) served).isSome :=
    by decide +kernel
  exact playbacks_kept (by decide) (by decide) hclear (run_world hsome)

def late : List (Act App Nat) := [.start 1 false accepted,.stop,.tags 0 5000 accepted]

def twice : List (Act App Nat) :=
  [.start 1 false accepted,.start 2 false accepted,.tags 0 5000 accepted,.tags 0 5000 accepted]

def refused : List (Act App Nat) := [.start 1 true ⟨fun f => f ≠ .mp,0,0⟩]

theorem not_kept_of_opens {w : World App Nat} {f : App} (hf : f ∈ chain)
    (h : closes f w.log + 1 < opens f w.log ∨ opens f w.log < closes f w.log) :
    ¬Kept chain w := by
  intro hk
  have := hk.alternate f hf w.log (List.prefix_refl _)
  omega

/-- A late callback opens a track that was stopped, and two of them open a track twice; filters are
closed that were not opened: by a stop with no track, and when one before them refuses. -/
theorem playbacks_not_kept :
    (Machine.run (step chain .queue .mp) init late = some (world late) ∧
      .opened .queue ⟨0,1,true,false⟩ (some 1) ∈ (world late).log ∧ ¬Kept chain (world late)) ∧
    (Machine.run (step chain .queue .mp) init twice = some (world twice) ∧
      ¬Kept chain (world twice)) ∧
    (Machine.run (step chain .queue .mp) init [.stop] = some (world [.stop]) ∧
      ¬Kept chain (world [.stop])) ∧
    Machine.run (step chain .queue .mp) init refused = some (world refused) ∧
      ¬Kept chain (world refused) := by
  have hlate : .opened .queue ⟨0,1,true,false⟩ (some 1) ∈ (world late).log := by decide +kernel
  refine ⟨⟨run_world (by decide +kernel),hlate,fun hk => ?_⟩,
    ⟨run_world (by decide +kernel),?_⟩,⟨run_world (by decide +kernel),?_⟩,
    run_world (by decide +kernel),?_⟩
  · cases (hk.wanted .queue ⟨0,1,true,false⟩ (some 1) hlate).1
  · exact not_kept_of_opens (f := .queue) (by decide) (by decide +kernel)
  · exact not_kept_of_opens (f := .queue) (by decide) (by decide +kernel)
  · exact not_kept_of_opens (f := .svc) (by decide) (by decide +kernel)

end Phiola.Android.Playback
