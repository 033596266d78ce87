import Mathlib.Data.List.Sort

/-!
# The filters of the Android player

`Track` keeps the filters that hear of a track in a hash map under the names of their classes,
and goes through the values of the map at each event.
-/

namespace Phiola.Android

/-- `STATE_*` -/
inductive State where
  | NONE
  | OPENING
  | SEEKING
  | PLAYING
  | PAUSED
  | UNPAUSE
deriving DecidableEq, Repr

namespace FilterChain

variable {F N : Type} [DecidableEq N]

/-! ## A hash map under strings -/

-- What can be given to `Map.remove()`.
inductive Object (F N : Type) where
  | string (s : N)
  | filter (f : F)
deriving DecidableEq

/-- The entries of a map, in the order in which their keys were first put. -/
structure HashMap (F N : Type) where
  entries : List (N × F)
  nodup : (entries.map Prod.fst).Nodup

def put_entry (k : N) (v : F) : List (N × F) → List (N × F)
  | [] => [(k,v)]
  | e :: es => if e.1 = k then (k,v) :: es else e :: put_entry k v es

theorem keys_put_entry (k : N) (v : F) (es : List (N × F)) :
    (put_entry k v es).map Prod.fst =
      if k ∈ es.map Prod.fst then es.map Prod.fst else es.map Prod.fst ++ [k] := by
  induction es with
  | nil => simp [put_entry]
  | cons e es ih =>
    by_cases he : e.1 = k
    · simp [put_entry,he]
    · have hne : ¬k = e.1 := fun h => he h.symm
      rw [put_entry,if_neg he,List.map_cons,ih]
      by_cases hk : k ∈ es.map Prod.fst
      · simp only [List.map_cons,List.mem_cons,hne,hk,if_true,or_true]
      · simp only [List.map_cons,List.mem_cons,hne,hk,if_false,or_false,List.cons_append]

theorem lookup_put_entry (c k : N) (v : F) (es : List (N × F)) :
    (put_entry k v es).lookup c = if c = k then some v else es.lookup c := by
  induction es with
  | nil => by_cases hc : c = k <;> simp [put_entry,List.lookup_cons,hc,beq_false_of_ne]
  | cons e es ih =>
    obtain ⟨k',v'⟩ := e
    by_cases he : k' = k
    · subst he
      by_cases hc : c = k'
      · simp [put_entry,hc]
      · simp [put_entry,List.lookup_cons,hc,beq_false_of_ne]
    · rw [put_entry,if_neg he]
      by_cases hc : c = k'
      · have : ¬c = k := fun h => he (hc ▸ h)
        simp [hc,he]
      · simp [List.lookup_cons,beq_false_of_ne hc,ih]

def HashMap.put (m : HashMap F N) (k : N) (v : F) : HashMap F N where
  entries := put_entry k v m.entries
  nodup := by
    rw [keys_put_entry]
    split
    · exact m.nodup
    · next hk =>
      refine List.nodup_append.mpr ⟨m.nodup,List.nodup_singleton k,fun a ha b hb => ?_⟩
      obtain rfl := List.mem_singleton.mp hb
      exact fun hab => hk (hab ▸ ha)

def HashMap.remove [DecidableEq F] (m : HashMap F N) (key : Object F N) : HashMap F N where
  entries := m.entries.filter fun e => decide (key ≠ .string e.1)
  nodup := (List.filter_sublist.map Prod.fst).nodup m.nodup

def HashMap.keys (m : HashMap F N) : List N := m.entries.map Prod.fst

def HashMap.get (m : HashMap F N) (k : N) : Option F := m.entries.lookup k

/-- The values in the order in which the table is gone through: it depends on the keys and on
the order in which they were put. -/
def HashMap.values (order : List N → List N) (m : HashMap F N) : List F :=
  (order m.keys).filterMap m.get

/-! ## The events of a track -/

/-- A call of a filter's method. -/
inductive Call (F : Type) where
  | opened (f : F)
  | process (f : F)
  | seeked (f : F)
  | close (f : F)
  | closed (f : F)
deriving DecidableEq, Repr

def Call.filter : Call F → F
  | .opened f | .process f | .seeked f | .close f | .closed f => f

/-- The calls of `trk_close()`, which leaves `STATE_NONE`. -/
def trk_close (filters : List F) : List (Call F) :=
  filters.map .close ++ filters.map .closed

/-- The loop of `start_3()` over the rest of the filters: `answer` is what `open()` returns and
the state that it leaves. -/
def start_3 (answer : F → State → Int × State) (filters : List F) :
    List F → State → List (Call F) × State
  | [], st => ([],st)
  | f :: fs, st =>
    let (r,st) := answer f st
    if r ≠ 0 then (.opened f :: trk_close filters,.NONE)
    else
      let (calls,st) := start_3 answer filters fs st
      (.opened f :: calls,st)

/-- `update()`: a filter may close the track in its `process()`. -/
def update (closes : F → Bool) (filters : List F) : List (Call F) :=
  filters.flatMap fun f => .process f :: if closes f then trk_close filters else []

def seeked (filters : List F) : List (Call F) := filters.map .seeked

structure Track (F N : Type) where
  filters : HashMap F N
  state : State

inductive Act (F : Type) where
  | filter_add (f : F)
  | filter_rm (f : F)
  | filter_notify (f : F)
  | start (answer : F → State → Int × State)
  | update (closes : F → Bool)
  | seek
  | close
  -- `MediaPlayer` or a filter changes `t.state`
  | set_state (st : State)

/-- What an action delivers, and the state that it leaves, when `filters` is gone through. -/
def deliver (filters : List F) (st : State) : Act F → List (Call F) × State
  | .start answer => start_3 answer filters filters st
  | .update closes =>
    (update closes filters,if filters.any closes then .NONE else st)
  | .seek => (seeked filters,st)
  | .close => (trk_close filters,.NONE)
  | .set_state st => ([],st)
  | .filter_add _ | .filter_rm _ | .filter_notify _ => ([],st)

/-! ## An event tells which filters it went to -/

def Call.closeOf : Call F → Option F
  | .close f => some f
  | _ => none

def Call.processOf : Call F → Option F
  | .process f => some f
  | _ => none

theorem filterMap_none_of_map {β : Type} (g : F → Call F) (p : Call F → Option β)
    (h : ∀ f, p (g f) = none) (fs : List F) : (fs.map g).filterMap p = [] := by
  induction fs with
  | nil => rfl
  | cons f fs ih => rw [List.map_cons,List.filterMap_cons_none (h f),ih]

theorem filterMap_map_eq_self (g : F → Call F) (p : Call F → Option F)
    (h : ∀ f, p (g f) = some f) (fs : List F) : (fs.map g).filterMap p = fs := by
  induction fs with
  | nil => rfl
  | cons f fs ih => rw [List.map_cons,List.filterMap_cons_some (h f),ih]

theorem trk_close_closeOf (filters : List F) :
    (trk_close filters).filterMap Call.closeOf = filters := by
  rw [trk_close,List.filterMap_append,filterMap_map_eq_self _ _ fun _ => rfl,
    filterMap_none_of_map _ _ fun _ => rfl,List.append_nil]

theorem trk_close_processOf (filters : List F) :
    (trk_close filters).filterMap Call.processOf = [] := by
  rw [trk_close,List.filterMap_append,filterMap_none_of_map _ _ fun _ => rfl,
    filterMap_none_of_map _ _ fun _ => rfl,List.append_nil]

theorem update_processOf (closes : F → Bool) (filters : List F) :
    (update closes filters).filterMap Call.processOf = filters := by
  have hrest : ∀ fs : List F,
      (fs.flatMap fun f => Call.process f :: if closes f then trk_close filters else []).filterMap
        Call.processOf = fs := by
    intro fs
    induction fs with
    | nil => rfl
    | cons f fs ih =>
      rw [List.flatMap_cons,List.filterMap_append,ih]
      split
      · rw [List.filterMap_cons_some (f := Call.processOf) rfl,trk_close_processOf,
          List.singleton_append]
      · rfl
  exact hrest filters

/-- The chain is opened up to its end, or up to the filter that refuses and closed then. -/
theorem start_3_calls (answer : F → State → Int × State) (filters fs : List F) (st : State) :
    (start_3 answer filters fs st).1 = fs.map .opened ∨
      ∃ pre, pre ≠ [] ∧
        (start_3 answer filters fs st).1 = pre.map .opened ++ trk_close filters := by
  induction fs generalizing st with
  | nil => exact .inl rfl
  | cons f fs ih =>
    rw [start_3]
    by_cases hr : (answer f st).1 ≠ 0
    · exact .inr ⟨[f],List.cons_ne_nil f [],by simp only [if_pos hr]; rfl⟩
    · simp only [if_neg hr]
      rcases ih (answer f st).2 with hall | ⟨pre,-,hpre⟩
      · exact .inl (by rw [hall,List.map_cons])
      · exact .inr ⟨f :: pre,List.cons_ne_nil f pre,by rw [hpre,List.map_cons,List.cons_append]⟩

theorem opened_injective : Function.Injective (Call.opened : F → Call F) :=
  fun _ _ h => Call.opened.inj h

theorem seeked_injective : Function.Injective (Call.seeked : F → Call F) :=
  fun _ _ h => Call.seeked.inj h

theorem refused_closeOf (pre filters : List F) :
    (pre.map Call.opened ++ trk_close filters).filterMap Call.closeOf = filters := by
  rw [List.filterMap_append,filterMap_none_of_map _ _ fun _ => rfl,trk_close_closeOf,
    List.nil_append]

theorem not_refused_of_nil {answer : F → State → Int × State} {st : State} {pre : List F}
    (hne : pre ≠ [])
    (h : (start_3 answer [] [] st).1 = pre.map Call.opened ++ trk_close []) : False :=
  hne (List.map_eq_nil_iff.mp (List.append_eq_nil_iff.mp h.symm).1)

theorem start_3_injective {answer : F → State → Int × State} {st : State} {l m : List F}
    (h : (start_3 answer l l st).1 = (start_3 answer m m st).1) : l = m := by
  rcases start_3_calls answer l l st with hl | ⟨pl,hpl,hl⟩
  · rcases start_3_calls answer m m st with hm | ⟨pm,hpm,hm⟩
    · exact List.map_injective_iff.mpr opened_injective (hl.symm.trans (h.trans hm))
    · have hcl := congrArg (List.filterMap Call.closeOf) (hl.symm.trans (h.trans hm))
      rw [filterMap_none_of_map _ _ fun _ => rfl,refused_closeOf] at hcl
      subst hcl
      exact (not_refused_of_nil hpm hm).elim
  · have hcl := congrArg (List.filterMap Call.closeOf) (hl.symm.trans h)
    rw [refused_closeOf] at hcl
    rcases start_3_calls answer m m st with hm | ⟨pm,-,hm⟩
    · rw [hm,filterMap_none_of_map _ _ fun _ => rfl] at hcl
      subst hcl
      exact (not_refused_of_nil hpl hl).elim
    · rwa [hm,refused_closeOf] at hcl

/-! ## What a call goes to -/

theorem mem_trk_close {filters : List F} {c : Call F} (h : c ∈ trk_close filters) :
    c.filter ∈ filters := by
  rcases List.mem_append.mp h with h | h
  · obtain ⟨f,hf,rfl⟩ := List.mem_map.mp h
    exact hf
  · obtain ⟨f,hf,rfl⟩ := List.mem_map.mp h
    exact hf

theorem mem_start_3 {answer : F → State → Int × State} {filters fs : List F} {st : State}
    {c : Call F} (hfs : ∀ f ∈ fs, f ∈ filters) (h : c ∈ (start_3 answer filters fs st).1) :
    c.filter ∈ filters := by
  induction fs generalizing st with
  | nil => cases h
  | cons f fs ih =>
    have hf := hfs f List.mem_cons_self
    rw [start_3] at h
    by_cases hr : (answer f st).1 ≠ 0
    · simp only [if_pos hr] at h
      rcases List.mem_cons.mp h with rfl | h
      · exact hf
      · exact mem_trk_close h
    · simp only [if_neg hr] at h
      rcases List.mem_cons.mp h with rfl | h
      · exact hf
      · exact ih (fun g hg => hfs g (List.mem_cons_of_mem f hg)) h

theorem mem_update {closes : F → Bool} {filters : List F} {c : Call F}
    (h : c ∈ update closes filters) : c.filter ∈ filters := by
  obtain ⟨f,hf,hc⟩ := List.mem_flatMap.mp h
  rcases List.mem_cons.mp hc with rfl | hc
  · exact hf
  · split at hc
    · exact mem_trk_close hc
    · cases hc

theorem all_prefixes {β : Type} {P : List β → β → Prop} {as : List β}
    (h : ∀ i, ∀ hi : i < as.length, P (as.take i) as[i]) :
    ∀ pre a, pre ++ [a] <+: as → P pre a := by
  rintro pre a ⟨post,rfl⟩
  have hi := h pre.length (by simp)
  simpa using hi

section Model

variable [DecidableEq F]

-- `f.getClass().getName()`, and the order in which a table with these keys is gone through
variable (getName : F → N) (order : List N → List N)

def filter_add (t : Track F N) (f : F) : Track F N :=
  {t with filters := t.filters.put (getName f) f}

def filter_rm (t : Track F N) (f : F) : Track F N :=
  {t with filters := t.filters.remove (.filter f)}

def filter_notify (t : Track F N) (f : F) : List (Call F) :=
  if t.state ≠ .NONE then [.opened f,.process f] else []

def step (t : Track F N) : Act F → Track F N
  | .filter_add f => filter_add getName t f
  | .filter_rm f => filter_rm t f
  | a => {t with state := (deliver (t.filters.values order) t.state a).2}

def calls (t : Track F N) : Act F → List (Call F)
  | .filter_notify f => filter_notify t f
  | a => (deliver (t.filters.values order) t.state a).1

def Track.init : Track F N := ⟨⟨[],List.nodup_nil⟩,.NONE⟩

def run (hist : List (Act F)) : Track F N := hist.foldl (step getName order) .init

/-! ## What is promised -/

/-- What a history says of the filters. -/
structure History (F N : Type) where
  -- added and not removed since, in the order of adding
  chain : List F
  -- the classes of all filters that were added, in the order of their first ones
  classes : List N
  -- the last filter added of a class
  last : N → Option F

def History.next (h : History F N) : Act F → History F N
  | .filter_add f =>
    { chain := if f ∈ h.chain then h.chain else h.chain ++ [f]
      classes := if getName f ∈ h.classes then h.classes else h.classes ++ [getName f]
      last := fun c => if c = getName f then some f else h.last c }
  | .filter_rm f => {h with chain := h.chain.filter fun g => decide (g ≠ f)}
  | _ => h

def history (hist : List (Act F)) : History F N :=
  hist.foldl (History.next getName) ⟨[],[],fun _ => none⟩

/-- The calls that the next action is to make. -/
def promised (chain : List F) (st : State) : Act F → List (Call F)
  | .filter_notify f => if st ≠ .NONE ∧ f ∈ chain then [.opened f,.process f] else []
  | a => (deliver chain st a).1

/-- Each action delivers its event to the filters of the chain, and nothing to another one. -/
def Kept (as : List (Act F)) : Prop :=
  ∀ pre a, pre ++ [a] <+: as →
    let chain := (history getName pre : History F N).chain
    let t := run getName order pre
    calls order t a = promised chain t.state a ∧
      ∀ f, f ∉ chain → ∀ c ∈ calls order t a, c.filter ≠ f

/-- The map can stand for the chain. -/
structure Settled (h : History F N) : Prop where
  -- no filter was replaced by a later one of its class
  current : ∀ f ∈ h.chain, h.last (getName f) = some f
  -- no filter was removed unless another one of its class was added later
  present : ∀ c ∈ h.classes, ∃ f ∈ h.chain, h.last c = some f
  -- the table is gone through in the order of adding
  ordered : order h.classes = h.chain.map getName

instance (h : History F N) : Decidable (Settled getName order h) :=
  decidable_of_iff ((∀ f ∈ h.chain, h.last (getName f) = some f) ∧
      (∀ c ∈ h.classes, ∃ f ∈ h.chain, h.last c = some f) ∧
      order h.classes = h.chain.map getName)
    ⟨fun ⟨hc,hp,ho⟩ => ⟨hc,hp,ho⟩,fun ⟨hc,hp,ho⟩ => ⟨hc,hp,ho⟩⟩

/-- Events come when the map can stand for the chain, and `filter_notify()` is given a filter of
the chain. -/
def Clear (pre : List (Act F)) : Act F → Prop
  | .filter_add _ | .filter_rm _ | .set_state _ => True
  | .filter_notify f =>
    (run getName order pre).state = .NONE ∨ f ∈ (history getName pre : History F N).chain
  | .start _ | .update _ | .seek | .close => Settled getName order (history getName pre)

instance (pre : List (Act F)) : ∀ a, Decidable (Clear getName order pre a)
  | .filter_add _ | .filter_rm _ | .set_state _ => inferInstanceAs (Decidable True)
  | .filter_notify f =>
    inferInstanceAs (Decidable ((run getName order pre).state = .NONE ∨
      f ∈ (history getName pre : History F N).chain))
  | .start _ | .update _ | .seek | .close =>
    inferInstanceAs (Decidable (Settled getName order (history getName pre)))

end Model

/-! ## The map of a history -/

section Proofs

variable {getName : F → N} {order : List N → List N}

/-- The map has the classes of all filters that were added, each with its last filter. -/
structure Tracks (getName : F → N) (t : Track F N) (h : History F N) : Prop where
  keys : t.filters.keys = h.classes
  get : ∀ c, t.filters.get c = h.last c
  named : ∀ c f, h.last c = some f → getName f = c
  known : ∀ c, c ∈ h.classes ↔ (h.last c).isSome

/-- The map stands for the chain exactly when no class was used twice at a time, no removal was
left without a later filter of the class and the orders agree. -/
theorem Tracks.values_eq_chain_iff {t : Track F N} {h : History F N} (ht : Tracks getName t h)
    (horder : ∀ ks, (order ks).Perm ks) :
    t.filters.values order = h.chain ↔ Settled getName order h := by
  have hvalues : t.filters.values order = (order h.classes).filterMap h.last := by
    rw [HashMap.values,ht.keys,funext ht.get]
  rw [hvalues]
  constructor
  · intro heq
    have hnames : ∀ ks, (∀ c ∈ ks, c ∈ h.classes) →
        (List.filterMap h.last ks).map getName = ks := by
      intro ks hks
      induction ks with
      | nil => rfl
      | cons c cs ih =>
        obtain ⟨f,hf⟩ := Option.isSome_iff_exists.mp ((ht.known c).mp (hks c List.mem_cons_self))
        rw [List.filterMap_cons_some hf,List.map_cons,ht.named c f hf,
          ih fun d hd => hks d (List.mem_cons_of_mem c hd)]
    refine ⟨fun f hf => ?_,fun c hc => ?_,?_⟩
    · obtain ⟨c,-,hc⟩ := List.mem_filterMap.mp (heq ▸ hf)
      rw [ht.named c f hc,hc]
    · obtain ⟨f,hf⟩ := Option.isSome_iff_exists.mp ((ht.known c).mp hc)
      refine ⟨f,heq ▸ List.mem_filterMap.mpr ⟨c,?_,hf⟩,hf⟩
      exact (horder h.classes).mem_iff.mpr hc
    · rw [← heq]
      exact (hnames _ fun c hc => (horder h.classes).mem_iff.mp hc).symm
  · intro hs
    have hlast : ∀ fs, (∀ f ∈ fs, h.last (getName f) = some f) →
        (List.map getName fs).filterMap h.last = fs := by
      intro fs hfs
      induction fs with
      | nil => rfl
      | cons f fs ih =>
        rw [List.map_cons,List.filterMap_cons_some (hfs f List.mem_cons_self),
          ih fun g hg => hfs g (List.mem_cons_of_mem f hg)]
    rw [hs.ordered,hlast h.chain hs.current]

variable [DecidableEq F]

@[simp] theorem filter_rm_eq (t : Track F N) (f : F) : filter_rm t f = t := by
  simp [filter_rm,HashMap.remove]

theorem Tracks.add {t : Track F N} {h : History F N} (ht : Tracks getName t h) (f : F) :
    Tracks getName (filter_add getName t f) (h.next getName (.filter_add f)) where
  keys := by
    rw [History.next,← ht.keys]
    exact keys_put_entry (getName f) f t.filters.entries
  get c := by
    change _ = if c = getName f then some f else h.last c
    rw [← ht.get c]
    exact lookup_put_entry c (getName f) f t.filters.entries
  named c g hg := by
    dsimp only [History.next] at hg
    split at hg
    · next hc => exact Option.some.inj hg ▸ hc.symm
    · exact ht.named c g hg
  known c := by
    dsimp only [History.next]
    have hold := ht.known c
    by_cases hc : c = getName f
    · subst hc
      split <;> simp_all
    · split <;> simp [hc,hold]

theorem Tracks.step {t : Track F N} {h : History F N} (ht : Tracks getName t h) (a : Act F) :
    Tracks getName (step getName order t a) (h.next getName a) := by
  cases a with
  | filter_add f => exact ht.add f
  | filter_rm f =>
    rw [FilterChain.step,filter_rm_eq]
    exact ⟨ht.keys,ht.get,ht.named,ht.known⟩
  | _ => exact ⟨ht.keys,ht.get,ht.named,ht.known⟩

theorem tracks_foldl {t : Track F N} {h : History F N} (ht : Tracks getName t h)
    (as : List (Act F)) :
    Tracks getName (as.foldl (step getName order) t) (as.foldl (History.next getName) h) := by
  induction as generalizing t h with
  | nil => exact ht
  | cons a as ih => exact ih (ht.step a)

theorem tracks_run (hist : List (Act F)) :
    Tracks getName (run getName order hist) (history getName hist) :=
  tracks_foldl ⟨rfl,fun _ => rfl,by simp,by simp⟩ hist

theorem mem_promised {chain : List F} {st : State} {a : Act F} {c : Call F}
    (h : c ∈ promised chain st a) : c.filter ∈ chain := by
  cases a with
  | filter_notify f =>
    dsimp only [promised] at h
    split at h
    · next hf => rcases List.mem_cons.mp h with rfl | h
                 · exact hf.2
                 · obtain rfl := List.mem_singleton.mp h
                   exact hf.2
    · cases h
  | start answer => exact mem_start_3 (fun f hf => hf) h
  | update closes => exact mem_update h
  | seek =>
    obtain ⟨f,hf,rfl⟩ := List.mem_map.mp h
    exact hf
  | close => exact mem_trk_close h
  | filter_add f => cases h
  | filter_rm f => cases h
  | set_state st => cases h

/-! ## The theorem -/

theorem calls_eq_promised_iff (horder : ∀ ks, (order ks).Perm ks) (pre : List (Act F))
    (a : Act F) :
    calls order (run getName order pre) a =
        promised (history getName pre).chain (run getName order pre).state a ↔
      Clear getName order pre a := by
  have hiff := (@tracks_run _ _ _ getName order _ pre).values_eq_chain_iff horder
  cases a with
  | filter_add f => exact iff_of_true rfl trivial
  | filter_rm f => exact iff_of_true rfl trivial
  | set_state st => exact iff_of_true rfl trivial
  | filter_notify f =>
    dsimp only [calls,filter_notify,promised,Clear]
    by_cases hst : (run getName order pre).state = .NONE
    · simp [hst]
    · by_cases hf : f ∈ (history getName pre).chain <;> simp [hst,hf]
  | start answer =>
    refine Iff.trans ⟨fun h => start_3_injective h,fun h => ?_⟩ hiff
    exact congrArg (fun l => (start_3 answer l l (run getName order pre).state).1) h
  | update closes =>
    refine Iff.trans ⟨fun h => ?_,fun h => congrArg (update closes) h⟩ hiff
    have hp := congrArg (List.filterMap Call.processOf) h
    dsimp only [calls,promised,deliver] at hp
    rwa [update_processOf,update_processOf] at hp
  | seek =>
    exact Iff.trans ⟨fun h => List.map_injective_iff.mpr seeked_injective h,
      fun h => congrArg seeked h⟩ hiff
  | close =>
    refine Iff.trans ⟨fun h => ?_,fun h => congrArg trk_close h⟩ hiff
    have hp := congrArg (List.filterMap Call.closeOf) h
    dsimp only [calls,promised,deliver] at hp
    rwa [trk_close_closeOf,trk_close_closeOf] at hp

/-- In every history each event goes to the chain as promised exactly when the map can stand for
the chain at each event. -/
theorem events_kept_iff (horder : ∀ ks, (order ks).Perm ks) (as : List (Act F)) :
    Kept getName order as ↔ ∀ pre a, pre ++ [a] <+: as → Clear getName order pre a := by
  constructor
  · intro h pre a ha
    exact (calls_eq_promised_iff horder pre a).mp (h pre a ha).1
  · intro h pre a ha
    have heq := (calls_eq_promised_iff horder pre a).mpr (h pre a ha)
    refine ⟨heq,fun f hf c hc hcf => hf ?_⟩
    exact hcf ▸ mem_promised (heq ▸ hc)

end Proofs

/-! ## The filters of the application -/

inductive App where
  | queue
  | mp
  | sysJobs
  | svc
  | trk_nfy
  -- that of the next activity
  | trk_nfy2
  | lyrics
deriving DecidableEq, Repr

inductive ClassName where
  | Queue_1
  | MP_1
  | SysJobs
  | Svc_1
  | MainActivity_2
  | Lyrics
deriving DecidableEq, Repr

def App.getName : App → ClassName
  | .queue => .Queue_1
  | .mp => .MP_1
  | .sysJobs => .SysJobs
  | .svc => .Svc_1
  | .trk_nfy | .trk_nfy2 => .MainActivity_2
  | .lyrics => .Lyrics

/-- `hashCode()` of the full name, `com.github.stsaz.phiola.*` -/
def ClassName.hashCode : ClassName → Nat
  | .Queue_1 => 0xa1c2b204
  | .MP_1 => 0xfc97da6a
  | .SysJobs => 0x13147569
  | .Svc_1 => 0x96ca3113
  | .MainActivity_2 => 0x27c24310
  | .Lyrics => 0x36bc268e

/-- The place in a table of 16. -/
def ClassName.bucket (c : ClassName) : Nat := (c.hashCode ^^^ c.hashCode >>> 16) % 16

def tableOrder (ks : List ClassName) : List ClassName :=
  ks.insertionSort fun a b => a.bucket ≤ b.bucket

theorem events_kept_restarted :
    Kept App.getName tableOrder [.filter_add .trk_nfy,.start fun _ _ => (0,.OPENING),.close,
      .filter_rm .trk_nfy,.filter_add .trk_nfy2,.filter_notify .trk_nfy2,.filter_add .queue,
      .start fun _ _ => (0,.OPENING),.filter_notify .trk_nfy2,.update fun f => f = .queue] :=
  (events_kept_iff (fun ks => List.perm_insertionSort _ ks) _).mpr
    (all_prefixes (by decide +kernel))

/-- A filter that was removed gets an event, and the events do not go to `Queue`, `MP`,
`SysJobs` and `Svc` in this order. -/
theorem removed_filter_called :
    ¬Kept App.getName tableOrder [.filter_add .trk_nfy,.filter_rm .trk_nfy,.seek] ∧
      ¬Kept App.getName tableOrder [.filter_add .queue,.filter_add .mp,.filter_add .sysJobs,
        .filter_add .svc,.seek] := by
  constructor
  · intro h
    exact absurd (h [.filter_add .trk_nfy,.filter_rm .trk_nfy] .seek ⟨[],rfl⟩).1
      (by decide +kernel)
  · intro h
    exact absurd (h [.filter_add .queue,.filter_add .mp,.filter_add .sysJobs,.filter_add .svc]
      .seek ⟨[],rfl⟩).1 (by decide +kernel)

end FilterChain

end Phiola.Android
