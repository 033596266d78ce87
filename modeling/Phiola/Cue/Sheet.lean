import Mathlib.Data.List.Sort
import Phiola.Command.Conf
import Phiola.Cue.Index

/-!
# Entries of a cue sheet

An entry is inserted when an index of the next track is read, so `cue_process()` holds what it read
of the finished track and of the one that it reads at the same time. The sheet comes in chunks;
`PHI_FFIRST` is set with the last one.
-/

namespace Phiola

/-- `ffarrint32_binfind()` on a sorted array. -/
structure BinFind where
  find : List Nat → Nat → Option Nat
  found : ∀ l v n, find l v = some n → l[n]? = some v
  absent : ∀ l v, l.Pairwise (· ≤ ·) → find l v = none → v ∉ l

/-- The track of the sheet and the functions of other modules: `path` is `plist_fullname()`. -/
structure CueConf where
  conf : TrackConf
  path : String → String
  search : BinFind

namespace CueConf

/-- `-tracks` -/
def listed (cf : CueConf) : List Nat := (cf.conf.tracks.map Block.val).getD []

/-- The same array as `cue_open()` sorts it. -/
def tracks (cf : CueConf) : List Nat := cf.listed.insertionSort (· ≤ ·)

/-- Whether track `k` is selected, and then whether it is the last one that is. -/
def select (cf : CueConf) (k : Nat) : Option Bool :=
  if cf.tracks.length ≠ 0 then
    (cf.search.find cf.tracks k).map fun n => n == cf.tracks.length - 1
  else some false

end CueConf

/-- `struct phi_queue_entry`; `trk` is the number of the track in the sheet, which is no field of the
source. -/
structure CueEntry where
  conf : TrackConf
  lengthMsec : UInt32
  trk : Nat

/-- `struct cue`. The tags are pairs here, so that `nmeta` counts pairs; `inserted` is what was
inserted into the queue, each entry after the one before it, and `heap` the next free address. -/
structure Cue where
  cu : FfCue
  url : String
  gmetas : Meta
  metas : Meta
  nmeta : Nat
  curtrk : Nat
  haveGmeta : Bool
  inserted : List CueEntry
  heap : Nat

namespace Cue

/-- `cue_open()` -/
def init (gaps : CueGap) (heap : Nat) : Cue where
  cu := ⟨gaps,0,⟨0,0⟩,false,false⟩
  url := ""
  gmetas := []
  metas := []
  nmeta := 0
  curtrk := 0
  haveGmeta := false
  inserted := []
  heap := heap

def push (c : Cue) (name val : String) : Cue := { c with metas := c.metas ++ [(name,val)] }

/-- The `switch` of `cue_process()`. -/
def store (cf : CueConf) (c : Cue) : CueEvent → Cue
  | .title v => c.push "album" v
  | .trkNum v => { c with nmeta := c.metas.length }.push "tracknumber" v
  | .trkTitle v => c.push "title" v
  | .trkPerformer v => c.push "artist" v
  | .performer v => c.push "artist" v
  | .rem n v => c.push n v
  | .file name =>
    let c := if c.haveGmeta then c
      else { c with haveGmeta := true, gmetas := c.metas, metas := [] }
    { c with url := cf.path name }
  | _ => c

/-- The length of an entry, in 32 bits. -/
def lengthMsec (r : FfCueTrk) : UInt32 := if r.to_ ≠ 0 then (r.to_ - r.from_) * 1000 / 75 else 0

/-- `add()` -/
def add (cf : CueConf) (c : Cue) (r : FfCueTrk) : Cue :=
  let p := cueAdd cf.conf c.url r.from_.toNat r.to_.toNat c.gmetas (c.metas.take c.nmeta) c.heap
  { c with inserted := c.inserted ++ [⟨p.1,lengthMsec r,c.curtrk⟩], heap := p.2 }

/-- The label `next`: the tags of the finished track are removed. -/
def next (c : Cue) : Cue :=
  { c with metas := c.metas.drop c.nmeta, nmeta := (c.metas.drop c.nmeta).length }

/-- Neither the end of the sheet nor a range that `cue_process()` rejects. -/
def Invalid (r : FfCueTrk) : Prop := r.to_ ≠ 0 ∧ r.to_ ≤ r.from_

instance (r : FfCueTrk) : Decidable (Invalid r) :=
  inferInstanceAs (Decidable (r.to_ ≠ 0 ∧ r.to_ ≤ r.from_))

/-- The label `add`, for a range; with the new value of `done`. -/
def range (cf : CueConf) (c : Cue) (r : FfCueTrk) (done : Bool) : Cue × Bool :=
  let c := { c with curtrk := c.curtrk + 1 }
  match cf.select c.curtrk with
  | none => (c.next, done)
  | some last =>
    if Invalid r then (c, done || last) -- "invalid INDEX values"
    else ((c.add cf r).next, done || last)

/-- The loop of `cue_process()` for one event. -/
def event (cf : CueConf) (c : Cue) : CueEvent → Cue × Bool
  | .warn => (c, false)
  | e =>
    let c := c.store cf e
    match ffcueIndex c.cu e with
    | (cu, none) => ({ c with cu := cu }, false)
    | (cu, some r) => { c with cu := cu }.range cf r false

/-- The loop up to `done` or CUEREAD_MORE. -/
def loop (cf : CueConf) (c : Cue) : List CueEvent → Cue × Bool
  | [] => (c, false)
  | e :: es =>
    match c.event cf e with
    | (c, true) => (c, true)
    | (c, false) => loop cf c es

/-- The end of the sheet. -/
def finish (cf : CueConf) (c : Cue) : Cue :=
  ({ c with cu := (ffcueFinal c.cu).1, nmeta := c.metas.length }.range cf (ffcueFinal c.cu).2 true).1

/-- `cue_process()`; `first` is PHI_FFIRST. Returns whether the result is PHI_FIN. -/
def process (cf : CueConf) (c : Cue) (es : List CueEvent) (first : Bool) : Cue × Bool :=
  match c.loop cf es with
  | (c, true) => (c, true)
  | (c, false) => if first then (c.finish cf, true) else (c, false)

/-- The calls for a sheet that comes in the chunks `init` and `last`. -/
def calls (cf : CueConf) (c : Cue) : List (List CueEvent) → List CueEvent → Cue
  | [], last => (c.process cf last true).1
  | es :: init, last =>
    match c.process cf es false with
    | (c, true) => c
    | (c, false) => calls cf c init last

end Cue

/-- A cue sheet: the tags before its first FILE, and its FILE sections. -/
structure CueSheet where
  tags : List CueTag
  file1 : CueFile
  files : List CueFile

def CueSheet.events (s : CueSheet) : List CueEvent :=
  s.tags.map CueTag.globalEvent ++ (s.file1 :: s.files).flatMap CueFile.events

/-- The selected ones of the tracks after track `n`. -/
def selected {α : Type} (ts : List Nat) : Nat → List α → List α
  | _, [] => []
  | n, x :: xs =>
    if ts = [] ∨ n + 1 ∈ ts then x :: selected ts (n + 1) xs else selected ts (n + 1) xs

/-- The file name and the range of an entry. -/
def CueEntry.place (e : CueEntry) : Option String × Nat × Nat :=
  (e.conf.ifileName.map Block.val, e.conf.seekCdframes, e.conf.untilCdframes)

def FfCueTrk.place (url : String) (r : FfCueTrk) : Option String × Nat × Nat :=
  (some url, r.from_.toNat, r.to_.toNat)

/-- The entries that the sheet asks for: one for each TRACK, in order, with the name of its FILE. -/
def CueSheet.wanted (s : CueSheet) (path : String → String) (g : CueGap) :
    List (Option String × Nat × Nat) :=
  (s.file1 :: s.files).flatMap fun f => (f.documented g).map (FfCueTrk.place (path f.name))

section Selected

variable {α β : Type} {ts : List Nat} {n : Nat}

theorem selected_nil_left (xs : List α) : selected [] n xs = xs := by
  induction xs generalizing n with
  | nil => rfl
  | cons x xs ih => simp [selected,ih]

theorem selected_append (xs ys : List α) :
    selected ts n (xs ++ ys) = selected ts n xs ++ selected ts (n + xs.length) ys := by
  induction xs generalizing n with
  | nil => rfl
  | cons x xs ih =>
    have hn : n + (x :: xs).length = n + 1 + xs.length := by rw [List.length_cons]; omega
    simp only [List.cons_append,selected,hn]
    split_ifs
    · rw [ih,List.cons_append]
    · exact ih

theorem selected_eq_nil {xs : List α} (hts : ts ≠ []) (h : ∀ k ∈ ts, k ≤ n ∨ n + xs.length < k) :
    selected ts n xs = [] := by
  induction xs generalizing n with
  | nil => rfl
  | cons x xs ih =>
    rw [List.length_cons] at h
    have hn : n + 1 ∉ ts := fun hm => by have := h _ hm; omega
    rw [selected,if_neg (not_or.mpr ⟨hts,hn⟩)]
    apply ih
    intro k hk
    have := h k hk
    omega

end Selected

namespace CueConf

theorem mem_tracks (cf : CueConf) {k : Nat} : k ∈ cf.tracks ↔ k ∈ cf.listed :=
  List.mem_insertionSort _

theorem tracks_nil (cf : CueConf) : cf.tracks.length = 0 ↔ cf.listed = [] := by
  rw [tracks,List.length_insertionSort,List.length_eq_zero_iff]

theorem select_none {cf : CueConf} {k : Nat} (h : cf.select k = none) :
    ¬ (cf.listed = [] ∨ k ∈ cf.listed) := by
  unfold select at h
  split at h
  case isFalse => cases h
  case isTrue hl =>
    have hk := cf.search.absent _ _ (List.pairwise_insertionSort _ _) (Option.map_eq_none_iff.mp h)
    exact not_or.mpr ⟨fun hn => hl (cf.tracks_nil.mpr hn),fun hm => hk (cf.mem_tracks.mpr hm)⟩

theorem select_some {cf : CueConf} {k : Nat} {last : Bool} (h : cf.select k = some last) :
    (cf.listed = [] ∨ k ∈ cf.listed) ∧
      (last = true → cf.listed ≠ [] ∧ ∀ j ∈ cf.listed, j ≤ k) := by
  unfold select at h
  split at h
  case isFalse hl =>
    have hn : cf.listed = [] := cf.tracks_nil.mp (by simpa using hl)
    cases h
    exact ⟨.inl hn,fun hf => by cases hf⟩
  case isTrue hl =>
    obtain ⟨n,hn,rfl⟩ := Option.map_eq_some_iff.mp h
    have hget := cf.search.found _ _ _ hn
    refine ⟨.inr (cf.mem_tracks.mp (List.mem_of_getElem? hget)),fun hlast => ?_⟩
    refine ⟨fun hnil => hl (cf.tracks_nil.mpr hnil),fun j hj => ?_⟩
    have hlen : n = cf.tracks.length - 1 := by simpa using hlast
    obtain ⟨i,hi,hij⟩ := List.getElem_of_mem (cf.mem_tracks.mpr hj)
    obtain ⟨hn',hk⟩ := List.getElem?_eq_some_iff.mp hget
    have hsorted := List.pairwise_iff_getElem.mp
      (List.pairwise_insertionSort (· ≤ ·) cf.listed) i n
    rcases Nat.lt_or_ge i n with hlt | hge
    · have := hsorted hi hn' hlt
      rw [← hij,← hk]
      exact this
    · have hin : i = n := by omega
      subst hin
      exact Nat.le_of_eq (by rw [← hij,← hk])

end CueConf

/-- The ranges of a list of events, with the name of the FILE that each is given under. -/
def placed (path : String → String) (cu : FfCue) (url : String) :
    List CueEvent → List (String × FfCueTrk)
  | [] => []
  | e :: es =>
    let url := match e with
      | .file name => path name
      | _ => url
    (ffcueIndex cu e).2.toList.map (url,·) ++ placed path (ffcueIndex cu e).1 url es

/-- The name of the FILE after a list of events. -/
def lastUrl (path : String → String) (url : String) : List CueEvent → String
  | [] => url
  | .file name :: es => lastUrl path (path name) es
  | _ :: es => lastUrl path url es

namespace Cue

/-- All listed numbers were met. -/
def Passed (cf : CueConf) (k : Nat) : Prop := cf.listed ≠ [] ∧ ∀ j ∈ cf.listed, j ≤ k

variable {cf : CueConf}

theorem cueAdd_place (t : TrackConf) (url : String) (start stop : Nat) (gmetas metas : Meta)
    (h : Nat) (l : UInt32) (k : Nat) :
    CueEntry.place ⟨(cueAdd t url start stop gmetas metas h).1,l,k⟩ = (some url, start, stop) :=
  rfl

theorem range_skip {c : Cue} {r : FfCueTrk} {done : Bool} (h : cf.select (c.curtrk + 1) = none) :
    c.range cf r done = ({ c with curtrk := c.curtrk + 1 }.next, done) := by
  simp only [range,h]

theorem range_add {c : Cue} {r : FfCueTrk} {done last : Bool}
    (h : cf.select (c.curtrk + 1) = some last) (hr : ¬ Invalid r) :
    c.range cf r done = (({ c with curtrk := c.curtrk + 1 }.add cf r).next, done || last) := by
  simp only [range,h,if_neg hr]

/-- A range is inserted for its track or it is skipped, and the tracks are counted. -/
theorem range_spec (cf : CueConf) (c : Cue) {r : FfCueTrk} (hr : ¬ Invalid r) (done : Bool) :
    (c.range cf r done).1.cu = c.cu ∧ (c.range cf r done).1.url = c.url ∧
      (c.range cf r done).1.curtrk = c.curtrk + 1 ∧
      (c.range cf r done).1.inserted.map CueEntry.place =
        c.inserted.map CueEntry.place ++ selected cf.listed c.curtrk [r.place c.url] ∧
      ((c.range cf r done).2 = true → done = true ∨ Passed cf (c.curtrk + 1)) := by
  cases hs : cf.select (c.curtrk + 1) with
  | none =>
    rw [range_skip hs]
    refine ⟨rfl,rfl,rfl,?_,fun h => .inl h⟩
    rw [selected,if_neg (CueConf.select_none hs),selected,List.append_nil]
    rfl
  | some last =>
    obtain ⟨hsel,hlast⟩ := CueConf.select_some hs
    rw [range_add hs hr]
    refine ⟨rfl,rfl,rfl,?_,fun h => ?_⟩
    · rw [selected,if_pos hsel,selected]
      simp only [add,next,List.map_append,List.map_cons,List.map_nil,cueAdd_place]
      rfl
    · rcases (Bool.or_eq_true _ _).mp h with h | h
      · exact .inl h
      · exact .inr (hlast h)

theorem event_eq (c : Cue) (e : CueEvent) :
    c.event cf e =
      match ffcueIndex c.cu e with
      | (cu, none) => ({ c.store cf e with cu := cu }, false)
      | (cu, some r) => { c.store cf e with cu := cu }.range cf r false := by
  cases e
  case file => cases h : c.haveGmeta <;> simp [event,store,ffcueIndex,h]
  all_goals rfl

theorem store_spec (cf : CueConf) (c : Cue) (e : CueEvent) :
    (c.store cf e).curtrk = c.curtrk ∧ (c.store cf e).inserted = c.inserted ∧
      (c.store cf e).url = lastUrl cf.path c.url [e] := by
  cases e
  case file => cases h : c.haveGmeta <;> simp [store,lastUrl,h]
  all_goals exact ⟨rfl,rfl,rfl⟩

theorem placed_cons (path : String → String) (cu : FfCue) (url : String) (e : CueEvent)
    (es : List CueEvent) :
    placed path cu url (e :: es) =
      (ffcueIndex cu e).2.toList.map (lastUrl path url [e],·) ++
        placed path (ffcueIndex cu e).1 (lastUrl path url [e]) es := by
  cases e <;> rfl

theorem lastUrl_cons (path : String → String) (url : String) (e : CueEvent) (es : List CueEvent) :
    lastUrl path url (e :: es) = lastUrl path (lastUrl path url [e]) es := by
  cases e <;> rfl

/-- What the loop has done after some of the events. -/
structure Looped (cf : CueConf) (c : Cue) (es : List CueEvent) (p : Cue × Bool) : Prop where
  inserted : p.1.inserted.map CueEntry.place = c.inserted.map CueEntry.place ++
    selected cf.listed c.curtrk ((placed cf.path c.cu c.url es).map fun x => x.2.place x.1)
  more : p.2 = false → p.1.cu = (indexRun c.cu es).1 ∧ p.1.url = lastUrl cf.path c.url es ∧
    p.1.curtrk = c.curtrk + (placed cf.path c.cu c.url es).length
  done : p.2 = true → Passed cf (c.curtrk + (placed cf.path c.cu c.url es).length)

theorem Passed.selected_nil {k : Nat} {α : Type} (h : Passed cf k) (xs : List α) :
    selected cf.listed k xs = [] :=
  selected_eq_nil h.1 fun j hj => .inl (h.2 j hj)

theorem Passed.mono {j k : Nat} (h : Passed cf j) (hjk : j ≤ k) : Passed cf k :=
  ⟨h.1,fun i hi => (h.2 i hi).trans hjk⟩

theorem event_spec (cf : CueConf) (c : Cue) (e : CueEvent)
    (hv : ∀ r, (ffcueIndex c.cu e).2 = some r → ¬ Invalid r) : Looped cf c [e] (c.event cf e) := by
  obtain ⟨hk,hi,hu⟩ := store_spec cf c e
  rw [event_eq]
  cases hx : ffcueIndex c.cu e with
  | mk cu o =>
    have hrun : (indexRun c.cu [e]).1 = cu := by simp only [indexRun,hx]
    have hplaced : placed cf.path c.cu c.url [e] = o.toList.map (lastUrl cf.path c.url [e],·) := by
      rw [placed_cons,hx]
      exact List.append_nil _
    cases o with
    | none =>
      refine ⟨?_,fun _ => ⟨hrun.symm,hu,?_⟩,fun h => by cases h⟩
      · rw [hplaced,Option.toList_none,List.map_nil,List.map_nil,selected,List.append_nil]
        exact congrArg (List.map CueEntry.place) hi
      · rw [hplaced]
        exact hk
    | some r =>
      have hr := hv r (by rw [hx])
      obtain ⟨h1,h2,h3,h4,h5⟩ :=
        range_spec cf { c.store cf e with cu := cu } hr false
      have hlen : (placed cf.path c.cu c.url [e]).length = 1 := by rw [hplaced]; rfl
      rw [hu,hk,hi] at h4
      refine ⟨?_,fun _ => ⟨h1.trans hrun.symm,h2.trans hu,?_⟩,fun h => ?_⟩
      · rw [hplaced]
        exact h4
      · rw [hlen]
        exact h3.trans (congrArg (· + 1) hk)
      · have hp := (h5 h).resolve_left Bool.false_ne_true
        rw [hlen]
        exact hk ▸ hp

theorem loop_spec (cf : CueConf) (c : Cue) (es : List CueEvent)
    (hv : ∀ x ∈ placed cf.path c.cu c.url es, ¬ Invalid x.2) : Looped cf c es (c.loop cf es) := by
  induction es generalizing c with
  | nil => exact ⟨(List.append_nil _).symm,fun _ => ⟨rfl,rfl,rfl⟩,fun h => by cases h⟩
  | cons e es ih =>
    rw [placed_cons] at hv
    have he := event_spec cf c e fun r hr =>
      hv (_,r) (List.mem_append_left _ (by rw [hr]; exact List.mem_singleton_self _))
    have hcons : placed cf.path c.cu c.url (e :: es) = placed cf.path c.cu c.url [e] ++
        placed cf.path (ffcueIndex c.cu e).1 (lastUrl cf.path c.url [e]) es := by
      rw [placed_cons,placed_cons _ _ _ e []]
      simp only [placed,List.append_nil]
    rw [loop]
    cases hx : c.event cf e with
    | mk c' d =>
      rw [hx] at he
      cases d with
      | true =>
        have hp := he.done rfl
        refine ⟨?_,fun h => by (cases h),fun _ => hp.mono ?_⟩
        · have hi := he.inserted
          rw [hcons,List.map_append,selected_append,List.length_map,hp.selected_nil,List.append_nil]
          exact hi
        · rw [hcons,List.length_append]
          omega
      | false =>
        obtain ⟨hcu,hurl,hk⟩ := he.more rfl
        have hi := he.inserted
        dsimp only at hcu hurl hk hi ⊢
        have hcu' : c'.cu = (ffcueIndex c.cu e).1 := hcu
        have hl := ih c' (by
          rw [hcu',hurl]
          exact fun x hx => hv x (List.mem_append_right _ hx))
        rw [← hcu',← hurl] at hcons
        refine ⟨?_,fun h => ?_,fun h => ?_⟩
        · rw [hl.inserted,hi,hcons,List.map_append,selected_append,List.length_map,← hk,
            List.append_assoc]
        · obtain ⟨h1,h2,h3⟩ := hl.more h
          refine ⟨?_,?_,?_⟩
          · rw [h1,hcu']
            rfl
          · rw [h2,hurl]
            exact (lastUrl_cons _ _ _ _).symm
          · rw [h3,hk,hcons,List.length_append]
            omega
        · refine (hl.done h).mono ?_
          rw [hk,hcons,List.length_append]
          omega

theorem process_spec (c : Cue) (es : List CueEvent)
    (hv : ∀ x ∈ placed cf.path c.cu c.url es, ¬ Invalid x.2) :
    (c.process cf es true).1.inserted.map CueEntry.place = c.inserted.map CueEntry.place ++
      selected cf.listed c.curtrk ((placed cf.path c.cu c.url es).map (fun x => x.2.place x.1) ++
        [(ffcueFinal (indexRun c.cu es).1).2.place (lastUrl cf.path c.url es)]) := by
  have hl := loop_spec cf c es hv
  have hi := hl.inserted
  rw [process,selected_append,List.length_map,← List.append_assoc]
  cases hx : c.loop cf es with
  | mk c' d =>
    rw [hx] at hl hi
    cases d with
    | true =>
      rw [(hl.done rfl).selected_nil,List.append_nil]
      exact hi
    | false =>
      obtain ⟨hcu,hurl,hk⟩ := hl.more rfl
      dsimp only at hcu hurl hk hi
      have hfin : ¬ Invalid (ffcueFinal c'.cu).2 := fun h => h.1 rfl
      obtain ⟨_,_,_,h,_⟩ := range_spec cf
        { c' with cu := (ffcueFinal c'.cu).1, nmeta := c'.metas.length } hfin true
      rw [← hi,← hk,← hurl,← hcu]
      exact h

theorem loop_append (c : Cue) (as bs : List CueEvent) :
    c.loop cf (as ++ bs) =
      match c.loop cf as with
      | (c, true) => (c, true)
      | (c, false) => c.loop cf bs := by
  induction as generalizing c with
  | nil => rfl
  | cons e as ih =>
    rw [List.cons_append,loop,loop]
    cases hx : c.event cf e with
    | mk c' d =>
      cases d with
      | true => rfl
      | false => exact ih c'

theorem calls_eq (c : Cue) (init : List (List CueEvent)) (last : List CueEvent) :
    c.calls cf init last = (c.process cf (init.flatten ++ last) true).1 := by
  induction init generalizing c with
  | nil => rfl
  | cons es init ih =>
    rw [calls,process,List.flatten_cons,List.append_assoc,process,loop_append]
    cases hx : c.loop cf es with
    | mk c' d =>
      cases d with
      | true => rfl
      | false => exact ih c'

end Cue

section Placed

variable (path : String → String) (cu : FfCue) (url : String)

theorem placed_append (as bs : List CueEvent) :
    placed path cu url (as ++ bs) = placed path cu url as ++
      placed path (indexRun cu as).1 (lastUrl path url as) bs := by
  induction as generalizing cu url with
  | nil => rfl
  | cons e as ih =>
    rw [List.cons_append,Cue.placed_cons,ih,Cue.placed_cons _ _ _ e as,List.append_assoc,
      Cue.lastUrl_cons _ _ e as]
    rfl

theorem lastUrl_append (as bs : List CueEvent) :
    lastUrl path url (as ++ bs) = lastUrl path (lastUrl path url as) bs := by
  induction as generalizing url with
  | nil => rfl
  | cons e as ih => rw [List.cons_append,Cue.lastUrl_cons,ih,Cue.lastUrl_cons _ _ e as]

theorem placed_under {es : List CueEvent} (h : ∀ e ∈ es, lastUrl path url [e] = url) :
    placed path cu url es = (indexRun cu es).2.map (url,·) ∧ lastUrl path url es = url := by
  induction es generalizing cu with
  | nil => exact ⟨rfl,rfl⟩
  | cons e es ih =>
    have he := h e List.mem_cons_self
    obtain ⟨hp,hu⟩ := ih (ffcueIndex cu e).1 fun x hx => h x (List.mem_cons_of_mem e hx)
    rw [Cue.placed_cons,Cue.lastUrl_cons _ _ e es,he,hp,hu,indexRun,List.map_append]
    exact ⟨rfl,rfl⟩

end Placed

namespace CueFile

variable (f : CueFile)

theorem ranges_eq (c : FfCue) (es : List CueEvent) :
    c.ranges es = (indexRun c es).2 ++ [(ffcueFinal (indexRun c es).1).2] := rfl

theorem indexRun_given (c : FfCue) : (indexRun c f.events).2 = (f.given c.options).dropLast := by
  rw [← ranges_given,ranges_eq,List.dropLast_concat]

theorem lastUrl_tag (path : String → String) (url : String) :
    (∀ t : CueTag, lastUrl path url [t.event] = url) ∧
      ∀ t : CueTag, lastUrl path url [t.globalEvent] = url :=
  ⟨fun t => by cases t <;> rfl,fun t => by cases t <;> rfl⟩

theorem placed_events (path : String → String) (cu : FfCue) (url : String) :
    placed path cu url f.events = (f.given cu.options).dropLast.map (path f.name,·) ∧
      lastUrl path url f.events = path f.name := by
  have hrest : ∀ e ∈ f.tags.map CueTag.globalEvent ++
      (f.track1 :: f.tracks).flatMap CueTrack.events, lastUrl path (path f.name) [e] = path f.name := by
    obtain ⟨htag,hglobal⟩ := lastUrl_tag path (path f.name)
    intro e he
    rcases List.mem_append.mp he with he | he
    · obtain ⟨t,_,rfl⟩ := List.mem_map.mp he
      exact hglobal t
    · obtain ⟨t,_,he⟩ := List.mem_flatMap.mp he
      simp only [CueTrack.events,CueTrack.pregap,List.mem_append,List.mem_cons,List.mem_map] at he
      rcases he with ((rfl | ⟨t,_,rfl⟩) | he) | rfl | ⟨l,_,rfl⟩
      · rfl
      · exact htag t
      · split at he
        · cases he
        · rcases List.mem_cons.mp he with rfl | he
          · rfl
          · obtain ⟨t,_,rfl⟩ := List.mem_map.mp he
            exact htag t
      · rfl
      · cases l with
        | tag t => exact htag t
        | index v => rfl
  obtain ⟨hp,hu⟩ := placed_under path (ffcueIndex cu (.file f.name)).1 (path f.name) hrest
  have hrun := f.indexRun_given cu
  simp only [events,List.cons_append,indexRun,ffcueIndex,Option.toList_none,List.nil_append] at hrun
  rw [events,List.cons_append,Cue.placed_cons,Cue.lastUrl_cons]
  refine ⟨?_,hu⟩
  rw [← hrun]
  exact hp

end CueFile

theorem ffcueIndex_options (c : FfCue) (e : CueEvent) : (ffcueIndex c e).1.options = c.options := by
  cases e <;> simp only [ffcueIndex] <;> split_ifs <;> rfl

theorem indexRun_options (c : FfCue) (es : List CueEvent) :
    (indexRun c es).1.options = c.options := by
  induction es generalizing c with
  | nil => rfl
  | cons e es ih => exact (ih _).trans (ffcueIndex_options c e)

namespace CueSheet

/-- The entries that the sheet gives: of every FILE but the last one the last track is missing. -/
def givenFrom (path : String → String) (g : CueGap) (f : CueFile) :
    List CueFile → List (Option String × Nat × Nat)
  | [] => (f.given g).map (FfCueTrk.place (path f.name))
  | f' :: fs => (f.given g).dropLast.map (FfCueTrk.place (path f.name)) ++ givenFrom path g f' fs

theorem placed_files (path : String → String) (cu : FfCue) (url : String) (f : CueFile)
    (fs : List CueFile) :
    (placed path cu url ((f :: fs).flatMap CueFile.events)).map (fun x => x.2.place x.1) ++
        [(ffcueFinal (indexRun cu ((f :: fs).flatMap CueFile.events)).1).2.place
          (lastUrl path url ((f :: fs).flatMap CueFile.events))] =
      givenFrom path cu.options f fs := by
  induction fs generalizing cu url f with
  | nil =>
    have hr := f.ranges_given cu
    rw [CueFile.ranges_eq,f.indexRun_given] at hr
    obtain ⟨hp,hu⟩ := f.placed_events path cu url
    rw [List.flatMap_cons,List.flatMap_nil,List.append_nil,hp,hu,givenFrom,List.map_map]
    exact (List.map_append ..).symm.trans (congrArg _ hr)
  | cons f' fs ih =>
    obtain ⟨hp,hu⟩ := f.placed_events path cu url
    have hi := ih (indexRun cu f.events).1 (path f.name) f'
    rw [indexRun_options] at hi
    rw [List.flatMap_cons,placed_append,lastUrl_append,indexRun_append,hp,hu,givenFrom,← hi,
      List.map_append,List.map_map,List.append_assoc]
    rfl

theorem placed_valid (path : String → String) (cu : FfCue) (url : String) (fs : List CueFile) :
    ∀ x ∈ placed path cu url (fs.flatMap CueFile.events), ¬ Cue.Invalid x.2 := by
  induction fs generalizing cu url with
  | nil => simp [placed]
  | cons f fs ih =>
    intro x hx
    rw [List.flatMap_cons,placed_append,(f.placed_events path cu url).1] at hx
    rcases List.mem_append.mp hx with hx | hx
    · obtain ⟨r,hr,rfl⟩ := List.mem_map.mp hx
      exact fun h => UInt32.not_le.mpr (f.given_lt _ r hr) h.2
    · exact ih _ _ x hx

variable {path : String → String} {g : CueGap}

theorem place_injective (url : String) : Function.Injective (FfCueTrk.place url) := by
  intro a b h
  obtain ⟨x,y⟩ := a
  obtain ⟨z,w⟩ := b
  simp only [FfCueTrk.place,Prod.mk.injEq,UInt32.toNat_inj] at h
  rw [h.2.1,h.2.2]

theorem givenFrom_end {f : CueFile} {fs : List CueFile} {x : Option String × Nat × Nat}
    {xs : List (Option String × Nat × Nat)} (h : givenFrom path g f fs = x :: xs)
    (hx : x.2.2 = 0) : xs = [] := by
  have hlt : ∀ (f : CueFile) (r : FfCueTrk) (rs : List FfCueTrk),
      (f.given g).dropLast = r :: rs → r.to_.toNat ≠ 0 := by
    intro f r rs hr h0
    have hlt := UInt32.lt_iff_toNat_lt.mp (f.given_lt g r (by rw [hr]; exact List.mem_cons_self))
    omega
  induction fs generalizing f with
  | nil =>
    obtain ⟨r,rs,hg,rfl,hrs⟩ := List.map_eq_cons_iff.mp h
    cases rs with
    | nil => exact hrs.symm
    | cons r' rs =>
      refine absurd hx (hlt f r (r' :: rs).dropLast ?_)
      rw [hg,List.dropLast_cons_of_ne_nil (List.cons_ne_nil _ _)]
  | cons f' fs ih =>
    rw [givenFrom] at h
    cases hd : (f.given g).dropLast with
    | nil =>
      rw [hd] at h
      exact ih h
    | cons r rs =>
      rw [hd] at h
      have hxr : x = r.place (path f.name) := (List.cons.inj h).1.symm
      rw [hxr] at hx
      exact absurd hx (hlt f r rs hd)

theorem documented_ne_nil (f : CueFile) : f.documented g ≠ [] := documentedFrom_ne_nil _ _ _

theorem documentedFrom_getLast (v : UInt32) (ts : List CueTrack) :
    ((documentedFrom g v ts).getLast (documentedFrom_ne_nil g v ts)).to_ = 0 := by
  induction ts generalizing v with
  | nil => rfl
  | cons t ts ih =>
    simp only [documentedFrom,List.getLast_cons (documentedFrom_ne_nil g _ ts)]
    exact ih _

/-- The sheet gives what it asks for if it has one FILE, and no INDEX above 01 in its first track. -/
theorem givenFrom_eq_wanted (s : CueSheet) :
    givenFrom path g s.file1 s.files = s.wanted path g ↔
      s.file1.track1.further = [] ∧ s.files = [] := by
  obtain ⟨tags,f,fs⟩ := s
  dsimp only [wanted]
  rw [List.flatMap_cons]
  constructor
  · intro h
    have hfirst : f.track1.further = [] := by
      by_contra hne
      obtain ⟨x,xs,hx⟩ := List.exists_cons_of_ne_nil hne
      obtain ⟨r,rs,hr⟩ := List.exists_cons_of_ne_nil (documented_ne_nil (g := g) f)
      have hhead : ∃ ys, givenFrom path g f fs =
          FfCueTrk.place (path f.name) ⟨f.track1.startsFirst g,x⟩ :: ys := by
        cases fs <;> rw [givenFrom,CueFile.given,hx]
        case nil => exact ⟨_,rfl⟩
        case cons =>
          dsimp only
          rw [List.dropLast_cons_of_ne_nil (documentedFrom_ne_nil _ _ _)]
          exact ⟨_,rfl⟩
      obtain ⟨ys,hys⟩ := hhead
      rw [hys,hr] at h
      have hrx := place_injective _ (List.cons.inj h).1
      exact f.documented_ne (by rw [hx]; exact List.mem_cons_self) rs (by rw [hrx,hr])
    refine ⟨hfirst,?_⟩
    cases fs with
    | nil => rfl
    | cons f' fs =>
      -- the entry of the last track of `f` is missing, and only the last entry has no end
      rw [givenFrom,f.given_eq_documented.mpr hfirst] at h
      have hd := List.dropLast_append_getLast (documented_ne_nil (g := g) f)
      rw [← hd,List.dropLast_concat,List.map_append,List.append_assoc] at h
      have htail : (f' :: fs).flatMap
          (fun f => (f.documented g).map (FfCueTrk.place (path f.name))) = [] :=
        givenFrom_end (List.append_cancel_left h)
          (congrArg UInt32.toNat (documentedFrom_getLast _ _))
      rw [List.flatMap_cons] at htail
      exact absurd (List.map_eq_nil_iff.mp (List.append_eq_nil_iff.mp htail).1)
        (documented_ne_nil f')
  · rintro ⟨hfirst,rfl⟩
    rw [givenFrom,f.given_eq_documented.mpr hfirst]
    exact (List.append_nil _).symm

/-- The number of TRACK blocks. -/
def numTracks (s : CueSheet) : Nat :=
  ((s.file1 :: s.files).map fun f => f.tracks.length + 1).sum

/-- The number of FILE sections whose first track has an INDEX above 01. -/
def numSplit (s : CueSheet) : Nat :=
  ((s.file1 :: s.files).map fun f => if f.track1.further = [] then 0 else 1).sum

/-- The tracks before the first one that the sheet gives no or another entry for. -/
def numSound (s : CueSheet) : Nat :=
  if s.file1.track1.further = [] then s.file1.tracks.length else 0

/-- One FILE without an INDEX above 01 in its first track; or a list of numbers that leaves out all
the tracks from the first one that is missing or split. -/
def Sound (s : CueSheet) (ts : List Nat) : Prop :=
  (s.file1.track1.further = [] ∧ s.files = []) ∨
    (ts ≠ [] ∧ ∀ k ∈ ts, k ≤ s.numSound ∨
      (s.numTracks < k ∧ s.numTracks + s.numSplit < k + s.files.length))

theorem documentedFrom_length (v : UInt32) (ts : List CueTrack) :
    (documentedFrom g v ts).length = ts.length + 1 := by
  induction ts generalizing v with
  | nil => rfl
  | cons t ts ih => rw [documentedFrom,List.length_cons,ih,List.length_cons]

theorem given_length (f : CueFile) :
    (f.given g).length = f.tracks.length + 1 + if f.track1.further = [] then 0 else 1 := by
  unfold CueFile.given
  cases hx : f.track1.further with
  | nil => exact documentedFrom_length _ _
  | cons x xs =>
    rw [if_neg (List.cons_ne_nil x xs),List.length_cons,documentedFrom_length]

theorem givenFrom_length (path : String → String) (g : CueGap) (f : CueFile) (fs : List CueFile) :
    (givenFrom path g f fs).length + fs.length =
      ((f :: fs).map fun f => f.tracks.length + 1).sum +
        ((f :: fs).map fun f => if f.track1.further = [] then 0 else 1).sum := by
  induction fs generalizing f with
  | nil => simp [givenFrom,given_length]
  | cons f' fs ih =>
    have hi := ih f'
    have hg := given_length (g := g) f
    simp only [List.map_cons,List.sum_cons] at hi ⊢
    simp only [givenFrom,List.length_append,List.length_map,List.length_dropLast,List.length_cons]
    omega

theorem wanted_length (path : String → String) (g : CueGap) (s : CueSheet) :
    (s.wanted path g).length = s.numTracks := by
  simp only [wanted,numTracks,List.length_flatMap,List.length_map]
  exact congrArg List.sum (List.map_congr_left fun f _ => documentedFrom_length _ _)

theorem common_prefix (path : String → String) (g : CueGap) (s : CueSheet) : ∃ ps xs ys, ps.length = s.numSound ∧
    givenFrom path g s.file1 s.files = ps ++ xs ∧ s.wanted path g = ps ++ ys := by
  obtain ⟨tags,f,fs⟩ := s
  unfold numSound
  dsimp only
  split_ifs with hfirst
  case neg => exact ⟨[],_,_,rfl,rfl,rfl⟩
  obtain ⟨ds,d,hd⟩ : ∃ ds d, f.documented g = ds ++ [d] :=
    ⟨_,_,(List.dropLast_append_getLast (documented_ne_nil f)).symm⟩
  have hlen : (ds.map (FfCueTrk.place (path f.name))).length = f.tracks.length := by
    have := documentedFrom_length (g := g) (f.track1.startsFirst g) f.tracks
    rw [← CueFile.documented,hd,List.length_append,List.length_singleton] at this
    rw [List.length_map]
    omega
  refine ⟨ds.map (FfCueTrk.place (path f.name)),?_⟩
  rw [wanted,List.flatMap_cons,hd,List.map_append,List.append_assoc]
  cases fs with
  | nil =>
    rw [givenFrom,f.given_eq_documented.mpr hfirst,hd,List.map_append]
    exact ⟨_,_,hlen,rfl,rfl⟩
  | cons f' fs =>
    rw [givenFrom,f.given_eq_documented.mpr hfirst,hd,List.dropLast_concat]
    exact ⟨_,_,hlen,rfl,rfl⟩

theorem selected_of_sound {s : CueSheet} {ts : List Nat} (h : s.Sound ts) :
    selected ts 0 (givenFrom path g s.file1 s.files) = selected ts 0 (s.wanted path g) := by
  rcases h with h | ⟨hts,h⟩
  · rw [s.givenFrom_eq_wanted.mpr h]
  · obtain ⟨ps,xs,ys,hps,hx,hy⟩ := s.common_prefix path g
    have hxs := givenFrom_length path g s.file1 s.files
    have hys := s.wanted_length path g
    have hsum : (givenFrom path g s.file1 s.files).length + s.files.length =
      s.numTracks + s.numSplit := hxs
    rw [hx,List.length_append] at hsum
    rw [hy,List.length_append] at hys
    have hcut : ∀ zs : List (Option String × Nat × Nat),
        (∀ k ∈ ts, k ≤ ps.length ∨ ps.length + zs.length < k) →
        selected ts 0 (ps ++ zs) = selected ts 0 ps := by
      intro zs hz
      have hnil : selected ts (0 + ps.length) zs = [] :=
        selected_eq_nil hts (by rw [Nat.zero_add]; exact hz)
      rw [selected_append,hnil,List.append_nil]
    rw [hx,hy,hcut xs,hcut ys]
    all_goals
      intro k hk
      have := h k hk
      omega

theorem inserted_given (s : CueSheet) (cf : CueConf) (h : Nat) (init : List (List CueEvent))
    (last : List CueEvent) (hs : init.flatten ++ last = s.events) :
    (((Cue.init g h).calls cf init last).inserted.map CueEntry.place) =
      selected cf.listed 0 (givenFrom cf.path g s.file1 s.files) := by
  have htags : ∀ e ∈ s.tags.map CueTag.globalEvent, lastUrl cf.path "" [e] = "" := by
    intro e he
    obtain ⟨t,_,rfl⟩ := List.mem_map.mp he
    exact (CueFile.lastUrl_tag cf.path "").2 t
  have hp : ∀ (c : FfCue) es, placed cf.path c "" (s.tags.map CueTag.globalEvent ++ es) =
      placed cf.path c "" es := by
    intro c es
    obtain ⟨hp,hu⟩ := placed_under cf.path c "" htags
    rw [placed_append,hp,hu,indexRun_globalTags]
    rfl
  have hurl : (Cue.init g h).url = "" := rfl
  rw [Cue.calls_eq,hs,events,Cue.process_spec,hurl,hp,indexRun_append,lastUrl_append,
    indexRun_globalTags,(placed_under cf.path (Cue.init g h).cu "" htags).2]
  · exact congrArg (selected cf.listed 0) (placed_files cf.path (Cue.init g h).cu "" s.file1 s.files)
  · rw [hurl,hp]
    exact placed_valid _ _ _ _

/-- The entries of a sheet are those it asks for, or the selected ones of them, if the sheet is sound
for the list; and without a list only then. -/
theorem inserted_wanted (s : CueSheet) (cf : CueConf) (g : CueGap) (h : Nat)
    (init : List (List CueEvent)) (last : List CueEvent) (hs : init.flatten ++ last = s.events) :
    (s.Sound cf.listed → ((Cue.init g h).calls cf init last).inserted.map CueEntry.place =
      selected cf.listed 0 (s.wanted cf.path g)) ∧
    (cf.listed = [] → ((Cue.init g h).calls cf init last).inserted.map CueEntry.place =
      selected cf.listed 0 (s.wanted cf.path g) → s.Sound cf.listed) := by
  rw [s.inserted_given cf h init last hs]
  refine ⟨selected_of_sound,fun hl heq => ?_⟩
  rw [hl,selected_nil_left,selected_nil_left] at heq
  exact .inl (s.givenFrom_eq_wanted.mp heq)

/-- A search from the front. -/
def frontFind : BinFind where
  find := fun l v => l.findIdx? (· == v)
  found := fun l v n h => by
    obtain ⟨hn,hv,_⟩ := List.findIdx?_eq_some_iff_getElem.mp h
    exact List.getElem?_eq_some_iff.mpr ⟨hn,by simpa using hv⟩
  absent := fun l v _ h hm => by
    have := List.findIdx?_eq_none_iff.mp h v hm
    simp at this

/-- The configuration of a sheet that is opened with the given track numbers. -/
def openedWith (ts : List Nat) : CueConf where
  conf := { (default : TrackConf) with tracks := some ⟨0,ts⟩ }
  path := id
  search := frontFind

/-- One FILE with two tracks. -/
def oneFile : CueSheet where
  tags := [.performer "Artist"]
  file1 :=
    { name := "a.wav"
      tags := []
      track1 := ⟨"01",[.title "T1"],none,0,[]⟩
      tracks := [⟨"02",[],some (150,[.title "T2"]),225,[.index 300]⟩]
      increasing := by decide }
  files := []

/-- The second track is selected and the sheet comes in two chunks. -/
theorem inserted_wanted_second :
    ((Cue.init .curr 1).calls (openedWith [2]) [oneFile.events.take 5]
      (oneFile.events.drop 5)).inserted.map CueEntry.place = [(some "a.wav", 150, 0)] :=
  ((oneFile.inserted_wanted (openedWith [2]) .curr 1 [oneFile.events.take 5]
    (oneFile.events.drop 5) (by decide +kernel)).1 (.inl ⟨rfl,rfl⟩)).trans (by decide +kernel)

/-- Two FILE sections with one track each. -/
def twoFiles : CueSheet where
  tags := []
  file1 := ⟨"a.wav",[],⟨"01",[.title "T1"],none,0,[]⟩,[],by decide⟩
  files := [⟨"b.wav",[],⟨"02",[.title "T2"],none,0,[]⟩,[],by decide⟩]

/-- The track of the first FILE is lost. -/
theorem inserted_wanted_lost :
    ((Cue.init .prev 1).calls (openedWith []) [] twoFiles.events).inserted.map CueEntry.place =
        [(some "b.wav", 0, 0)] ∧
      selected (openedWith []).listed 0 (twoFiles.wanted id .prev) =
        [(some "a.wav", 0, 0),(some "b.wav", 0, 0)] ∧
      ((Cue.init .prev 1).calls (openedWith []) [] twoFiles.events).inserted.map CueEntry.place ≠
        selected (openedWith []).listed 0 (twoFiles.wanted id .prev) :=
  ⟨by decide +kernel,by decide +kernel,by decide +kernel⟩

end CueSheet

end Phiola
