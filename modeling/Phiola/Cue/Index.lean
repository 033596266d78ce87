import Mathlib.Data.List.Basic
import Mathlib.Data.UInt

/-!
# The INDEX lines of a cue sheet

The range of a track is known only when an index of the next track is read. `ffcue_index()` keeps
what it needs for this in one record, for the four ways of dealing with pre-gaps. Times are in CD
frames, 75 a second.
-/

namespace Phiola

/-- `enum PHI_CUE_GAP` -/
inductive CueGap
  | prev
  | prev1
  | curr
  | skip
  deriving DecidableEq, Repr

/-- What `cueread` yields: a parse error, the lines outside of a TRACK block and those in one. A REM
line is yielded as its name and its value. -/
inductive CueEvent
  | warn
  | title (val : String)
  | performer (val : String)
  | rem (name val : String)
  | file (name : String)
  | trkNum (val : String)
  | trkTitle (val : String)
  | trkPerformer (val : String)
  | trkIndex00 (val : UInt32)
  | trkIndex (val : UInt32)
  deriving DecidableEq, Repr

/-- `struct ffcuetrk`; `to_` is 0 for the last track. -/
structure FfCueTrk where
  from_ : UInt32
  to_ : UInt32
  deriving DecidableEq, Repr

/-- `(uint)-1` -/
def unset : UInt32 := 0xFFFFFFFF

/-- `struct ffcue` -/
structure FfCue where
  options : CueGap
  from_ : UInt32
  trk : FfCueTrk
  first : Bool
  next : Bool
  deriving DecidableEq, Repr

/-- `ffcue_index()` -/
def ffcueIndex (c : FfCue) : CueEvent → FfCue × Option FfCueTrk
  | .file _ => ({ c with from_ := unset, first := true }, none)
  | .trkNum _ => ({ c with trk := ⟨unset,unset⟩, next := false }, none)
  | .trkIndex00 val =>
    if c.first then
      if c.options = .prev1 ∨ c.options = .curr then ({ c with from_ := val }, none) else (c, none)
    else if c.options = .skip then ({ c with trk := { c.trk with to_ := val } }, none)
    else if c.options = .curr then ({ c with trk := ⟨c.from_,val⟩, from_ := val }, none)
    else (c, none)
  | .trkIndex val =>
    if c.first then
      ({ c with first := false, from_ := if c.from_ = unset then val else c.from_ }, none)
    else if c.next then (c, none) -- INDEX nn after INDEX 01
    else
      let c := if c.trk.from_ = unset then
          { c with trk := { c.trk with from_ := c.from_ }, from_ := val }
        else c
      let c := if c.trk.to_ = unset then { c with trk := { c.trk with to_ := val } } else c
      ({ c with next := true }, some c.trk)
  | _ => (c, none)

/-- `ffcue_index()` at the end of the sheet, with 0xa11. -/
def ffcueFinal (c : FfCue) : FfCue × FfCueTrk :=
  ({ c with trk := ⟨c.from_,0⟩ }, ⟨c.from_,0⟩)

/-- The ranges that `ffcue_index()` gives for a list of events, and the state after them. -/
def indexRun (c : FfCue) : List CueEvent → FfCue × List FfCueTrk
  | [] => (c, [])
  | e :: es =>
    let p := ffcueIndex c e
    let q := indexRun p.1 es
    (q.1, p.2.toList ++ q.2)

/-- All the ranges for a list of events that is the end of the sheet. -/
def FfCue.ranges (c : FfCue) (es : List CueEvent) : List FfCueTrk :=
  (indexRun c es).2 ++ [(ffcueFinal (indexRun c es).1).2]

/-- A TITLE, PERFORMER or REM line. -/
inductive CueTag
  | title (val : String)
  | performer (val : String)
  | rem (name val : String)
  deriving DecidableEq, Repr

/-- The line in a TRACK block. -/
def CueTag.event : CueTag → CueEvent
  | .title v => .trkTitle v
  | .performer v => .trkPerformer v
  | .rem n v => .rem n v

/-- The line outside of a TRACK block. -/
def CueTag.globalEvent : CueTag → CueEvent
  | .title v => .title v
  | .performer v => .performer v
  | .rem n v => .rem n v

/-- What may follow INDEX 01: tags, and INDEX nn above 01. -/
inductive CueLine
  | tag (t : CueTag)
  | index (val : UInt32)
  deriving DecidableEq, Repr

namespace CueLine

def event : CueLine → CueEvent
  | .tag t => t.event
  | .index v => .trkIndex v

def time? : CueLine → Option UInt32
  | .tag _ => none
  | .index v => some v

end CueLine

/-- A TRACK block: its number, the tags before its first index, INDEX 00 and the tags after it if
there is one, INDEX 01 and the lines after it. -/
structure CueTrack where
  num : String
  tags : List CueTag
  index00 : Option (UInt32 × List CueTag)
  index01 : UInt32
  more : List CueLine
  deriving DecidableEq, Repr

namespace CueTrack

/-- INDEX nn above 01 -/
def further (t : CueTrack) : List UInt32 := t.more.filterMap CueLine.time?

def times (t : CueTrack) : List UInt32 := (t.index00.map Prod.fst).toList ++ t.index01 :: t.further

def pregap (t : CueTrack) : List CueEvent :=
  match t.index00 with
  | none => []
  | some (v, tags) => .trkIndex00 v :: tags.map CueTag.event

def events (t : CueTrack) : List CueEvent :=
  .trkNum t.num :: t.tags.map CueTag.event ++ t.pregap ++
    .trkIndex t.index01 :: t.more.map CueLine.event

/-- INDEX 00, or INDEX 01 if it is absent. -/
def index0 (t : CueTrack) : UInt32 := ((t.index00.map Prod.fst).getD t.index01)

/-- Where a track starts that is not the first one. -/
def starts (g : CueGap) (t : CueTrack) : UInt32 :=
  match g with
  | .prev => t.index01
  | .prev1 => t.index01
  | .curr => t.index0
  | .skip => t.index01

/-- Where track 1 starts. -/
def startsFirst (g : CueGap) (t : CueTrack) : UInt32 :=
  match g with
  | .prev => t.index01
  | .prev1 => t.index0
  | .curr => t.index0
  | .skip => t.index01

/-- Where the track before this one ends. -/
def stops (g : CueGap) (t : CueTrack) : UInt32 :=
  match g with
  | .prev => t.index01
  | .prev1 => t.index01
  | .curr => t.index0
  | .skip => t.index0

end CueTrack

/-- The documented ranges of a track that starts at `v` and of the tracks after it. -/
def documentedFrom (g : CueGap) (v : UInt32) : List CueTrack → List FfCueTrk
  | [] => [⟨v,0⟩]
  | t :: ts => ⟨v,t.stops g⟩ :: documentedFrom g (t.starts g) ts

/-- A FILE section: its name, the tags before its first TRACK and its tracks. -/
structure CueFile where
  name : String
  tags : List CueTag
  track1 : CueTrack
  tracks : List CueTrack
  increasing : ((track1 :: tracks).flatMap CueTrack.times).Pairwise (· < ·)

namespace CueFile

def events (f : CueFile) : List CueEvent :=
  .file f.name :: f.tags.map CueTag.globalEvent ++ (f.track1 :: f.tracks).flatMap CueTrack.events

/-- The ranges that `enum PHI_CUE_GAP` documents. -/
def documented (g : CueGap) (f : CueFile) : List FfCueTrk :=
  documentedFrom g (f.track1.startsFirst g) f.tracks

end CueFile

theorem indexRun_append (c : FfCue) (as bs : List CueEvent) :
    indexRun c (as ++ bs) =
      ((indexRun (indexRun c as).1 bs).1, (indexRun c as).2 ++ (indexRun (indexRun c as).1 bs).2) := by
  induction as generalizing c with
  | nil => rfl
  | cons e as ih => simp only [List.cons_append,indexRun,ih,List.append_assoc]

/-- Events that `ffcue_index()` has no case for. -/
theorem indexRun_ignored {c : FfCue} {es : List CueEvent}
    (h : ∀ e ∈ es, ffcueIndex c e = (c, none)) : indexRun c es = (c, []) := by
  induction es with
  | nil => rfl
  | cons e es ih =>
    have hes := ih fun e he => h e (List.mem_cons_of_mem _ he)
    simp only [indexRun,h e List.mem_cons_self,hes,Option.toList_none,List.nil_append]

theorem indexRun_tags (c : FfCue) (ts : List CueTag) :
    indexRun c (ts.map CueTag.event) = (c, []) := by
  apply indexRun_ignored
  intro e he
  obtain ⟨t,_,rfl⟩ := List.mem_map.mp he
  cases t <;> rfl

theorem indexRun_globalTags (c : FfCue) (ts : List CueTag) :
    indexRun c (ts.map CueTag.globalEvent) = (c, []) := by
  apply indexRun_ignored
  intro e he
  obtain ⟨t,_,rfl⟩ := List.mem_map.mp he
  cases t <;> rfl

/-- After INDEX 01 of a track that is not the first one nothing changes up to the next TRACK. -/
theorem indexRun_more {c : FfCue} (hf : c.first = false) (hn : c.next = true) (ls : List CueLine) :
    indexRun c (ls.map CueLine.event) = (c, []) := by
  apply indexRun_ignored
  intro e he
  obtain ⟨l,_,rfl⟩ := List.mem_map.mp he
  rcases l with (_ | _ | _) | v
  case index => simp [CueLine.event,ffcueIndex,hf,hn]
  all_goals rfl

theorem indexRun_pregap (c : FfCue) (t : CueTrack) :
    indexRun c t.pregap =
      (match t.index00 with
        | none => c
        | some (v, _) => (ffcueIndex c (.trkIndex00 v)).1, []) := by
  unfold CueTrack.pregap
  cases t.index00 with
  | none => rfl
  | some p =>
    have h : (ffcueIndex c (.trkIndex00 p.1)).2 = none := by
      simp only [ffcueIndex]
      split_ifs <;> rfl
    simp only [indexRun,indexRun_tags,h,Option.toList_none,List.append_nil]

theorem indexRun_block (c : FfCue) (t : CueTrack) :
    indexRun c t.events =
      indexRun (indexRun (ffcueIndex c (.trkNum t.num)).1 t.pregap).1
        (.trkIndex t.index01 :: t.more.map CueLine.event) := by
  have hp : ∀ c, (indexRun c t.pregap).2 = [] := fun c => by rw [indexRun_pregap]
  simp only [CueTrack.events,List.cons_append,List.append_assoc]
  rw [indexRun,indexRun_append,indexRun_append,indexRun_tags,hp]
  rfl

/-- A track that is not the first one: its INDEX 01 gives the range of the track before it. -/
theorem indexRun_track {c : FfCue} {t : CueTrack} (hf : c.first = false) (hv : c.from_ ≠ unset)
    (h0 : ∀ p ∈ t.index00, p.1 ≠ unset) :
    ∃ c', indexRun c t.events = (c', [⟨c.from_,t.stops c.options⟩]) ∧ c'.options = c.options ∧
      c'.first = false ∧ c'.from_ = t.starts c.options := by
  rw [indexRun_block,indexRun_pregap]
  obtain ⟨g,v,r,first,next⟩ := c
  subst hf
  cases hi : t.index00 with
  | none =>
    refine ⟨⟨g,t.index01,⟨v,t.index01⟩,false,true⟩,?_,rfl,rfl,?_⟩
    · rw [indexRun,indexRun_more (by simp [ffcueIndex]) (by simp [ffcueIndex])]
      cases g <;> simp [ffcueIndex,CueTrack.stops,CueTrack.index0,hi]
    · cases g <;> simp [CueTrack.starts,CueTrack.index0,hi]
  | some p =>
    have hp := h0 p hi
    refine ⟨⟨g,t.starts g,⟨v,t.stops g⟩,false,true⟩,?_,rfl,rfl,rfl⟩
    rw [indexRun,indexRun_more]
    all_goals cases g <;> simp_all [ffcueIndex,CueTrack.stops,CueTrack.starts,CueTrack.index0]

theorem ranges_append (c : FfCue) (as bs : List CueEvent) :
    c.ranges (as ++ bs) = (indexRun c as).2 ++ (indexRun c as).1.ranges bs := by
  simp only [FfCue.ranges,indexRun_append,List.append_assoc]

theorem indexRun_block1 {c : FfCue} {t : CueTrack} (hf : c.first = true) (hv : c.from_ = unset)
    (h0 : ∀ p ∈ t.index00, p.1 ≠ unset) :
    indexRun c t.events = indexRun ⟨c.options,t.startsFirst c.options,⟨unset,unset⟩,false,false⟩
      (t.more.map CueLine.event) := by
  rw [indexRun_block,indexRun_pregap]
  obtain ⟨g,v,r,first,next⟩ := c
  subst hf hv
  cases hi : t.index00 with
  | none => cases g <;> simp [indexRun,ffcueIndex,CueTrack.startsFirst,CueTrack.index0,hi]
  | some p =>
    have hp := h0 p hi
    cases g <;> simp [indexRun,ffcueIndex,CueTrack.startsFirst,CueTrack.index0,hi,hp]

/-- If the first track has no further index, nothing follows up to the next TRACK. -/
theorem indexRun_more_tags {c : FfCue} {ls : List CueLine}
    (h : ls.filterMap CueLine.time? = []) : indexRun c (ls.map CueLine.event) = (c, []) := by
  apply indexRun_ignored
  intro e he
  obtain ⟨l,hl,rfl⟩ := List.mem_map.mp he
  have ht := List.filterMap_eq_nil_iff.mp h l hl
  rcases l with (_ | _ | _) | v
  case index => cases ht
  all_goals rfl

/-- A further index of the first track gives a range that ends there. -/
theorem indexRun_more_index {c : FfCue} {ls : List CueLine} {x : UInt32} {xs : List UInt32}
    (hf : c.first = false) (hn : c.next = false) (hr : c.trk = ⟨unset,unset⟩)
    (h : ls.filterMap CueLine.time? = x :: xs) :
    indexRun c (ls.map CueLine.event) =
      (⟨c.options,x,⟨c.from_,x⟩,false,true⟩, [⟨c.from_,x⟩]) := by
  induction ls with
  | nil => cases h
  | cons l ls ih =>
    cases l with
    | tag t =>
      have ht : ffcueIndex c t.event = (c, none) := by cases t <;> rfl
      simp only [List.map_cons,indexRun,CueLine.event,ht,ih h]
      rfl
    | index v =>
      have hvx : v = x := (List.cons.inj h).1
      subst hvx
      have hi : ffcueIndex c (.trkIndex v) =
          (⟨c.options,v,⟨c.from_,v⟩,false,true⟩, some ⟨c.from_,v⟩) := by
        simp [ffcueIndex,hf,hn,hr]
      simp only [List.map_cons,indexRun,CueLine.event,hi,indexRun_more]
      rfl

theorem ne_unset {x y : UInt32} (h : x < y) : x ≠ unset := by
  intro he
  have hlt := UInt32.lt_iff_toNat_lt.mp h
  have hy := y.toNat_lt
  have hu : unset.toNat = 4294967295 := by decide
  rw [he] at hlt
  omega

theorem ne_zero_of_lt {x y : UInt32} (h : x < y) : y ≠ 0 := by
  intro he
  have hlt := UInt32.lt_iff_toNat_lt.mp h
  rw [he] at hlt
  exact absurd hlt (Nat.not_lt_zero _)

namespace CueTrack

theorem index01_mem (t : CueTrack) : t.index01 ∈ t.times := by simp [times]

theorem index0_mem (t : CueTrack) : t.index0 ∈ t.times := by
  unfold times index0
  cases t.index00 <;> simp

theorem starts_mem (g : CueGap) (t : CueTrack) : t.starts g ∈ t.times := by
  cases g
  case curr => exact t.index0_mem
  all_goals exact t.index01_mem

theorem startsFirst_mem (g : CueGap) (t : CueTrack) : t.startsFirst g ∈ t.times := by
  cases g
  case prev => exact t.index01_mem
  case skip => exact t.index01_mem
  all_goals exact t.index0_mem

theorem stops_mem (g : CueGap) (t : CueTrack) : t.stops g ∈ t.times := by
  cases g
  case prev => exact t.index01_mem
  case prev1 => exact t.index01_mem
  all_goals exact t.index0_mem

theorem further_mem {t : CueTrack} {x : UInt32} (h : x ∈ t.further) : x ∈ t.times := by
  simp [times,h]

theorem index00_ne_unset {t : CueTrack} (h : t.times.Pairwise (· < ·)) :
    ∀ p ∈ t.index00, p.1 ≠ unset := by
  intro p hp
  rw [Option.mem_def] at hp
  simp only [times,hp,Option.map_some,Option.toList_some,List.singleton_append] at h
  exact ne_unset (List.rel_of_pairwise_cons h List.mem_cons_self)

end CueTrack

/-- The tracks after the first one, from the time at which the first one starts. -/
theorem ranges_tracks {c : FfCue} {ts : List CueTrack} (hf : c.first = false)
    (hinc : (c.from_ :: ts.flatMap CueTrack.times).Pairwise (· < ·)) :
    c.ranges (ts.flatMap CueTrack.events) = documentedFrom c.options c.from_ ts := by
  induction ts generalizing c with
  | nil => rfl
  | cons t ts ih =>
    obtain ⟨hlt,hinc⟩ := List.pairwise_cons.mp hinc
    rw [List.flatMap_cons] at hlt hinc
    obtain ⟨ht,hts,hsep⟩ := List.pairwise_append.mp hinc
    have hv : c.from_ ≠ unset := ne_unset (hlt t.index01 (List.mem_append_left _ t.index01_mem))
    obtain ⟨c',hrun,hg,hf',hv'⟩ := indexRun_track hf hv (CueTrack.index00_ne_unset ht)
    rw [List.flatMap_cons,ranges_append,hrun,ih hf',hg,hv']
    · rfl
    · rw [hv']
      exact List.pairwise_cons.mpr ⟨hsep _ (t.starts_mem _),hts⟩

theorem documentedFrom_ne_nil (g : CueGap) (v : UInt32) (ts : List CueTrack) :
    documentedFrom g v ts ≠ [] := by
  cases ts <;> simp [documentedFrom]

theorem documentedFrom_lt {g : CueGap} {v : UInt32} {ts : List CueTrack}
    (hinc : (v :: ts.flatMap CueTrack.times).Pairwise (· < ·)) :
    ∀ r ∈ (documentedFrom g v ts).dropLast, r.from_ < r.to_ := by
  induction ts generalizing v with
  | nil => simp [documentedFrom]
  | cons t ts ih =>
    obtain ⟨hlt,hinc⟩ := List.pairwise_cons.mp hinc
    rw [List.flatMap_cons] at hlt hinc
    obtain ⟨_,hts,hsep⟩ := List.pairwise_append.mp hinc
    intro r hr
    rw [documentedFrom,List.dropLast_cons_of_ne_nil (documentedFrom_ne_nil _ _ _)] at hr
    rcases List.mem_cons.mp hr with rfl | hr
    · exact hlt _ (List.mem_append_left _ (t.stops_mem g))
    · exact ih (List.pairwise_cons.mpr ⟨hsep _ (t.starts_mem _),hts⟩) r hr

namespace CueFile

variable (f : CueFile)

theorem times_pairwise : f.track1.times.Pairwise (· < ·) := by
  have h := f.increasing
  rw [List.flatMap_cons] at h
  exact (List.pairwise_append.mp h).1

theorem before_tracks {x : UInt32} (hx : x ∈ f.track1.times) :
    (x :: f.tracks.flatMap CueTrack.times).Pairwise (· < ·) := by
  have h := f.increasing
  rw [List.flatMap_cons] at h
  obtain ⟨_,hts,hsep⟩ := List.pairwise_append.mp h
  exact List.pairwise_cons.mpr ⟨hsep x hx,hts⟩

/-- The record where the first track has its INDEX 01. -/
def indexed (g : CueGap) : FfCue := ⟨g,f.track1.startsFirst g,⟨unset,unset⟩,false,false⟩

theorem indexRun_events (c : FfCue) :
    indexRun c f.events =
      indexRun (f.indexed c.options)
        (f.track1.more.map CueLine.event ++ f.tracks.flatMap CueTrack.events) := by
  have hfile : indexRun c (.file f.name :: f.tags.map CueTag.globalEvent) =
      ({ c with from_ := unset, first := true }, []) := by
    rw [indexRun,indexRun_globalTags]
    rfl
  rw [events,List.flatMap_cons,indexRun_append,hfile,indexRun_append,
    indexRun_block1 rfl rfl (CueTrack.index00_ne_unset f.times_pairwise),indexRun_append]
  rfl

theorem ranges_events (c : FfCue) :
    c.ranges f.events =
      (indexRun (f.indexed c.options) (f.track1.more.map CueLine.event)).2 ++
        (indexRun (f.indexed c.options) (f.track1.more.map CueLine.event)).1.ranges
          (f.tracks.flatMap CueTrack.events) := by
  rw [← ranges_append]
  simp only [FfCue.ranges,indexRun_events]

/-- The ranges that `ffcue_index()` gives for the FILE: a further index of the first track, `x`,
splits that track and the next range starts there. -/
def given (g : CueGap) : List FfCueTrk :=
  match f.track1.further with
  | [] => f.documented g
  | x :: _ => ⟨f.track1.startsFirst g,x⟩ :: documentedFrom g x f.tracks

theorem ranges_given (c : FfCue) : c.ranges f.events = f.given c.options := by
  rw [ranges_events,given]
  cases hx : f.track1.further with
  | nil =>
    rw [indexRun_more_tags hx,List.nil_append,
      ranges_tracks rfl (f.before_tracks (f.track1.startsFirst_mem _))]
    rfl
  | cons x xs =>
    have hm : x ∈ f.track1.further := by rw [hx]; exact List.mem_cons_self
    rw [indexRun_more_index rfl rfl rfl hx,
      ranges_tracks rfl (f.before_tracks (CueTrack.further_mem hm))]
    rfl

theorem startsFirst_lt_further {g : CueGap} {x : UInt32} (hx : x ∈ f.track1.further) :
    f.track1.startsFirst g < x := by
  have hp := f.times_pairwise
  obtain ⟨_,h1,h0⟩ := List.pairwise_append.mp hp
  have h01 : f.track1.index01 < x := List.rel_of_pairwise_cons h1 hx
  have hi : f.track1.index0 < x := by
    cases hi : f.track1.index00 with
    | none => simpa [CueTrack.index0,hi] using h01
    | some p =>
      have hpx := h0 p.1 (by simp [hi]) x (List.mem_cons_of_mem _ hx)
      simpa [CueTrack.index0,hi] using hpx
  cases g
  case prev => exact h01
  case skip => exact h01
  all_goals exact hi

theorem given_lt (g : CueGap) : ∀ r ∈ (f.given g).dropLast, r.from_ < r.to_ := by
  unfold given
  cases hx : f.track1.further with
  | nil => exact documentedFrom_lt (f.before_tracks (f.track1.startsFirst_mem g))
  | cons x xs =>
    have hm : x ∈ f.track1.further := by rw [hx]; exact List.mem_cons_self
    intro r hr
    rw [List.dropLast_cons_of_ne_nil (documentedFrom_ne_nil _ _ _)] at hr
    rcases List.mem_cons.mp hr with rfl | hr
    · exact f.startsFirst_lt_further hm
    · exact documentedFrom_lt (f.before_tracks (CueTrack.further_mem hm)) r hr

/-- No documented range of a FILE starts with track 1 and ends at a further index of track 1. -/
theorem documented_ne {g : CueGap} {x : UInt32} (hx : x ∈ f.track1.further)
    (rs : List FfCueTrk) : ⟨f.track1.startsFirst g,x⟩ :: rs ≠ f.documented g := by
  intro h
  unfold documented at h
  cases ht : f.tracks with
  | nil =>
    rw [ht] at h
    have hx0 : x = 0 := congrArg FfCueTrk.to_ (List.cons.inj h).1
    exact ne_zero_of_lt (f.startsFirst_lt_further (g := g) hx) hx0
  | cons t ts =>
    rw [ht] at h
    have hxt : x = t.stops g := congrArg FfCueTrk.to_ (List.cons.inj h).1
    have hlt : x < t.stops g :=
      List.rel_of_pairwise_cons (f.before_tracks (CueTrack.further_mem hx))
        (by simp [ht,t.stops_mem])
    exact absurd hlt (by rw [← hxt]; exact UInt32.lt_irrefl x)

theorem given_eq_documented {g : CueGap} :
    f.given g = f.documented g ↔ f.track1.further = [] := by
  unfold given
  cases hx : f.track1.further with
  | nil => exact iff_of_true rfl rfl
  | cons x xs =>
    have hm : x ∈ f.track1.further := by rw [hx]; exact List.mem_cons_self
    exact iff_of_false (f.documented_ne hm _) (List.cons_ne_nil x xs)

/-- The ranges of the tracks of one FILE are the documented ones exactly if its first track has no
INDEX above 01. -/
theorem index_ranges (c : FfCue) :
    c.ranges f.events = f.documented c.options ↔ f.track1.further = [] := by
  rw [ranges_given]
  exact f.given_eq_documented

/-- A FILE with two tracks, the first of which has INDEX 02 after two seconds. -/
def twoIndexes : CueFile where
  name := "a.wav"
  tags := []
  track1 := ⟨"01",[],none,0,[.index 150]⟩
  tracks := [⟨"02",[],none,300,[]⟩]
  increasing := by decide

/-- The first track is split at its INDEX 02. -/
theorem index_ranges_split :
    ∃ (c : FfCue) (f : CueFile), c.ranges f.events = [⟨0,150⟩,⟨150,300⟩,⟨300,0⟩] ∧
      f.documented c.options = [⟨0,300⟩,⟨300,0⟩] ∧ c.ranges f.events ≠ f.documented c.options :=
  ⟨⟨.prev,0,⟨0,0⟩,false,false⟩,twoIndexes,by decide +kernel,by decide +kernel,by decide +kernel⟩

end CueFile

end Phiola
