import Phiola.Cue.Sheet
import Phiola.Framework.Machine

/-!
# Tags of the entries of a cue sheet

The values of the finished track and those of the track that is being read are in one vector, and
`nmeta` separates them. Beside it stands what the sheet says: which values are in which TRACK block
and which are in none.
-/

namespace Phiola

/-- The name and the value that a line adds, if it is no TRACK line. -/
def CueEvent.tag? : CueEvent → Option (String × String)
  | .title v => some ("album",v)
  | .performer v => some ("artist",v)
  | .rem n v => some (n,v)
  | .trkTitle v => some ("title",v)
  | .trkPerformer v => some ("artist",v)
  | _ => none

/-- The sheet so far: the values outside of TRACK blocks, those of the finished blocks and of the one
that is being read, and whether it has had an INDEX 01. -/
structure SheetRead where
  globals : Meta
  blocks : List Meta
  cur : Option Meta
  indexed : Bool
  deriving DecidableEq, Repr

namespace SheetRead

def init : SheetRead := ⟨[],[],none,false⟩

def tag (s : SheetRead) (x : String × String) : SheetRead :=
  match s.cur with
  | none => { s with globals := s.globals ++ [x] }
  | some b => { s with cur := some (b ++ [x]) }

def read (s : SheetRead) (e : CueEvent) : SheetRead :=
  match e with
  | .trkNum v =>
    { s with
      blocks := s.blocks ++ s.cur.toList
      cur := some [("tracknumber",v)]
      indexed := false }
  | .trkIndex _ => { s with indexed := true }
  | e => (e.tag?.map s.tag).getD s

/-- All the TRACK blocks. -/
def all (s : SheetRead) : List Meta := s.blocks ++ s.cur.toList

end SheetRead

/-- The tags of an entry: the user's, the global ones whose name its block doesn't have and those of
its block. -/
def entryTags (user globals block : Meta) : Meta :=
  named user ++ named (globals.filter fun x => block.all fun y => y.1 != x.1) ++ named block

/-- The reader of a sheet, what it has read and whether it is finished. -/
structure CueRun where
  c : Cue
  sh : SheetRead
  fin : Bool

namespace CueRun

def init (gaps : CueGap) (heap : Nat) : CueRun := ⟨Cue.init gaps heap,SheetRead.init,false⟩

inductive Act
  | event (e : CueEvent)
  | eof

/-- An event of the loop of `cue_process()`, or the end of the sheet. -/
def step (cf : CueConf) (s : CueRun) (a : Act) : Option CueRun :=
  if s.fin then none
  else
    match a with
    | .event e => some ⟨(s.c.event cf e).1,s.sh.read e,(s.c.event cf e).2⟩
    | .eof => some ⟨s.c.finish cf,s.sh,true⟩

/-- The entry has the tags of the TRACK block of its number. -/
def OwnTags (cf : CueConf) (sh : SheetRead) (x : CueEntry) : Prop :=
  ∃ b ∈ sh.all[x.trk - 1]?, x.conf.pairs.Perm (entryTags cf.conf.pairs sh.globals b)

instance (cf : CueConf) (sh : SheetRead) (x : CueEntry) : Decidable (OwnTags cf sh x) :=
  inferInstanceAs (Decidable (∃ b ∈ sh.all[x.trk - 1]?, _))

/-- What a sheet has to keep to: one FILE, before all tracks; all other values either before it or in
a TRACK block; an INDEX 01 in each track, and no further index in the first one; and no selected
track that is rejected. -/
def Regular (cf : CueConf) (s : CueRun) : Act → Prop
  | .event (.file _) => s.c.haveGmeta = false ∧ s.sh.cur = none
  | .event (.trkNum _) => s.c.haveGmeta = true ∧ (s.sh.cur ≠ none → s.sh.indexed = true)
  | .event (.trkIndex00 _) => s.sh.cur ≠ none
  | .event (.trkIndex v) =>
    s.sh.cur ≠ none ∧ (s.sh.blocks = [] → s.sh.indexed = false) ∧
      ∀ r ∈ (ffcueIndex s.c.cu (.trkIndex v)).2, Cue.Invalid r → cf.select (s.c.curtrk + 1) = none
  | .event .warn => True
  | .event _ => s.c.haveGmeta = true → s.sh.cur ≠ none
  | .eof => s.sh.cur ≠ none ∧ s.sh.indexed = true

instance (cf : CueConf) (s : CueRun) : (a : Act) → Decidable (Regular cf s a)
  | .event .warn => inferInstanceAs (Decidable True)
  | .event (.title _) => inferInstanceAs (Decidable (_ → _))
  | .event (.performer _) => inferInstanceAs (Decidable (_ → _))
  | .event (.rem _ _) => inferInstanceAs (Decidable (_ → _))
  | .event (.trkTitle _) => inferInstanceAs (Decidable (_ → _))
  | .event (.trkPerformer _) => inferInstanceAs (Decidable (_ → _))
  | .event (.file _) => inferInstanceAs (Decidable (_ ∧ _))
  | .event (.trkNum _) => inferInstanceAs (Decidable (_ ∧ _))
  | .event (.trkIndex00 _) => inferInstanceAs (Decidable (s.sh.cur ≠ none))
  | .event (.trkIndex _) => inferInstanceAs (Decidable (_ ∧ _ ∧ ∀ r ∈ (ffcueIndex _ _).2, _ → _))
  | .eof => inferInstanceAs (Decidable (_ ∧ _))

end CueRun

theorem cueAdd_pairs (t : TrackConf) (url : String) (start stop : Nat) (gmetas metas : Meta)
    (h : Nat) : (cueAdd t url start stop gmetas metas h).1.pairs =
      entryTags t.pairs gmetas metas := by
  unfold entryTags
  simp only [cueAdd,TrackConf.pairs,metaCopy_pairs,listAdd,Option.map_none,Option.getD_none,
    List.nil_append]

theorem event_tag {cf : CueConf} {e : CueEvent} {x : String × String} (h : e.tag? = some x)
    (c : Cue) : c.event cf e = (c.push x.1 x.2, false) := by
  cases e <;> cases h <;> rfl

theorem read_tag {e : CueEvent} {x : String × String} (h : e.tag? = some x) (s : SheetRead) :
    s.read e = s.tag x := by
  cases e <;> cases h <;> rfl

/-- The track of the range is done with: it is inserted with its values, or it is not selected. -/
theorem range_tags (cf : CueConf) (c : Cue) (r : FfCueTrk) (done : Bool)
    (h : Cue.Invalid r → cf.select (c.curtrk + 1) = none) :
    ∃ (new : List CueEntry) (h' : Nat), (c.range cf r done).1 =
        { c with
          curtrk := c.curtrk + 1
          metas := c.metas.drop c.nmeta
          nmeta := (c.metas.drop c.nmeta).length
          inserted := c.inserted ++ new
          heap := h' } ∧
      ∀ x ∈ new, x.trk = c.curtrk + 1 ∧
        x.conf.pairs = entryTags cf.conf.pairs c.gmetas (c.metas.take c.nmeta) := by
  cases hs : cf.select (c.curtrk + 1) with
  | none =>
    rw [Cue.range_skip hs]
    exact ⟨[],c.heap,by simp [Cue.next],by simp⟩
  | some last =>
    rw [Cue.range_add hs fun hr => by rw [h hr] at hs; cases hs]
    refine ⟨[_],_,rfl,?_⟩
    intro x hx
    rw [List.mem_singleton.mp hx]
    exact ⟨rfl,cueAdd_pairs _ _ _ _ _ _ _⟩

namespace CueRun

variable {cf : CueConf}

/-- The values of the finished track whose entry is still to be inserted. -/
def pending (sh : SheetRead) : Meta := if sh.indexed then [] else sh.blocks.getLastD []

/-- Before the first FILE. -/
structure AtGlobals (s : CueRun) : Prop where
  file : s.c.haveGmeta = false
  cur : s.sh.cur = none
  blocks : s.sh.blocks = []
  metas : s.c.metas = s.sh.globals
  curtrk : s.c.curtrk = 0
  inserted : s.c.inserted = []

/-- Between FILE and the first TRACK. -/
structure AtHeader (s : CueRun) : Prop where
  file : s.c.haveGmeta = true
  cur : s.sh.cur = none
  blocks : s.sh.blocks = []
  gmetas : s.c.gmetas = s.sh.globals
  metas : s.c.metas = []
  curtrk : s.c.curtrk = 0
  inserted : s.c.inserted = []
  first : s.c.cu.first = true

/-- In a TRACK block with the values `b` so far. -/
structure AtTrack (cf : CueConf) (s : CueRun) (b : Meta) : Prop where
  file : s.c.haveGmeta = true
  cur : s.sh.cur = some b
  gmetas : s.c.gmetas = s.sh.globals
  metas : s.c.metas = pending s.sh ++ b
  nmeta : s.sh.indexed = false → s.c.nmeta = (pending s.sh).length
  curtrk : s.c.curtrk = if s.sh.indexed then s.sh.blocks.length else s.sh.blocks.length - 1
  first : s.c.cu.first = (s.sh.blocks.isEmpty && !s.sh.indexed)
  next : s.sh.blocks ≠ [] → s.c.cu.next = s.sh.indexed
  own : ∀ x ∈ s.c.inserted, ∃ b, s.sh.blocks[x.trk - 1]? = some b ∧
    x.conf.pairs = entryTags cf.conf.pairs s.sh.globals b

/-- Where the reader is in a sheet that is not finished. -/
def Reading (cf : CueConf) (s : CueRun) : Prop :=
  AtGlobals s ∨ AtHeader s ∨ ∃ b, AtTrack cf s b

structure Inv (cf : CueConf) (s : CueRun) : Prop where
  own : ∀ x ∈ s.c.inserted, OwnTags cf s.sh x
  reading : s.fin = false → Reading cf s

theorem AtTrack.ownTags {s : CueRun} {b : Meta} (h : AtTrack cf s b) :
    ∀ x ∈ s.c.inserted, OwnTags cf s.sh x := by
  intro x hx
  obtain ⟨b,hb,ht⟩ := h.own x hx
  refine ⟨b,?_,List.Perm.of_eq ht⟩
  obtain ⟨hlt,_⟩ := List.getElem?_eq_some_iff.mp hb
  rw [SheetRead.all,List.getElem?_append_left hlt]
  exact hb

theorem AtTrack.inv {s : CueRun} {b : Meta} (h : AtTrack cf s b) : Inv cf s :=
  ⟨h.ownTags,fun _ => .inr (.inr ⟨b,h⟩)⟩

theorem inv_tag {s : CueRun} {e : CueEvent} {x : String × String} (h : Reading cf s)
    (he : e.tag? = some x) (hx : s.c.haveGmeta = true → s.sh.cur ≠ none) :
    Inv cf ⟨(s.c.event cf e).1,s.sh.read e,(s.c.event cf e).2⟩ := by
  rw [event_tag he,read_tag he]
  rcases h with h | h | ⟨b,h⟩
  · have hr : AtGlobals ⟨s.c.push x.1 x.2,s.sh.tag x,false⟩ := by
      refine ⟨h.file,?_,?_,?_,h.curtrk,h.inserted⟩ <;>
        simp [SheetRead.tag,h.cur,h.blocks,Cue.push,h.metas]
    refine ⟨?_,fun _ => .inl hr⟩
    rw [hr.inserted]
    simp
  · exact absurd h.cur (hx h.file)
  · have hr : AtTrack cf ⟨s.c.push x.1 x.2,s.sh.tag x,false⟩ (b ++ [x]) := by
      have hsh : s.sh.tag x = { s.sh with cur := some (b ++ [x]) } := by
        simp [SheetRead.tag,h.cur]
      rw [hsh]
      refine ⟨h.file,rfl,h.gmetas,?_,h.nmeta,h.curtrk,h.first,h.next,h.own⟩
      simp only [Cue.push,h.metas,List.append_assoc]
      rfl
    exact hr.inv

theorem inv_file {s : CueRun} {name : String} (h : Reading cf s)
    (hc : Regular cf s (.event (.file name))) :
    Inv cf ⟨(s.c.event cf (.file name)).1,s.sh.read (.file name),
      (s.c.event cf (.file name)).2⟩ := by
  rcases h with h | h | ⟨b,h⟩
  · have hr : AtHeader ⟨(s.c.event cf (.file name)).1,s.sh.read (.file name),
        (s.c.event cf (.file name)).2⟩ := by
      rw [Cue.event_eq]
      refine ⟨?_,h.cur,h.blocks,?_,?_,?_,?_,rfl⟩ <;>
        simp [Cue.store,ffcueIndex,h.file,h.metas,h.curtrk,h.inserted,SheetRead.read,CueEvent.tag?]
    refine ⟨?_,fun _ => .inr (.inl hr)⟩
    rw [hr.inserted]
    simp
  · exact absurd (hc.1.symm.trans h.file) Bool.false_ne_true
  · exact absurd (hc.1.symm.trans h.file) Bool.false_ne_true

/-- The block that was read becomes the finished one, whose values `nmeta` counts. -/
theorem inv_trkNum {s : CueRun} {v : String} (h : Reading cf s)
    (hc : Regular cf s (.event (.trkNum v))) :
    Inv cf ⟨(s.c.event cf (.trkNum v)).1,s.sh.read (.trkNum v),(s.c.event cf (.trkNum v)).2⟩ := by
  rcases h with h | h | ⟨b,h⟩
  · exact absurd (h.file.symm.trans hc.1) Bool.false_ne_true
  · have hr : AtTrack cf ⟨(s.c.event cf (.trkNum v)).1,s.sh.read (.trkNum v),
        (s.c.event cf (.trkNum v)).2⟩ [("tracknumber",v)] := by
      rw [Cue.event_eq]
      refine ⟨h.file,rfl,h.gmetas,?_,?_,?_,?_,?_,?_⟩ <;>
        simp [Cue.store,Cue.push,ffcueIndex,SheetRead.read,pending,h.cur,h.blocks,h.metas,h.curtrk,
          h.first,h.inserted]
    exact hr.inv
  · have hi := hc.2 (by rw [h.cur]; exact Option.some_ne_none b)
    have hp : pending s.sh = [] := if_pos hi
    have hm := h.metas
    have hk := h.curtrk
    have hf := h.first
    rw [hp,List.nil_append] at hm
    rw [if_pos hi] at hk
    rw [hi,Bool.not_true,Bool.and_false] at hf
    have hr : AtTrack cf ⟨(s.c.event cf (.trkNum v)).1,s.sh.read (.trkNum v),
        (s.c.event cf (.trkNum v)).2⟩ [("tracknumber",v)] := by
      rw [Cue.event_eq]
      refine ⟨h.file,rfl,h.gmetas,?_,?_,?_,?_,?_,?_⟩
      case refine_6 =>
        intro x hx
        obtain ⟨b',hb,ht⟩ := h.own x hx
        obtain ⟨hlt,_⟩ := List.getElem?_eq_some_iff.mp hb
        exact ⟨b',(List.getElem?_append_left hlt).trans hb,ht⟩
      all_goals simp [Cue.store,Cue.push,ffcueIndex,SheetRead.read,pending,h.cur,hm,hk,hf]
    exact hr.inv

theorem ffcueIndex_index00 (c : FfCue) (v : UInt32) :
    (ffcueIndex c (.trkIndex00 v)).2 = none ∧ (ffcueIndex c (.trkIndex00 v)).1.first = c.first ∧
      (ffcueIndex c (.trkIndex00 v)).1.next = c.next := by
  simp only [ffcueIndex]
  split_ifs <;> exact ⟨rfl,rfl,rfl⟩

theorem inv_index00 {s : CueRun} {v : UInt32} (h : Reading cf s)
    (hc : Regular cf s (.event (.trkIndex00 v))) :
    Inv cf ⟨(s.c.event cf (.trkIndex00 v)).1,s.sh.read (.trkIndex00 v),
      (s.c.event cf (.trkIndex00 v)).2⟩ := by
  rcases h with h | h | ⟨b,h⟩
  · exact absurd h.cur hc
  · exact absurd h.cur hc
  · obtain ⟨h1,h2,h3⟩ := ffcueIndex_index00 s.c.cu v
    rw [Cue.event_eq]
    cases hx : ffcueIndex s.c.cu (.trkIndex00 v) with
    | mk cu o =>
      rw [hx] at h1 h2 h3
      cases h1
      have hr : AtTrack cf ⟨{ s.c with cu := cu },s.sh,false⟩ b :=
        ⟨h.file,h.cur,h.gmetas,h.metas,h.nmeta,h.curtrk,h2.trans h.first,
          fun hb => h3.trans (h.next hb),h.own⟩
      exact hr.inv

theorem ffcueIndex_index01 {c : FfCue} {v : UInt32} (hf : c.first = false) (hn : c.next = false) :
    ∃ cu r, ffcueIndex c (.trkIndex v) = (cu, some r) ∧ cu.first = false ∧ cu.next = true := by
  obtain ⟨g,x,r,first,next⟩ := c
  subst hf hn
  simp only [ffcueIndex,Bool.false_eq_true,if_false]
  split_ifs <;> exact ⟨_,_,rfl,rfl,rfl⟩

/-- The finished track gets its entry with the first `nmeta` values, which are those of its block. -/
theorem inv_emit {s : CueRun} {b : Meta} {v : UInt32} (h : AtTrack cf s b)
    (hb : s.sh.blocks ≠ []) (hi : s.sh.indexed = false)
    (hc : Regular cf s (.event (.trkIndex v))) :
    Inv cf ⟨(s.c.event cf (.trkIndex v)).1,s.sh.read (.trkIndex v),
      (s.c.event cf (.trkIndex v)).2⟩ := by
  obtain ⟨bs,p,hbs⟩ : ∃ bs p, s.sh.blocks = bs ++ [p] :=
    ⟨_,_,(List.dropLast_append_getLast hb).symm⟩
  have hfirst : s.c.cu.first = false := by rw [h.first,hbs]; simp
  obtain ⟨cu,r,hx,hcf,hcn⟩ := ffcueIndex_index01 (v := v) hfirst ((h.next hb).trans hi)
  have hp : pending s.sh = p := by simp [pending,hi,hbs]
  have hm := h.metas
  have hn := h.nmeta hi
  have hk := h.curtrk
  rw [hp] at hm hn
  rw [hi,hbs,List.length_append] at hk
  have hinv := fun r' hr' => hc.2.2 r' hr'
  rw [hx] at hinv
  obtain ⟨new,h',hrange,hnew⟩ :=
    range_tags cf { s.c with cu := cu } r false (hinv r rfl)
  have hev : s.c.event cf (.trkIndex v) = { s.c with cu := cu }.range cf r false := by
    rw [Cue.event_eq,hx]
    rfl
  have hr : AtTrack cf ⟨(s.c.event cf (.trkIndex v)).1,s.sh.read (.trkIndex v),
      (s.c.event cf (.trkIndex v)).2⟩ b := by
    rw [hev,hrange]
    refine ⟨h.file,h.cur,h.gmetas,?_,fun hf => by (cases hf),?_,?_,fun _ => hcn,?_⟩
    · simp [hm,hn,pending,SheetRead.read]
    · simp [hk,hbs,SheetRead.read]
    · simp [hcf,SheetRead.read]
    · intro x hx
      rcases List.mem_append.mp hx with hx | hx
      · exact h.own x hx
      · obtain ⟨htrk,htags⟩ := hnew x hx
        refine ⟨p,?_,?_⟩
        · have hpos : x.trk - 1 = bs.length := by
            rw [htrk]
            exact hk
          rw [hpos]
          exact (congrArg (·[bs.length]?) hbs).trans List.getElem?_concat_length
        · rw [htags]
          dsimp only
          rw [h.gmetas,hm,hn,List.take_left]
          rfl
  exact hr.inv

theorem inv_index {s : CueRun} {v : UInt32} (h : Reading cf s)
    (hc : Regular cf s (.event (.trkIndex v))) :
    Inv cf ⟨(s.c.event cf (.trkIndex v)).1,s.sh.read (.trkIndex v),
      (s.c.event cf (.trkIndex v)).2⟩ := by
  rcases h with h | h | ⟨b,h⟩
  · exact absurd h.cur hc.1
  · exact absurd h.cur hc.1
  by_cases hb : s.sh.blocks = []
  · -- the first track gives no range
    have hi := hc.2.1 hb
    have hf : s.c.cu.first = true := by rw [h.first,hb,hi]; rfl
    have hm := h.metas
    have hk := h.curtrk
    have hr : AtTrack cf ⟨(s.c.event cf (.trkIndex v)).1,s.sh.read (.trkIndex v),
        (s.c.event cf (.trkIndex v)).2⟩ b := by
      rw [Cue.event_eq]
      refine ⟨?_,h.cur,?_,?_,fun hf => by (cases hf),?_,?_,fun hb' => absurd hb hb',?_⟩
      case refine_6 => simpa [ffcueIndex,hf,Cue.store,SheetRead.read] using h.own
      all_goals
        simp_all [ffcueIndex,Cue.store,SheetRead.read,pending,h.file,h.gmetas]
    exact hr.inv
  · cases hi : s.sh.indexed with
    | false => exact inv_emit h hb hi hc
    | true =>
      have hn := (h.next hb).trans hi
      have hf : s.c.cu.first = false := by rw [h.first,hi]; simp
      have hx : ffcueIndex s.c.cu (.trkIndex v) = (s.c.cu, none) := by
        simp [ffcueIndex,hf,hn]
      have hsh : s.sh.read (.trkIndex v) = s.sh := by
        have : s.sh.read (.trkIndex v) = { s.sh with indexed := true } := rfl
        rw [this,← hi]
      have hr : AtTrack cf ⟨(s.c.event cf (.trkIndex v)).1,s.sh.read (.trkIndex v),
          (s.c.event cf (.trkIndex v)).2⟩ b := by
        rw [Cue.event_eq,hx,hsh]
        exact ⟨h.file,h.cur,h.gmetas,h.metas,h.nmeta,h.curtrk,h.first,h.next,h.own⟩
      exact hr.inv

/-- At the end of the sheet the last track gets its entry with all the values that are left. -/
theorem inv_eof {s : CueRun} (h : Reading cf s) (hc : Regular cf s .eof) :
    Inv cf ⟨s.c.finish cf,s.sh,true⟩ := by
  refine ⟨?_,fun hf => by cases hf⟩
  rcases h with h | h | ⟨b,h⟩
  · exact absurd h.cur hc.1
  · exact absurd h.cur hc.1
  have hm := h.metas
  rw [pending,if_pos hc.2,List.nil_append] at hm
  have hk := h.curtrk
  rw [if_pos hc.2] at hk
  obtain ⟨new,h',hrange,hnew⟩ := range_tags cf
    { s.c with cu := (ffcueFinal s.c.cu).1, nmeta := s.c.metas.length }
    (ffcueFinal s.c.cu).2 true fun hi => absurd rfl hi.1
  intro x hx
  rw [Cue.finish,hrange] at hx
  rcases List.mem_append.mp hx with hx | hx
  · exact h.ownTags x hx
  · obtain ⟨htrk,htags⟩ := hnew x hx
    refine ⟨b,?_,List.Perm.of_eq ?_⟩
    · have hpos : x.trk - 1 = s.sh.blocks.length := by
        rw [htrk]
        exact hk
      rw [hpos,SheetRead.all,h.cur]
      exact List.getElem?_concat_length
    · rw [htags]
      dsimp only
      rw [h.gmetas,List.take_length,hm]

theorem inv_step {s s' : CueRun} {a : Act} (h : Inv cf s) (hc : Regular cf s a)
    (hstep : step cf s a = some s') : Inv cf s' := by
  obtain ⟨c,sh,fin⟩ := s
  cases fin with
  | true => cases hstep
  | false =>
    have hr := h.reading rfl
    cases a with
    | eof =>
      cases hstep
      exact inv_eof hr hc
    | event e =>
      cases hstep
      cases e with
      | file name => exact inv_file hr hc
      | trkNum v => exact inv_trkNum hr hc
      | trkIndex00 v => exact inv_index00 hr hc
      | trkIndex v => exact inv_index hr hc
      | warn => exact ⟨h.own,fun _ => hr⟩
      | title v => exact inv_tag hr rfl hc
      | performer v => exact inv_tag hr rfl hc
      | rem n v => exact inv_tag hr rfl hc
      | trkTitle v => exact inv_tag hr rfl hc
      | trkPerformer v => exact inv_tag hr rfl hc

/-- As long as the sheet is regular, each entry has the user's tags, those of its own TRACK block and
the global ones that its block doesn't have, and no others. -/
theorem entries_own_tags (gaps : CueGap) (h : Nat) {as : List Act} {s : CueRun}
    (hrun : Machine.run (step cf) (init gaps h) as = some s)
    (hc : Machine.AllSteps (step cf) (Regular cf) (init gaps h) as) :
    ∀ x ∈ s.c.inserted, OwnTags cf s.sh x := by
  have hinit : Inv cf (init gaps h) :=
    ⟨by simp [init,Cue.init],fun _ => .inl ⟨rfl,rfl,rfl,rfl,rfl,rfl⟩⟩
  exact (Machine.guarded_invariant (fun _ _ _ hi hc hs => inv_step hi hc hs) hc hrun hinit).own

/-- The loop of `cue_process()` is a run over its events, up to the one after which it is done. -/
theorem loop_run (cf : CueConf) (c : Cue) (sh : SheetRead) (es : List CueEvent) :
    ∃ as sh', as <+: es.map Act.event ∧
      Machine.run (step cf) ⟨c,sh,false⟩ as = some ⟨(c.loop cf es).1,sh',(c.loop cf es).2⟩ ∧
      ((c.loop cf es).2 = false → as = es.map Act.event) := by
  induction es generalizing c sh with
  | nil => exact ⟨[],sh,List.prefix_refl _,rfl,fun _ => rfl⟩
  | cons e es ih =>
    have hstep : step cf ⟨c,sh,false⟩ (.event e) =
        some ⟨(c.event cf e).1,sh.read e,(c.event cf e).2⟩ := rfl
    rw [Cue.loop]
    cases hx : c.event cf e with
    | mk c' d =>
      rw [hx] at hstep
      cases d with
      | true =>
        refine ⟨[.event e],sh.read e,?_,?_,fun h => by cases h⟩
        · exact List.cons_prefix_cons.mpr ⟨rfl,List.nil_prefix⟩
        · exact Machine.run_cons_eq_some.mpr ⟨_,hstep,rfl⟩
      | false =>
        obtain ⟨as,sh',hpre,hrun,has⟩ := ih c' (sh.read e)
        refine ⟨.event e :: as,sh',List.cons_prefix_cons.mpr ⟨rfl,hpre⟩,?_,fun h => ?_⟩
        · exact Machine.run_cons_eq_some.mpr ⟨_,hstep,hrun⟩
        · rw [has h]
          rfl

/-- What the calls for a sheet leave behind, a run over its events and its end leaves behind. -/
theorem calls_run (gaps : CueGap) (h : Nat) (chunks : List (List CueEvent))
    (last : List CueEvent) :
    ∃ as sh, as <+: (chunks.flatten ++ last).map Act.event ++ [Act.eof] ∧
      Machine.run (step cf) (init gaps h) as =
        some ⟨(Cue.init gaps h).calls cf chunks last,sh,true⟩ := by
  obtain ⟨as,sh,hpre,hrun,has⟩ :=
    loop_run cf (Cue.init gaps h) SheetRead.init (chunks.flatten ++ last)
  rw [Cue.calls_eq,Cue.process]
  cases hx : (Cue.init gaps h).loop cf (chunks.flatten ++ last) with
  | mk c d =>
    rw [hx] at hrun has
    cases d with
    | true => exact ⟨as,sh,hpre.trans (List.prefix_append _ _),hrun⟩
    | false =>
      refine ⟨as ++ [Act.eof],sh,?_,Machine.run_snoc_eq_some.mpr ⟨_,hrun,rfl⟩⟩
      rw [has rfl]

/-- A sheet with one FILE and two tracks, read to its end. -/
def readOne : CueRun :=
  (Machine.run (step (CueSheet.openedWith [])) (init .curr 1)
    (CueSheet.oneFile.events.map .event ++ [Act.eof])).getD (init .curr 1)

theorem entries_own_tags_two : readOne.c.inserted.length = 2 ∧
    ∀ x ∈ readOne.c.inserted, OwnTags (CueSheet.openedWith []) readOne.sh x :=
  ⟨by decide +kernel,
    entries_own_tags .curr 1 (Machine.run_eq_getD (by decide +kernel)) (by decide +kernel)⟩

/-- Three tracks, the second of which starts before the first one. -/
def unordered : List CueEvent :=
  [.file "a.wav",.trkNum "01",.trkTitle "T1",.trkIndex 150,.trkNum "02",.trkIndex 75,.trkNum "03",
    .trkTitle "T3",.trkIndex 300]

def readUnordered : CueRun :=
  (Machine.run (step (CueSheet.openedWith [])) (init .prev 1) (unordered.map .event ++ [Act.eof])).getD
    (init .prev 1)

/-- The first track is rejected, and the second one gets its tags too. -/
theorem entries_tags_of_rejected :
    Machine.run (step (CueSheet.openedWith [])) (init .prev 1) (unordered.map .event ++ [Act.eof]) =
        some readUnordered ∧
      readUnordered.c.inserted.map (fun x => (x.trk, x.conf.pairs)) =
        [(2, [("tracknumber","01"),("title","T1"),("tracknumber","02")]),
          (3, [("tracknumber","03"),("title","T3")])] ∧
      ¬ ∀ x ∈ readUnordered.c.inserted, OwnTags (CueSheet.openedWith []) readUnordered.sh x :=
  ⟨Machine.run_eq_getD (by decide +kernel),by decide +kernel,by decide +kernel⟩

end CueRun

end Phiola
