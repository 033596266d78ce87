import Phiola.Queue.Play

/-!
# Track configurations

A configuration is copied by value from a command to an entry, from an entry to its track and from
the track of a list to the entries that it expands into. Its names, its tags and its track numbers
are heap blocks; `h` is the address that the next allocation gives.
-/

namespace Phiola

structure Block (α : Type) where
  addr : Nat
  val : α

/-- `struct phi_af` -/
structure PhiAf where
  format : Nat
  rate : Nat
  channels : Nat
  deriving DecidableEq, Repr

/-- `struct phi_track_conf` -/
structure TrackConf where
  ifileName : Option (Block String)
  tracks : Option (Block (List Nat))
  seekMsec : Nat
  untilMsec : Nat
  seekCdframes : Nat
  untilCdframes : Nat
  confMeta : Option (Block Meta)
  gainDb : Int
  format : PhiAf
  ofileName : Option (Block String)
  streamCopy : Bool
  metaTransient : Bool

instance : Inhabited TrackConf :=
  ⟨⟨none,none,0,0,0,0,none,0,⟨0,0,0⟩,none,false,false⟩⟩

namespace TrackConf

/-- The tags of a configuration. -/
def pairs (c : TrackConf) : Meta := (c.confMeta.map Block.val).getD []

/-- The blocks that each configuration has for itself. -/
def own (c : TrackConf) : List Nat :=
  (c.ifileName.map Block.addr).toList ++ (c.ofileName.map Block.addr).toList ++
    (c.confMeta.map Block.addr).toList

/-- What `track_conf_destroy()` frees. -/
def blocks (c : TrackConf) : List Nat := c.own ++ (c.tracks.map Block.addr).toList

end TrackConf

/-- `meta_set()` without flags. -/
def metaSet (m : Option (Block Meta)) (name val : String) (h : Nat) : Option (Block Meta) × Nat :=
  if name = "" then (m, h)
  else
    match m with
    | none => (some ⟨h,[(name,val)]⟩, h + 1)
    | some b => (some ⟨b.addr,b.val ++ [(name,val)]⟩, h)

/-- `meta_copy()`, and the loop of `cmd_meta_set()`. -/
def metaCopy (m : Option (Block Meta)) (src : Meta) (h : Nat) : Option (Block Meta) × Nat :=
  src.foldl (fun p x => metaSet p.1 x.1 x.2 p.2) (m, h)

/-- A pair without a name is no tag. -/
def named (m : Meta) : Meta := m.filter fun x => x.1 != ""

theorem named_append (a b : Meta) : named (a ++ b) = named a ++ named b := List.filter_append a b

/-- `meta_copy()` adds the tags of its source. -/
theorem metaCopy_pairs (m : Option (Block Meta)) (src : Meta) (h : Nat) :
    ((metaCopy m src h).1.map Block.val).getD [] = (m.map Block.val).getD [] ++ named src := by
  unfold metaCopy
  induction src generalizing m h with
  | nil => exact (List.append_nil _).symm
  | cons x src ih =>
    have hx : ((metaSet m x.1 x.2 h).1.map Block.val).getD [] =
        (m.map Block.val).getD [] ++ named [x] := by
      unfold metaSet named
      by_cases hn : x.1 = ""
      · simp [hn]
      · cases m <;> simp [hn]
    rw [List.foldl_cons,ih,hx,List.append_assoc,← named_append]
    rfl

/-- `phi_track_conf_assign()` -/
def phiTrackConfAssign (src : TrackConf) : TrackConf :=
  { src with
    ifileName := none
    ofileName := none
    confMeta := none
    tracks := none }

/-- `ffsz_dup()` of a name, if there is one. -/
def dupName (name : Option (Block String)) (h : Nat) : Option (Block String) × Nat :=
  match name with
  | none => (none, h)
  | some b => (some ⟨h,b.val⟩, h + 1)

/-- `struct cmd_play` -/
structure CmdPlay where
  random : Bool
  repeatAll : Bool
  tracks : Option (Block (List Nat))
  seek : Nat
  untl : Nat

/-- `struct cmd_info` -/
structure CmdInfo where
  tracks : Option (Block (List Nat))
  seek : Nat
  untl : Nat

/-- `struct cmd_conv`; `conv_meta()` takes no pair without a name. -/
structure CmdConv where
  output : String
  cmdMeta : Meta
  tracks : Option (Block (List Nat))
  gain : Int
  copy : Bool
  aformat : Nat
  channels : Nat
  rate : Nat
  seek : Nat
  untl : Nat
  named : ∀ x ∈ cmdMeta, x.1 ≠ ""

/-- `play_qu_add()` -/
def playQuAdd (p : CmdPlay) (fn : String) (h : Nat) : TrackConf × Nat :=
  ({ (default : TrackConf) with
    ifileName := some ⟨h,fn⟩
    tracks := p.tracks
    seekMsec := p.seek
    untilMsec := p.untl }, h + 1)

/-- `info_qu_add()` -/
def infoQuAdd (p : CmdInfo) (fn : String) (h : Nat) : TrackConf × Nat :=
  ({ (default : TrackConf) with
    ifileName := some ⟨h,fn⟩
    tracks := p.tracks
    seekMsec := p.seek
    untilMsec := p.untl }, h + 1)

/-- `conv_qu_add()`: the pairs of the command are freed after they are set. -/
def convQuAdd (v : CmdConv) (fn : String) (h : Nat) : TrackConf × Nat × CmdConv :=
  let m := metaCopy none v.cmdMeta (h + 2)
  ({ ifileName := some ⟨h,fn⟩
     tracks := v.tracks
     seekMsec := v.seek
     untilMsec := v.untl
     seekCdframes := 0
     untilCdframes := 0
     confMeta := m.1
     gainDb := v.gain
     format := ⟨v.aformat,v.rate,v.channels⟩
     ofileName := some ⟨h + 1,v.output⟩
     streamCopy := v.copy
     metaTransient := false }, m.2, { v with cmdMeta := [], named := by simp })

/-- The new entry of `qu_add_dir_r()`. -/
def dirAdd (t : TrackConf) (fpath : String) (h : Nat) : TrackConf × Nat :=
  ({ phiTrackConfAssign t with ifileName := some ⟨h,fpath⟩ }, h + 1)

/-- What the readers of lists have in common: the output name and the tags of the list. -/
def listAdd (t : TrackConf) (url : String) (h : Nat) : TrackConf × Nat :=
  let o := dupName t.ofileName (h + 1)
  let m := metaCopy none t.pairs o.2
  ({ phiTrackConfAssign t with
    ifileName := some ⟨h,url⟩
    ofileName := o.1
    confMeta := m.1 }, m.2)

/-- `m3u_add()` -/
def m3uAdd (t : TrackConf) (url artist title : String) (h : Nat) : TrackConf × Nat :=
  let p := listAdd t url h
  if p.1.pairs = [] then
    let a := if artist ≠ "" then metaSet p.1.confMeta "artist" artist p.2 else (p.1.confMeta, p.2)
    let b := if title ≠ "" then metaSet a.1 "title" title a.2 else a
    ({ p.1 with confMeta := b.1, metaTransient := true }, b.2)
  else p

/-- `pls_add()` -/
def plsAdd (t : TrackConf) (url title : String) (h : Nat) : TrackConf × Nat :=
  let p := listAdd t url h
  if p.1.pairs = [] ∧ title ≠ "" then
    let b := metaSet p.1.confMeta "title" title p.2
    ({ p.1 with confMeta := b.1, metaTransient := true }, b.2)
  else p

/-- `add()` of the cue reader: the tags of the sheet that the track doesn't set, and those of the
track. -/
def cueAdd (t : TrackConf) (url : String) (start stop : Nat) (gmetas metas : Meta) (h : Nat) :
    TrackConf × Nat :=
  let p := listAdd t url h
  let g := metaCopy p.1.confMeta (gmetas.filter fun x => metas.all fun y => y.1 != x.1) p.2
  let b := metaCopy g.1 metas g.2
  ({ p.1 with
    confMeta := b.1
    seekCdframes := start
    untilCdframes := stop }, b.2)

/-- What a reader has read from its list. -/
inductive ListItem
  | dir (fpath : String)
  | m3u (url artist title : String)
  | pls (url title : String)
  | cue (url : String) (start stop : Nat) (gmetas metas : Meta)

/-- The configuration of the entry that a reader adds. -/
def ListItem.conf (t : TrackConf) (h : Nat) : ListItem → TrackConf × Nat
  | .dir fpath => dirAdd t fpath h
  | .m3u url artist title => m3uAdd t url artist title h
  | .pls url title => plsAdd t url title h
  | .cue url start stop gmetas metas => cueAdd t url start stop gmetas metas h

end Phiola
