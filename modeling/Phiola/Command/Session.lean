import Phiola.Command.Options
import Phiola.Framework.Holders
import Phiola.Queue.Growth

/-!
# The blocks of a session

A command line adds its inputs to the queue; then entries are played, expanded, removed and cleared in
any order. An entry in use has a configuration of its own and each open track a copy of the one that its
entry had at the start. What `track_conf_destroy()` and `meta_destroy()` free is released.
-/

namespace Phiola

/-- The commands that fill a queue. -/
inductive Command
  | play (p : CmdPlay)
  | info (p : CmdInfo)
  | conv (v : CmdConv)

namespace Command

def tracks : Command → Option (Block (List Nat))
  | play p => p.tracks
  | info p => p.tracks
  | conv v => v.tracks

/-- `play_qu_add()`, `info_qu_add()` and `conv_qu_add()`. -/
def quAdd (x : Command) (fn : String) (h : Nat) : TrackConf × Nat × Command :=
  match x with
  | play p => ((playQuAdd p fn h).1,(playQuAdd p fn h).2,play p)
  | info p => ((infoQuAdd p fn h).1,(infoQuAdd p fn h).2,info p)
  | conv v => ((convQuAdd v fn h).1,(convQuAdd v fn h).2.1,conv (convQuAdd v fn h).2.2)

end Command

/-- An open track: its entry, `t->conf` and `t->meta`. -/
structure OpenTrack where
  qent : Nat
  conf : TrackConf
  tags : Option (Block Meta)

/-- `inputs` counts the inputs that the command has added so far. -/
structure Session where
  mgr : QueueMgr
  cmd : Command
  inputs : Nat
  entry : Nat → Option TrackConf
  track : Nat → Option OpenTrack
  heap : Nat
  released : List Nat

def addrs {α : Type} (m : Option (Block α)) : List Nat := (m.map Block.addr).toList

namespace Session

open QueueMgr

/-- The command line is read, and no queue is made yet. -/
def start (x : Command) : Session where
  mgr := init
  cmd := x
  inputs := 0
  entry := fun _ => none
  track := fun _ => none
  heap := match x.tracks with
    | none => 0
    | some b => b.addr + 1
  released := []

/-- `qe_new()` -/
def addEntry (s : Session) (e : Nat) (c : TrackConf) (h : Nat) : Session :=
  { s with
    entry := Function.update s.entry e (some c)
    heap := h }

/-- `track_create()` for an entry, and the user's tags if `qe_play()` copies them. -/
def startTrack (m : QueueMgr) (s : Session) (t : Nat) : Session :=
  let x := m.trk t
  match s.entry x.qent with
  | none => s
  | some c =>
    let g := if x.expands.isNone ∧ (m.ent x.qent).haveUserMeta then metaCopy none c.pairs s.heap
      else (none,s.heap)
    { s with
      track := Function.update s.track t (some ⟨x.qent,c,g.1⟩)
      heap := g.2 }

/-- `qe_free()` -/
def freeEntry (s : Session) (e : Nat) : Session :=
  match s.entry e with
  | none => s
  | some c =>
    { s with
      entry := Function.update s.entry e none
      released := s.released ++ c.blocks }

/-- `qe_close()` keeps the tags of the track in its entry. -/
def forgets (s : Session) (t : Nat) : Bool :=
  let r := s.mgr.readerClose t
  let x := r.ent (s.mgr.trk t).qent
  decide (x.trk = some t ∧ (r.queue x.q).conversion = false ∧ x.haveUserMeta = false)

/-- `meta_destroy(&e->pub.conf.meta); e->pub.conf.meta = t->meta;` -/
def keepTags (s : Session) (t : Nat) : Session :=
  match s.track t with
  | none => s
  | some x =>
    match s.entry x.qent with
    | none => s
    | some c =>
      { s with
        entry := Function.update s.entry x.qent (some { c with confMeta := x.tags })
        track := Function.update s.track t (some { x with tags := none })
        released := s.released ++ addrs c.confMeta }

/-- `meta_destroy(&t->meta);` at the end of a track. -/
def dropTrack (s : Session) (t : Nat) : Session :=
  match s.track t with
  | none => s
  | some x =>
    { s with
      track := Function.update s.track t none
      released := s.released ++ addrs x.tags }

/-- A filter reads a tag. -/
def readTag (s : Session) (t : Nat) (r : TagRead) : Session :=
  match s.track t with
  | none => s
  | some x =>
    let p := r.set (x.tags,s.heap)
    { s with
      track := Function.update s.track t (some { x with tags := p.1 })
      heap := p.2
      released := s.released ++ if r.isIcy then addrs x.tags else [] }

/-- The entries that an operation frees. -/
def dead (s m : QueueMgr) : List Nat :=
  (List.range m.ne).filter fun e => !(s.ent e).freed && (m.ent e).freed

/-- The tracks that the operation has started get their copies, then the entries that it has freed go. -/
def follow (s : Session) (m : QueueMgr) : Session :=
  { (dead s.mgr m).foldl freeEntry
      ((List.range' s.mgr.nt (m.nt - s.mgr.nt)).foldl (startTrack m) s) with
    mgr := m }

/-- The command adds its next input; the reader of a list adds an entry behind its own or, in a cue
sheet or a pls list, behind entry `e`; a filter reads a tag; a track closes; or another operation on the
queues. -/
inductive Act
  | input (fn : String) (kind : Option ListKind) (created : Bool)
  | listed (t : Nat) (item : ListItem)
  | sheet (t e : Nat) (item : ListItem)
  | read (t : Nat) (r : TagRead)
  | close (t : Nat) (fstop : Bool) (rnd : Nat) (ans : List Answer)
  | op (a : Op)

def step (s : Session) : Act → Option Session
  | .input fn kind created =>
    let p := s.cmd.quAdd fn s.heap
    (s.mgr.step (.add none p.1.haveUserMeta kind created)).map fun m =>
      ({ s with cmd := p.2.2, inputs := s.inputs + 1 }.addEntry s.mgr.ne p.1 p.2.1).follow m
  | .listed t item =>
    match s.track t with
    | none => none
    | some x =>
      let p := item.conf x.conf s.heap
      (s.mgr.step (.readerInsert t p.1.haveUserMeta)).map fun m =>
        (s.addEntry s.mgr.ne p.1 p.2).follow m
  | .sheet t e item =>
    match s.track t with
    | none => none
    | some x =>
      let p := item.conf x.conf s.heap
      (s.mgr.step (.insert e p.1.haveUserMeta)).map fun m =>
        (s.addEntry s.mgr.ne p.1 p.2).follow m
  | .read t r => if (s.track t).isSome then some (s.readTag t r) else none
  | .close t fstop rnd ans =>
    match s.track t with
    | none => none
    | some x =>
      (s.mgr.step (.close t fstop ((x.tags.map Block.val).getD []) rnd ans)).map fun m =>
        ((if s.forgets t then s.keepTags t else s).dropTrack t).follow m
  | .op a =>
    if a.inserts = 0 ∧ a.closesTrack = false then (s.mgr.step a).map s.follow else none

/-- Track `y` has a copy of the tags that the close of track `t` destroys. -/
def sharesTags (s : Session) (y t : Nat) : Bool :=
  match s.track y, s.track t with
  | some z, some x =>
    match s.entry x.qent with
    | some c => (addrs c.confMeta).any fun b => z.conf.blocks.contains b
    | none => false
  | _, _ => false

/-- The slice of `-tracks` goes to one entry, and no other track has a copy of tags that are
destroyed. -/
def Fits (s : Session) : Act → Prop
  | .input _ _ _ => s.cmd.tracks.isNone = true ∨ s.inputs = 0
  | .close t _ _ _ => s.forgets t = true → ∀ y, y < s.mgr.nt → y ≠ t → s.sharesTags y t = false
  | _ => True

instance (s : Session) (a : Act) : Decidable (Fits s a) :=
  match a with
  | .input _ _ _ => inferInstanceAs (Decidable (_ ∨ _))
  | .close t _ _ _ =>
    inferInstanceAs (Decidable (s.forgets t = true → ∀ y, y < s.mgr.nt → y ≠ t → _))
  | .listed _ _ => inferInstanceAs (Decidable True)
  | .sheet _ _ _ => inferInstanceAs (Decidable True)
  | .read _ _ => inferInstanceAs (Decidable True)
  | .op _ => inferInstanceAs (Decidable True)

end Session

end Phiola
