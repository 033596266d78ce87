import Phiola.Queue.Store

/-!
# Playing, expanding and closing

What `q_play()`, `qe_play()`, `qe_expand()` and `qe_close()` do with the store. An answer of the
environment says whether the track of an entry can be created and whether `workers_available()`
holds after its start; a call for which the list of answers is too short has no result here.
-/

namespace Phiola

structure Answer where
  created : Bool
  available : Bool
  deriving DecidableEq, Repr

namespace QueueMgr

/-- `q_random()` from the value of `ffrand_get()`: the position and the next half, or nothing when
it divides by zero. -/
def qRandom (v : PhiQueue) (rnd : Nat) : Option (Int × Bool) :=
  let n := v.index.length
  if n = 1 then some (0, v.randomSplit)
  else if v.randomSplit then
    if n - n / 2 = 0 then none else some ((n / 2 + rnd % (n - n / 2) : Nat), false)
  else
    if n / 2 = 0 then none else some ((rnd % (n / 2) : Nat), true)

/-- `q_get_index()` -/
def qGetIndex (s : QueueMgr) (q : Nat) (i : Int) (rnd : Nat) : Option (QueueMgr × Int) :=
  let v := s.queue q
  if v.random then
    match qRandom v rnd with
    | none => none
    | some (i, half) => some (s.setQueue q { v with randomSplit := half }, i)
  else if (i < 0 ∨ (v.index.length : Int) ≤ i) ∧ v.repeatAll = true then some (s, 0)
  else some (s, i)

/-- The start of a track for entry `e`, by `qe_play()` or `qe_expand()`. -/
def startTrack (s : QueueMgr) (e : Nat) (expands : Option ListKind) : QueueMgr :=
  let x := s.ent e
  let v := s.queue x.q
  let s := s.setEnt e { x with
    trk := some s.nt
    used := x.used + 1
    expand := x.expand || expands.isSome }
  let s := s.setQueue x.q { v with activeN := v.activeN + 1 }
  let s := s.setTrk s.nt ⟨e,expands,e,false,false,false⟩
  { s with nt := s.nt + 1 }

/-- `qe_play()` -/
def qePlay (s : QueueMgr) (e : Nat) (created : Bool) : QueueMgr × Int :=
  let x := s.ent e
  if x.expand then (s.setEnt e { x with playNextOnClose := true }, 1)
  else if created then ({ s.startTrack e none with started := s.started ++ [e] }, 0)
  else (s, -1)

/-- `qe_expand()`; `kind` is what the name of the entry stands for. -/
def qeExpand (s : QueueMgr) (e : Nat) (kind : Option ListKind) (created : Bool) :
    QueueMgr × Int :=
  match kind with
  | none => (s, -1)
  | some k => if created then (s.startTrack e (some k), 0) else (s, -1)

/-- `q_add()` -/
def qAdd (s : QueueMgr) (q : Nat) (um : Bool) (kind : Option ListKind) (created : Bool) :
    QueueMgr :=
  let p := s.qInsert q (s.queue q).index.length um
  (p.1.qeExpand p.2 kind created).1

/-- `q->cursor = e; q->cursor_index = qe_index(e);` -/
def setCursor (s : QueueMgr) (q e : Nat) : QueueMgr :=
  let p := (s.setQueue q { s.queue q with cursor := some e }).qeIndex e
  p.1.setQueue q { p.1.queue q with cursorIndex := p.2 }

/-- The loop of `q_play()` in a conversion queue. -/
def playLoop (s : QueueMgr) (q e : Nat) : List Answer → Option (QueueMgr × Int)
  | [] => none
  | a :: rest =>
    let p := (s.setCursor q e).qePlay e a.created
    if p.2 ≠ 0 then some (p.1, -1)
    else if a.available = false then some (p.1, 0)
    else
      let i := (p.1.ent e).index + 1
      match qGet (p.1.queue q) i with
      | none => some (p.1, 0)
      | some e => playLoop p.1 q e rest

/-- `if (q->cursor) qe_stop(q->cursor);` -/
def stopCursor (s : QueueMgr) (q : Nat) : QueueMgr :=
  match (s.queue q).cursor with
  | none => s
  | some c => s.qeStop c

/-- `q_play()` from the choice of the entry on. -/
def playEntry (s : QueueMgr) (q e : Nat) (ans : List Answer) : Option (QueueMgr × Int) :=
  if (s.queue (s.ent e).q).conversion then s.playLoop q e ans
  else
    match ans with
    | [] => none
    | a :: _ =>
      let p := ((s.stopCursor q).setCursor q e).qePlay e a.created
      if p.2 ≠ 0 then some (p.1, -1) else some (p.1, 0)

/-- `q_play()`, with the queue that stands for a null pointer already chosen. -/
def qPlay (s : QueueMgr) (q : Nat) (e : Option Nat) (rnd : Nat) (ans : List Answer) :
    Option (QueueMgr × Int) :=
  match e with
  | some e => s.playEntry (s.ent e).q e ans
  | none =>
    match s.qGetIndex q (s.queue q).cursorIndex rnd with
    | none => none
    | some (s, i) =>
      match qGet (s.queue q) i with
      | none => some (s, -1)
      | some e => s.playEntry q e ans

/-- `q_play_next()` and `q_play_prev()`, which differ in the index that they look up. -/
def playFrom (index : QueueMgr → Nat → QueueMgr × Int) (s : QueueMgr) (q rnd : Nat)
    (ans : List Answer) : Option (QueueMgr × Int) :=
  match (s.queue q).cursor with
  | none => s.qPlay q none rnd ans
  | some c =>
    let p := if (s.ent c).index ≠ -1 then index s c else (s, (s.queue q).cursorIndex)
    match p.1.qGetIndex q p.2 rnd with
    | none => none
    | some (s, i) =>
      match qGet (s.queue q) i with
      | none => some (s, -1)
      | some e => s.qPlay q (some e) rnd ans

/-- `q_play_next()` -/
def qPlayNext (s : QueueMgr) (q rnd : Nat) (ans : List Answer) : Option (QueueMgr × Int) :=
  playFrom (fun s c => ((s.qeIndex c).1, (s.qeIndex c).2 + 1)) s q rnd ans

/-- `q_play_prev()` -/
def qPlayPrev (s : QueueMgr) (q rnd : Nat) (ans : List Answer) : Option (QueueMgr × Int) :=
  playFrom (fun s c => (s, (s.ent c).index - 1)) s q rnd ans

/-- The part of `qe_close()` for the track that the entry points to. -/
def forgetTrack (s : QueueMgr) (e t : Nat) (tags : Meta) : QueueMgr :=
  let x := s.ent e
  if x.trk = some t then
    let x := { x with trk := none }
    let x := if (s.queue x.q).conversion = false ∧ x.haveUserMeta = false then
      { x with confMeta := tags } else x
    let s := s.setEnt e x
    if x.expand then s.setTrk t { s.trk t with stopped := true } else s
  else s

theorem forgetTrack_eq (s : QueueMgr) (e t : Nat) (tags : Meta) : s.forgetTrack e t tags =
    if (s.ent e).trk = some t then
      (s.setEnt e { s.ent e with
        trk := none
        confMeta := if (s.queue (s.ent e).q).conversion = false ∧ (s.ent e).haveUserMeta = false
          then tags else (s.ent e).confMeta }).setTrk t { s.trk t with
        stopped := (s.trk t).stopped || (s.ent e).expand }
    else s := by
  unfold forgetTrack
  dsimp only
  split
  · cases (s.ent e).expand <;> split <;> simp [setTrk,setEnt,Function.update_eq_self]
  · rfl

/-- `qe_close()`: `tags` is what the filters left in `t->meta` and `fstop` the flag
`PHI_FSTOP`. -/
def qeClose (s : QueueMgr) (t : Nat) (fstop : Bool) (tags : Meta) (rnd : Nat)
    (ans : List Answer) : Option QueueMgr :=
  let e := (s.trk t).qent
  let s := s.forgetTrack e t tags
  let x := s.ent e
  let v := s.queue x.q
  let s := s.setQueue x.q { v with activeN := v.activeN - 1 }
  let s := s.setTrk t { s.trk t with closed := true }
  if fstop = false ∧ (x.expand = false ∨ x.playNextOnClose = true) then
    match s.qPlayNext x.q rnd ans with
    | none => none
    | some p => some (p.1.qeUnref e)
  else some (s.qeUnref e)

/-- The store when `qe_close()` of track `t` comes to the call of `q_play_next()`. -/
def closing (s : QueueMgr) (t : Nat) (tags : Meta) : QueueMgr :=
  let e := (s.trk t).qent
  let s := s.forgetTrack e t tags
  let v := s.queue (s.ent e).q
  let s := s.setQueue (s.ent e).q { v with activeN := v.activeN - 1 }
  s.setTrk t { s.trk t with closed := true }

theorem qeClose_eq (s : QueueMgr) (t : Nat) (fstop : Bool) (tags : Meta) (rnd : Nat)
    (ans : List Answer) : s.qeClose t fstop tags rnd ans =
      let e := (s.trk t).qent
      let x := (s.closing t tags).ent e
      if fstop = false ∧ (x.expand = false ∨ x.playNextOnClose = true) then
        ((s.closing t tags).qPlayNext x.q rnd ans).map fun p => p.1.qeUnref e
      else some ((s.closing t tags).qeUnref e) := by
  unfold qeClose closing
  dsimp only
  split
  · split
    · rename_i hn
      rw [if_pos (by assumption),setTrk_ent,setQueue_ent,hn]
      rfl
    · rename_i p hp
      rw [if_pos (by assumption),setTrk_ent,setQueue_ent,hp]
      rfl
  · rw [if_neg (by assumption)]

/-- The reader of a list has the next entry: `m3u_add()` and the body of the loop of
`qu_add_dir_r()`. -/
def readerInsert (s : QueueMgr) (t : Nat) (um : Bool) : QueueMgr :=
  let x := s.trk t
  let p := s.qeInsert x.quCur um
  let s := p.1.setTrk t { p.1.trk t with quCur := p.2, removed := true }
  if x.removed then s else (s.qeRemove x.qent).1

/-- `m3u_close()`, which runs before `qe_close()` of the same track. -/
def readerClose (s : QueueMgr) (t : Nat) : QueueMgr :=
  let x := s.trk t
  if x.expands = some .m3u ∧ x.removed = false then (s.qeRemove x.qent).1 else s

/-- `conveyor_close()` for a track of the queue. -/
def closeTrack (s : QueueMgr) (t : Nat) (fstop : Bool) (tags : Meta) (rnd : Nat)
    (ans : List Answer) : Option QueueMgr :=
  (s.readerClose t).qeClose t fstop tags rnd ans

/-- The operations on the queues and the steps of the tracks that they started. -/
inductive Op
  | create (conversion random repeatAll : Bool)
  | destroy (q : Option Nat)
  | select (pos : Nat)
  | qselect (q : Nat)
  | conf (q : Option Nat) (conversion random repeatAll : Bool)
  | add (q : Option Nat) (um : Bool) (kind : Option ListKind) (created : Bool)
  | insertAt (q pos : Nat) (um : Bool)
  | insert (e : Nat) (um : Bool)
  | clear (q : Option Nat)
  | filter (q : Option Nat) (keep : Nat → Bool)
  | play (q e : Option Nat) (rnd : Nat) (ans : List Answer)
  | playNext (q : Option Nat) (rnd : Nat) (ans : List Answer)
  | playPrev (q : Option Nat) (rnd : Nat) (ans : List Answer)
  | ref (q : Option Nat) (pos : Nat)
  | unref (e : Nat)
  | removeAt (q : Option Nat) (pos : Nat)
  | remove (e : Nat)
  | sort (q : Option Nat) (l : List Nat)
  | readerInsert (t : Nat) (um : Bool)
  | close (t : Nat) (fstop : Bool) (tags : Meta) (rnd : Nat) (ans : List Answer)

/-- A pointer to a queue that its user may pass on. -/
def liveQueue (s : QueueMgr) (q : Nat) : Prop := q < s.nq ∧ (s.queue q).freed = false

/-- A pointer to an entry that its user may pass on. -/
def liveEnt (s : QueueMgr) (e : Nat) : Prop := e < s.ne ∧ (s.ent e).freed = false

def openTrk (s : QueueMgr) (t : Nat) : Prop := t < s.nt ∧ (s.trk t).closed = false

instance (s : QueueMgr) (q : Nat) : Decidable (s.liveQueue q) :=
  inferInstanceAs (Decidable (_ ∧ _))

instance (s : QueueMgr) (e : Nat) : Decidable (s.liveEnt e) :=
  inferInstanceAs (Decidable (_ ∧ _))

instance (s : QueueMgr) (t : Nat) : Decidable (s.openTrk t) :=
  inferInstanceAs (Decidable (_ ∧ _))

/-- The operation `f` on the queue that `q` stands for. -/
def onQueue (s : QueueMgr) (q : Option Nat) (f : Nat → Option QueueMgr) : Option QueueMgr :=
  match s.theQueue q with
  | none => none
  | some q => if s.liveQueue q then f q else none

def step (s : QueueMgr) : Op → Option QueueMgr
  | .create c r a => some (s.qCreate c r a)
  | .destroy q => s.onQueue q fun q => some (s.qDestroy q)
  | .select pos => some (if pos < s.lists.length then { s with selected := pos } else s)
  | .qselect q =>
    some (match s.lists.idxOf? q with
      | none => s
      | some i => { s with selected := i })
  | .conf q c r a => s.onQueue q fun q =>
    some (s.setQueue q { s.queue q with conversion := c, random := r, repeatAll := a })
  | .add q um kind created => s.onQueue q fun q => some (s.qAdd q um kind created)
  | .insertAt q pos um => s.onQueue (some q) fun q =>
    if pos ≤ (s.queue q).index.length then some (s.qInsert q pos um).1 else none
  | .insert e um => if s.liveEnt e then some (s.qeInsert e um).1 else none
  | .clear q => s.onQueue q fun q => some (s.qClear q)
  | .filter q keep => s.onQueue q fun q => some (s.qFilter q keep)
  | .play q (some e) rnd ans =>
    if s.liveEnt e then (s.qPlay (q.getD 0) (some e) rnd ans).map Prod.fst else none
  | .play q none rnd ans => s.onQueue q fun q => (s.qPlay q none rnd ans).map Prod.fst
  | .playNext q rnd ans => s.onQueue q fun q => (s.qPlayNext q rnd ans).map Prod.fst
  | .playPrev q rnd ans => s.onQueue q fun q => (s.qPlayPrev q rnd ans).map Prod.fst
  | .ref q pos => s.onQueue q fun q => some (s.qRef q pos)
  | .unref e =>
    if 0 < s.refs e then
      some ({ s with refs := Function.update s.refs e (s.refs e - 1) }.qeUnref e)
    else none
  | .removeAt q pos => s.onQueue q fun q => some (s.qRemoveAt q pos).1
  | .remove e => if s.liveEnt e then some (s.qeRemove e).1 else none
  | .sort q l => s.onQueue q fun q =>
    if l.Perm (s.queue q).index then some (s.qSort q l) else none
  | .readerInsert t um =>
    if s.openTrk t ∧ (s.trk t).expands.isSome then some (s.readerInsert t um) else none
  | .close t fstop tags rnd ans =>
    if s.openTrk t ∧ (fstop = true → (s.trk t).stopped = true) then
      s.closeTrack t fstop tags rnd ans
    else none

end QueueMgr

end Phiola
