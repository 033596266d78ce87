import Phiola.Framework.Machine
import Mathlib.Logic.Function.Basic

/-!
# A conversion queue on several workers

`qe_close()` runs on the worker of its track, so several workers are in it, and in the
`q_play_next()` it calls, at once. A worker is a sequential process here, and each of its steps is
one read or one write of what they share. The queue lists `n` files, entry `e` at position `e`; the
flags `random` and `repeat_all` are off and every track can be created.
-/

namespace Phiola

/-- `struct wrk_ctx`: up to `cap` workers, of which `len` run. -/
structure WrkCtx where
  cap : Nat
  len : Nat
  njobs : Nat → Int

namespace WrkCtx

/-- `wrkx_available()` -/
def available (x : WrkCtx) : Bool :=
  decide (x.len < x.cap) || (List.range x.len).any fun w => x.njobs w == 0

/-- `wrkx_assign()`, which chose `w`: a worker that runs or the next one of the pool. -/
def assign (x : WrkCtx) (w : Nat) : Option WrkCtx :=
  let njobs := Function.update x.njobs w (x.njobs w + 1)
  if w < x.len then some { x with njobs := njobs }
  else if w = x.len ∧ w < x.cap then some { x with len := w + 1, njobs := njobs }
  else none

/-- `wrkx_release()` -/
def release (x : WrkCtx) (w : Nat) : WrkCtx :=
  { x with njobs := Function.update x.njobs w (x.njobs w - 1) }

theorem assign_some {x y : WrkCtx} {w : Nat} (h : x.assign w = some y) (hlen : x.len ≤ x.cap) :
    y.cap = x.cap ∧ y.len ≤ x.cap ∧ w < x.cap := by
  unfold assign at h
  dsimp only at h
  split at h
  · cases h
    exact ⟨rfl,hlen,by omega⟩
  · split at h
    · cases h
      rename_i hw
      exact ⟨rfl,hw.2,hw.2⟩
    · cases h

end WrkCtx

/-- The part of `struct q_entry` that the workers share. `freed` is no field of the source. -/
structure ParEntry where
  index : Int
  used : Int
  trk : Option Nat
  freed : Bool

/-- How far a track is: it was created, its entry counts it, `active_n` counts it, it was started;
`qe_close()` was called, `active_n` no longer counts it, its entry no longer counts it. -/
inductive Phase
  | created
  | referenced
  | counted
  | running
  | closing
  | uncounted
  | closed
  deriving DecidableEq, Repr

/-- A track, the worker it is assigned to and whether that worker was released. -/
structure ParTrack where
  qent : Nat
  worker : Nat
  phase : Phase
  released : Bool

inductive Caller
  | playNext
  | play
  deriving DecidableEq, Repr

/-- The next step of a process. The arguments are its local variables: the entries, the track that
`qe_play()` starts and the counter that was read. -/
inductive QPc
  | idle
  -- `qe_close()` up to the call of `q_play_next()`
  | closeTrk
  | clearTrk
  | activeRead
  | activeDec (v : Int)
  -- `q_play_next()`, and `q_play(NULL)` with `readPlace`
  | nextCursor
  | nextIndex (c : Nat)
  | readPlace
  -- `qe_index()`
  | indexCheck (k : Caller) (e : Nat)
  | indexFind (k : Caller) (e : Nat)
  | indexReturn (k : Caller) (e : Nat)
  -- the loop of `q_play()` with `qe_play()`
  | setCursor (e : Nat)
  | setPlace (e : Nat) (i : Int)
  | create (e : Nat)
  | setTrk (e t : Nat)
  | usedRead (e t : Nat)
  | usedInc (e t : Nat) (v : Int)
  | countRead (e t : Nat)
  | countInc (e t : Nat) (v : Int)
  | start (e t : Nat)
  | available (e : Nat)
  | nextEntry (e : Nat)
  -- `qe_unref()` and `qe_free()`
  | unrefRead
  | unrefDec (v : Int)
  | freeRead
  | freeClear

instance : (pc : QPc) → Decidable (pc = .idle) := fun pc => by
  cases pc
  case idle => exact isTrue rfl
  all_goals exact isFalse QPc.noConfusion

/-- `job` is the track for which a worker is in `qe_close()`. -/
structure ParQueue where
  n : Nat
  cursor : Option Nat
  cursorIndex : Int
  activeN : Int
  ent : Nat → ParEntry
  trk : Nat → ParTrack
  nt : Nat
  wx : WrkCtx
  pc : Nat → QPc
  job : Nat → Option Nat
  started : List Nat

namespace ParQueue

/-- The queue is filled with `n` files, and the main worker, which has a pool of `m` more, is about
to call `q_play(NULL)`. -/
def init (n m : Nat) : ParQueue where
  n := n
  cursor := none
  cursorIndex := 0
  activeN := 0
  ent := fun e => ⟨e,1,none,false⟩
  trk := fun _ => ⟨0,0,.created,false⟩
  nt := 0
  wx := ⟨m + 1,1,fun _ => 0⟩
  pc := fun p => if p = 0 then .readPlace else .idle
  job := fun _ => none
  started := []

def goto (s : ParQueue) (p : Nat) (pc : QPc) : ParQueue := { s with pc := Function.update s.pc p pc }

def setEnt (s : ParQueue) (e : Nat) (x : ParEntry) : ParQueue :=
  { s with ent := Function.update s.ent e x }

def setPhase (s : ParQueue) (t : Nat) (ph : Phase) : ParQueue :=
  { s with trk := Function.update s.trk t { s.trk t with phase := ph } }

theorem setPhase_self (s : ParQueue) (t : Nat) (ph : Phase) :
    (s.setPhase t ph).trk t = { s.trk t with phase := ph } := by
  simp [setPhase]

theorem setPhase_of_ne (s : ParQueue) {t u : Nat} (ph : Phase) (h : u ≠ t) :
    (s.setPhase t ph).trk u = s.trk u := by
  simp [setPhase,h]

/-- `q_get()` -/
def qGet (s : ParQueue) (i : Int) : Option Nat := if 0 ≤ i ∧ i < s.n then some i.toNat else none

/-- `q_find()` -/
def qFind (s : ParQueue) (e : Nat) : Int := if e < s.n then e else -1

/-- The return from `q_play()` or `q_play_next()`, to the user or to `qe_close()`. -/
def return_ (s : ParQueue) (p : Nat) : ParQueue :=
  match s.job p with
  | none => s.goto p .idle
  | some _ => s.goto p .unrefRead

/-- On with the entry at position `i`. -/
def pick (s : ParQueue) (p : Nat) (i : Int) : ParQueue :=
  match s.qGet i with
  | none => s.return_ p
  | some e => s.goto p (.setCursor e)

/-- The end of `qe_close()` of track `t`. -/
def finish (s : ParQueue) (p t : Nat) : ParQueue :=
  { (s.setPhase t .closed).goto p .idle with job := Function.update s.job p none }

/-- One step of process `p` in `qe_close()`, for track `t`. -/
def closeStep (s : ParQueue) (p t : Nat) : QPc → Option ParQueue
  | .closeTrk =>
    some (s.goto p (if (s.ent (s.trk t).qent).trk = some t then .clearTrk else .activeRead))
  | .clearTrk =>
    let e := (s.trk t).qent
    some ((s.setEnt e { s.ent e with trk := none }).goto p .activeRead)
  | .activeRead => some (s.goto p (.activeDec s.activeN))
  | .activeDec v =>
    some ({ s with activeN := v - 1 }.setPhase t .uncounted |>.goto p .nextCursor)
  | .unrefRead => some (s.goto p (.unrefDec (s.ent (s.trk t).qent).used))
  | .unrefDec v =>
    let e := (s.trk t).qent
    let s := s.setEnt e { s.ent e with used := v - 1 }
    some (if v - 1 ≠ 0 then s.finish p t else s.goto p .freeRead)
  | .freeRead =>
    let e := (s.trk t).qent
    some (if s.cursor = some e then s.goto p .freeClear
      else (s.setEnt e { s.ent e with freed := true }).finish p t)
  | .freeClear =>
    let e := (s.trk t).qent
    some ({ s with cursor := none }.setEnt e { s.ent e with freed := true } |>.finish p t)
  | _ => none

/-- One step of process `p` in `q_play_next()` or `q_play()`; `w` is the worker that a new track is
assigned to. -/
def playStep (s : ParQueue) (p w : Nat) : QPc → Option ParQueue
  | .nextCursor =>
    some (match s.cursor with
      | none => s.goto p .readPlace
      | some c => s.goto p (.nextIndex c))
  | .nextIndex c =>
    some (s.goto p (if (s.ent c).index ≠ -1 then .indexCheck .playNext c else .readPlace))
  | .readPlace => some (s.pick p s.cursorIndex)
  | .indexCheck k e =>
    some (s.goto p (if s.qGet (s.ent e).index ≠ some e then .indexFind k e else .indexReturn k e))
  | .indexFind k e =>
    some ((s.setEnt e { s.ent e with index := s.qFind e }).goto p (.indexReturn k e))
  | .indexReturn .playNext c => some (s.pick p ((s.ent c).index + 1))
  | .indexReturn .play e => some (s.goto p (.setPlace e (s.ent e).index))
  | .setCursor e => some ({ s with cursor := some e }.goto p (.indexCheck .play e))
  | .setPlace e i => some ({ s with cursorIndex := i }.goto p (.create e))
  | .create e => (s.wx.assign w).map fun x =>
    { s with
      wx := x
      trk := Function.update s.trk s.nt ⟨e,w,.created,false⟩
      nt := s.nt + 1 }.goto p (.setTrk e s.nt)
  | .setTrk e t => some ((s.setEnt e { s.ent e with trk := some t }).goto p (.usedRead e t))
  | .usedRead e t => some (s.goto p (.usedInc e t (s.ent e).used))
  | .usedInc e t v =>
    some ((s.setEnt e { s.ent e with used := v + 1 }).setPhase t .referenced |>.goto p
      (.countRead e t))
  | .countRead e t => some (s.goto p (.countInc e t s.activeN))
  | .countInc e t v =>
    some ({ s with activeN := v + 1 }.setPhase t .counted |>.goto p (.start e t))
  | .start e t =>
    some ({ s with started := s.started ++ [e] }.setPhase t .running |>.goto p (.available e))
  | .available e => some (if s.wx.available then s.goto p (.nextEntry e) else s.return_ p)
  | .nextEntry e => some (s.pick p ((s.ent e).index + 1))
  | _ => none

inductive Act
  | step (p w : Nat)
  | complete (t : Nat)
  | release (t : Nat)
  deriving DecidableEq, Repr

/-- A process makes a step; a track ends on its worker, which is free; the owner's `stop()` of a
finished track releases the worker. -/
def step (s : ParQueue) : Act → Option ParQueue
  | .step p w =>
    if p < s.wx.cap then
      (s.playStep p w (s.pc p)).or ((s.job p).bind fun t => s.closeStep p t (s.pc p))
    else none
  | .complete t =>
    let w := (s.trk t).worker
    if t < s.nt ∧ (s.trk t).phase = .running ∧ s.pc w = .idle then
      some { (s.setPhase t .closing).goto w .closeTrk with job := Function.update s.job w (some t) }
    else none
  | .release t =>
    let x := s.trk t
    if t < s.nt ∧ x.phase = .closed ∧ x.released = false then
      some { s with
        wx := s.wx.release x.worker
        trk := Function.update s.trk t { x with released := true } }
    else none

end ParQueue

end Phiola
