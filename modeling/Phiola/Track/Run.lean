import Phiola.Framework.Machine
import Phiola.Track.Conveyor

/-!
# Running a track

`track_run()` as a machine: one action is the entry of the task handler, one turn of the loop,
the end of the run, or a part of `track_close()`. The filters are the environment: a turn
carries everything that the callbacks it calls may do. `stop()` is an action of its own and
can stand between any two of them.
-/

namespace Phiola

/-- `ffstr`: a region of memory. -/
structure Ffstr where
  ptr : Nat
  len : Nat
  deriving DecidableEq, Repr, Inhabited

def Ffstr.null : Ffstr := ⟨0, 0⟩

/-- `enum STATE`. -/
inductive TrackState
  | running
  | finished
  | stop
  | stopping
  deriving DecidableEq, Repr

/-- `enum PHI_F`, one field a bit. -/
structure ChainFlags where
  first : Bool
  stop : Bool
  fwd : Bool
  finished : Bool
  deriving DecidableEq, Repr, Inhabited

/-- `PHI_E_OTHER` -/
def phiEOther : Nat := 255

/-- The calls on the filters and the moves of the conveyor, oldest first. This is no field of
the source: the properties of whole runs are stated over it. -/
inductive Event
  | opened (f : Nat) (o : Obj)
  | process (f : Nat) (o : Obj) (dataIn : Ffstr)
  | result (f : Nat) (r : PhiR)
  | forward (f : Nat) (d : Ffstr)
  | backward (f : Nat) (r : PhiR) (d : Ffstr)
  | close (f : Nat) (o : Obj)
  deriving DecidableEq, Repr

/-- What the callbacks of one turn of the loop do: the filters they add, the data and the
error they leave in the track, and what they return. `openIn` is there if `open()` changes
`data_in`. -/
structure Behaviour where
  openAdds : List (Option PhiFilter × FilterPos)
  openIn : Option Ffstr := none
  openOut : Ffstr
  openError : Option Nat
  openRet : OpenRet
  adds : List (Option PhiFilter × FilterPos)
  dataIn : Ffstr
  dataOut : Ffstr
  setError : Option Nat
  ret : PhiR

/-- The fields of `phi_track` that the core reads and writes. -/
structure PhiTrack where
  conveyor : Conveyor
  error : Nat
  state : TrackState
  chainFlags : ChainFlags
  dataIn : Ffstr
  dataOut : Ffstr
  log : List Event

namespace PhiTrack

/-- `track_create()` and the calls of `track->filter()` before the start. -/
def create (ifs : List PhiFilter) : PhiTrack where
  conveyor := Conveyor.init.addAll (ifs.map fun i => (some i, .next))
  error := 0
  state := .running
  chainFlags := default
  dataIn := .null
  dataOut := .null
  log := []

def emit (t : PhiTrack) (es : List Event) : PhiTrack := { t with log := t.log ++ es }

def updConveyor (t : PhiTrack) (v : Conveyor) : PhiTrack := { t with conveyor := v }

/-- `open()` of filter `f`: the result is the instance, or the code to go on with. -/
def filterOpen (t : PhiTrack) (f : Nat) (b : Behaviour) : PhiTrack × (Obj ⊕ PhiR) :=
  if (t.conveyor.filtersPool f).iface.hasOpen then
    let t := { t with
      conveyor := t.conveyor.addAll b.openAdds
      dataIn := b.openIn.getD t.dataIn
      dataOut := b.openOut
      error := b.openError.getD t.error }
    match b.openRet with
    | .err => (t, .inr .err)
    | .skip => ({ t with dataOut := t.dataIn }, .inr .done)
    | .obj p =>
      let x := t.conveyor.filtersPool f
      ((t.updConveyor (t.conveyor.setFilter f { x with obj := some (.inst p) })).emit
        [.opened f (.inst p)], .inl (.inst p))
  else
    let x := t.conveyor.filtersPool f
    ((t.updConveyor (t.conveyor.setFilter f { x with obj := some .noOpen })).emit
      [.opened f .noOpen], .inl .noOpen)

/-- `process()` of filter `f`. -/
def filterProcess (t : PhiTrack) (f : Nat) (o : Obj) (b : Behaviour) : PhiTrack × PhiR :=
  let t := t.emit [.process f o t.dataIn, .result f b.ret]
  ({ t with
      conveyor := t.conveyor.addAll b.adds
      dataIn := b.dataIn
      dataOut := b.dataOut
      error := b.setError.getD t.error }, b.ret)

def clearMark (t : PhiTrack) (f : Nat) : PhiTrack :=
  t.updConveyor (t.conveyor.setFilter f { t.conveyor.filtersPool f with backwardSkip := false })

def setFirst (t : PhiTrack) : PhiTrack :=
  { t with chainFlags := { t.chainFlags with first := decide (t.conveyor.cur = 0) } }

/-- `trk_filter_run()` -/
def trkFilterRun (t : PhiTrack) (f : Nat) (b : Behaviour) : PhiTrack × PhiR :=
  let x := t.conveyor.filtersPool f
  if x.backwardSkip = true ∧ t.conveyor.cur ≠ 0 then (t.clearMark f, .more)
  else
    let t := (t.clearMark f).setFirst
    match x.obj with
    | some o => t.filterProcess f o b
    | none =>
      match t.filterOpen f b with
      | (t, .inr r) => (t, r)
      | (t, .inl o) => t.filterProcess f o b

/-- The end of `trk_filter_handle_result()` that goes forward. -/
def goFwd (t : PhiTrack) : PhiTrack × PhiR :=
  let v := t.conveyor
  if v.cur + 1 = v.filters.length then (t, .more)
  else (t.updConveyor { v with cur := v.cur + 1 }, .data)

/-- `trk_filter_handle_result()` -/
def trkFilterHandleResult (t : PhiTrack) (f : Nat) (r : PhiR) : PhiTrack × PhiR :=
  let v := t.conveyor
  match r with
  | .done =>
    let t := t.updConveyor { v with filters := v.filters.eraseIdx v.cur.toNat, cur := v.cur - 1 }
    if t.conveyor.filters.length = 0 then (t, .fin) else t.goFwd
  | .lastout =>
    let t := t.updConveyor { v with filters := v.filters.drop (v.cur.toNat + 1), cur := -1 }
    if t.conveyor.filters.length = 0 then (t, .fin) else t.goFwd
  | .ok =>
    let x := v.filtersPool f
    (t.updConveyor (v.setFilter f { x with backwardSkip := true })).goFwd
  | .data => t.goFwd
  | .more | .back =>
    if v.cur = 0 then (t, .err) else (t.updConveyor { v with cur := v.cur - 1 }, r)
  | .async | .fin | .err => (t, r)

/-- The filter the loop fetches: `*ffslice_itemT(&filters, cur)`. -/
def current (t : PhiTrack) : Nat := t.conveyor.filters.getD t.conveyor.cur.toNat 0

/-- The `switch` of the loop: how the data moves along. -/
def handOver (t : PhiTrack) (r : PhiR) : PhiTrack :=
  match r with
  | .more =>
    { t with chainFlags := { t.chainFlags with fwd := false }, dataIn := .null, dataOut := .null }
  | .back =>
    { t with
      chainFlags := { t.chainFlags with fwd := false }
      dataIn := t.dataOut, dataOut := .null }
  | .data =>
    { t with
      chainFlags := { t.chainFlags with fwd := true }
      dataIn := t.dataOut, dataOut := .null }
  | .err => { t with error := if t.error = 0 then phiEOther else t.error }
  | _ => t

/-- The move of the conveyor that a turn ended with. -/
def moveEvent (t : PhiTrack) (r : PhiR) : List Event :=
  match r with
  | .data => [.forward t.current t.dataIn]
  | .more | .back => [.backward t.current r t.dataIn]
  | _ => []

/-- The check at the top of the loop. -/
def loopTop (t : PhiTrack) : PhiTrack :=
  if t.state = .stop then
    { t with state := .stopping, chainFlags := { t.chainFlags with stop := true } }
  else t

/-- One turn of the loop of `track_run()`. -/
def turn (t : PhiTrack) (b : Behaviour) : PhiTrack × PhiR :=
  let t0 := t.loopTop
  let f := t0.current
  let p := t0.trkFilterRun f b
  let h := p.1.trkFilterHandleResult f p.2
  let t3 := h.1.handOver h.2
  (t3.emit (t3.moveEvent h.2), h.2)

/-- The body of the loop of `conveyor_close()`. -/
def closeFilter (t : PhiTrack) (i : Nat) : PhiTrack :=
  let v := t.conveyor
  let x := v.filtersPool i
  match x.obj with
  | none => t
  | some o =>
    if x.iface.hasClose then
      -- the logger reads the current filter's name from the slice
      (t.updConveyor { v.setFilter i { x with obj := none } with
        filters := v.filters.set 0 i, cur := 0 }).emit [.close i o]
    else t.updConveyor (v.setFilter i { x with obj := none })

/-- `conveyor_close()`: the pool from its last entry to its first. -/
def conveyorClose (t : PhiTrack) : PhiTrack :=
  (List.range maxFilters).reverse.foldl closeFilter t

end PhiTrack

/-- Where the handling of a track stands: before `track_start()`, no handler active, inside the
loop, at the label `fin`, in `track_close()` before and after its task is deleted. -/
inductive Pc
  | created
  | idle
  | loop
  | fin
  | finished
  | closing
  | deleted
  | freed
  deriving DecidableEq, Repr

structure TrackRun where
  t : PhiTrack
  pc : Pc

/-- `start` is `track_start()`, `discard` is `track_close()` on a track that was not started,
`enter` is the call of `track_run()`, `stop` is the exchange in `track_xstop()`. -/
inductive Act
  | start
  | discard
  | enter
  | turn (b : Behaviour)
  | fin
  | delTask
  | free
  | stop

namespace TrackRun

def create (ifs : List PhiFilter) : TrackRun := ⟨PhiTrack.create ifs, .created⟩

/-- `track_start()`: without filters it does nothing. -/
def start (s : TrackRun) : TrackRun :=
  if s.t.conveyor.filters.length = 0 then s
  else ⟨s.t.updConveyor { s.t.conveyor with cur := 0 }, .idle⟩

def afterTurn : PhiR → Pc
  | .async => .idle
  | .fin | .err => .fin
  | _ => .loop

/-- The end of `track_run()`: a track that nobody stopped waits for `stop()`. -/
def fin (t : PhiTrack) : TrackRun :=
  if t.state = .running then
    ⟨{ t with
        state := .finished
        chainFlags := { t.chainFlags with finished := true } }.conveyorClose, .finished⟩
  else ⟨t, .closing⟩

/-- `track_xstop()` up to the posting of the task. -/
def stop (t : PhiTrack) : PhiTrack := if t.state = .running then { t with state := .stop } else t

def step (s : TrackRun) : Act → Option TrackRun
  | .start => if s.pc = .created then some s.start else none
  | .discard => if s.pc = .created then some ⟨s.t, .closing⟩ else none
  | .enter =>
    if s.pc = .idle ∨ s.pc = .finished then
      some ⟨s.t, if s.t.state = .finished then .closing else .loop⟩
    else none
  | .turn b =>
    if s.pc = .loop then some ⟨(s.t.turn b).1, afterTurn (s.t.turn b).2⟩ else none
  | .fin => if s.pc = .fin then some (fin s.t) else none
  | .delTask => if s.pc = .closing then some ⟨s.t, .deleted⟩ else none
  | .free => if s.pc = .deleted then some ⟨s.t.conveyorClose, .freed⟩ else none
  | .stop => if s.pc = .freed then none else some ⟨stop s.t, s.pc⟩

end TrackRun

end Phiola
