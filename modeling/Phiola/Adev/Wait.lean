import Phiola.Framework.Machine

/-!
# Waiting for an audio device

A track that reads from a device or writes to it waits when the device has no data or no room.
The device's own thread fills or drains the buffer and calls the event callback after each
change; the track and the callback meet in the variable `state`.
-/

namespace Phiola.Adev

/-- `enum ST`, once the device is open. -/
inductive ST
  | waiting
  | signalled
  | processing
  | feeding
deriving DecidableEq, Repr

/-- The filter: `audio_in_read()` or `audio_out_write()`. -/
inductive Dir
  | capture
  | playback
deriving DecidableEq, Repr

/-- What a track waits for: data, room, or the end of the buffer. -/
inductive Wait
  | data
  | room
  | drained
deriving DecidableEq, Repr

inductive Code
  | done
  | fin
  | err
deriving DecidableEq, Repr

/-- Where the track is: in other filters, before a device call, before a store to `state`, about
to return `PHI_ASYNC`, suspended (by the device or by a pause), or done with the filter. -/
inductive Pc
  | out
  | read
  | write (len : Nat) (first : Bool)
  | drain
  | store_waiting (k : Wait)
  | store_processing
  | store_feeding
  | ret_async (k : Wait)
  | suspended (k : Option Wait)
  | over (c : Code)
deriving DecidableEq, Repr

/-- The track may call the filter. -/
def Pc.callable : Pc → Bool
  | .out | .suspended _ => true
  | _ => false

/-- The device call returned 0 and `ST_WAITING` is not stored yet. -/
def Pc.deciding : Pc → Bool
  | .store_waiting _ => true
  | _ => false

/-- The filter, the flags of the track that its commands set, and the device: `fill` of its `cap`
bytes are in use, `due` says that its thread has to report a change. `heard` says that the
callback ran since the device call that returned 0, `wakes` counts the wakes since the track
decided to wait. -/
structure World where
  state : ST
  pause : Bool
  clear : Bool
  seek_req : Bool
  cap : Nat
  fill : Nat
  due : Bool
  pc : Pc
  heard : Bool
  wakes : Nat
deriving DecidableEq, Repr

/-- An open device: `audio_in_open()` leaves `ST_SIGNALLED` and `audio_out_open()` leaves `ST_FEEDING`,
over which the players store `ST_WAITING`. -/
def init (state : ST) (cap : Nat) : World := ⟨state,false,false,false,cap,0,false,.out,false,0⟩

/-- `audio_oncapt()`, `audio_out_onplay()` -/
def on_event (w : World) : World :=
  {w with
    state := .signalled
    wakes := w.wakes + if w.state = .waiting then 1 else 0
    heard := true
    due := false}

/-- What a device call returns: a number of bytes (or the end of draining), 0, `-FFAUDIO_ESYNC`
or another error. -/
inductive Res
  | got (n : Nat)
  | nothing
  | sync
  | error
deriving DecidableEq, Repr

/-- The loop of `audio_out_write()` with `len` bytes left, and what follows it. -/
def write_next (len : Nat) (first : Bool) : Pc :=
  if len ≠ 0 then .write len first else if first then .drain else .store_feeding

/-- `audio_out_write()` up to its loop. -/
def write_enter (w : World) (len : Nat) (stop first : Bool) : World :=
  if stop then {w with pc := .over .fin}
  else if w.clear ∧ w.seek_req then {w with clear := false, fill := 0, pc := .out}
  else
    let fill := if w.clear then 0 else w.fill
    if w.pause then {w with clear := false, fill := fill, pause := false, pc := .suspended none}
    else {w with clear := false, fill := fill, pc := write_next len first}

/-- The steps of the track, of the commands and of the device's thread. -/
inductive Act
  | call (len : Nat) (stop first : Bool)
  | device (r : Res)
  | store
  | ret
  | command (pause clear seek_req : Bool)
  | change (n : Nat)
  | event
deriving DecidableEq, Repr

def step (d : Dir) (w : World) : Act → Option World
  | .call len stop first =>
    if w.pc.callable then
      some (match d with
        | .capture => {w with pc := if stop then .over .done else .read}
        | .playback => write_enter w len stop first)
    else none
  | .device r =>
    match w.pc, r with
    | .read, .got n =>
      if 0 < n ∧ n ≤ w.fill then some {w with fill := w.fill - n, pc := .store_processing} else none
    | .read, .nothing =>
      if w.fill = 0 then some {w with pc := .store_waiting .data, heard := false} else none
    | .read, .sync => some w
    | .read, .error => some {w with pc := .over .done}
    | .write len first, .got n =>
      if 0 < n ∧ n ≤ len ∧ w.fill + n ≤ w.cap then
        some {w with fill := w.fill + n, pc := write_next (len - n) first}
      else none
    | .write _ _, .nothing =>
      if w.cap ≤ w.fill then some {w with pc := .store_waiting .room, heard := false} else none
    | .write _ _, .sync => some w
    | .write _ _, .error => some {w with pc := .over .err}
    | .drain, .got _ => if w.fill = 0 then some {w with pc := .over .done} else none
    | .drain, .nothing =>
      if w.fill ≠ 0 then some {w with pc := .store_waiting .drained, heard := false} else none
    | .drain, _ => some {w with pc := .over .err}
    | _, _ => none
  | .store =>
    match w.pc with
    | .store_waiting k => some {w with state := .waiting, wakes := 0, pc := .ret_async k}
    | .store_processing => some {w with state := .processing, pc := .out}
    | .store_feeding => some {w with state := .feeding, pc := .out}
    | _ => none
  | .ret =>
    match w.pc with
    | .ret_async k => some {w with pc := .suspended (some k)}
    | _ => none
  | .command pause clear seek_req =>
    some {w with pause := pause, clear := clear, seek_req := seek_req}
  | .change n =>
    if w.due = false ∧ 0 < n then
      match d with
      | .capture => if w.fill + n ≤ w.cap then some {w with fill := w.fill + n, due := true} else none
      | .playback => if n ≤ w.fill then some {w with fill := w.fill - n, due := true} else none
    else none
  | .event => if w.due then some (on_event w) else none

/-- The device has what the track waits for. -/
def ready (w : World) : Wait → Bool
  | .data => 0 < w.fill
  | .room => w.fill < w.cap
  | .drained => w.fill = 0

/-- A suspended track for which the callback ran is woken, none is left in `ST_WAITING` after the
last event with what it waits for in the device, and none is woken twice. -/
structure Kept (w : World) : Prop where
  woken : ∀ k, w.pc = .suspended (some k) → w.heard = true → w.wakes = 1
  found : ∀ k, w.pc = .suspended (some k) → w.state = .waiting → w.due = false → ready w k = false
  once : w.wakes ≤ 1

/-- The callback does not run between a device call that returned 0 and the store that follows. -/
def Apart (w : World) : Act → Prop
  | .event => w.pc.deciding = false
  | _ => True

instance (w : World) : ∀ a, Decidable (Apart w a)
  | .event => inferInstanceAs (Decidable (w.pc.deciding = false))
  | .call _ _ _ | .device _ | .store | .ret | .command _ _ _ | .change _ =>
    inferInstanceAs (Decidable True)

/-- A track that waits or is about to has not heard of a change since its device call, or was
woken for it. -/
def Attentive (w : World) (k : Wait) : Prop :=
  (w.state = .waiting ∧ w.heard = false ∧ (w.due = false → ready w k = false)) ∨
    (w.state = .signalled ∧ w.wakes = 1)

structure Inv (w : World) : Prop where
  once : w.wakes ≤ 1
  armed : w.state = .waiting → w.wakes = 0
  asked : ∀ k, w.pc = .store_waiting k → w.heard = false ∧ (w.due = false → ready w k = false)
  waits : ∀ k, w.pc = .ret_async k ∨ w.pc = .suspended (some k) → Attentive w k

theorem Inv.kept {w : World} (h : Inv w) : Kept w where
  woken k hk hh := by
    rcases h.waits k (.inr hk) with ⟨-,hn,-⟩ | ⟨-,hw⟩
    · rw [hn] at hh
      cases hh
    · exact hw
  found k hk hs hd := by
    rcases h.waits k (.inr hk) with ⟨-,-,hr⟩ | ⟨hs',-⟩
    · exact hr hd
    · rw [hs] at hs'
      cases hs'
  once := h.once

theorem inv_init (state : ST) (cap : Nat) : Inv (init state cap) where
  once := by simp [init]
  armed := by simp [init]
  asked := by simp [init]
  waits := by simp [init]

variable {d : Dir} {w w' : World}

/-- A step of the track that leaves `state` and the wakes as they are and ends before a store of
`ST_WAITING` only if the device has nothing for it. -/
theorem Inv.move (h : Inv w) (hs : w'.state = w.state) (hw : w'.wakes = w.wakes)
    (ha : ∀ k, w'.pc = .store_waiting k → w'.heard = false ∧ ready w' k = false)
    (hpc : ∀ k, w'.pc ≠ .ret_async k ∧ w'.pc ≠ .suspended (some k)) : Inv w' where
  once := hw ▸ h.once
  armed hst := by
    rw [hs] at hst
    rw [hw]
    exact h.armed hst
  asked k hk := ⟨(ha k hk).1,fun _ => (ha k hk).2⟩
  waits k hk := (hk.elim (hpc k).1 (hpc k).2).elim

theorem write_next_ne (len : Nat) (first : Bool) (k : Wait) :
    write_next len first ≠ .store_waiting k ∧ write_next len first ≠ .ret_async k ∧
      write_next len first ≠ .suspended (some k) := by
  unfold write_next
  split
  · simp
  · split <;> simp

theorem inv_write_enter (h : Inv w) (len : Nat) (stop first : Bool) :
    Inv (write_enter w len stop first) := by
  unfold write_enter
  split
  · exact h.move rfl rfl (fun k hk => by cases hk) fun k => by simp
  · split
    · exact h.move rfl rfl (fun k hk => by cases hk) fun k => by simp
    · dsimp only
      by_cases hp : w.pause = true
      · rw [if_pos hp]
        exact h.move rfl rfl (fun k hk => by cases hk) fun k => by simp
      · rw [if_neg hp]
        have hne := write_next_ne len first
        exact h.move rfl rfl (fun k hk => absurd hk (hne k).1) fun k => (hne k).2

theorem inv_call (h : Inv w) {len : Nat} {stop first : Bool}
    (hs : step d w (.call len stop first) = some w') : Inv w' := by
  unfold step at hs
  dsimp only at hs
  split at hs
  · obtain rfl := Option.some.inj hs
    cases d with
    | capture =>
      cases stop
      · exact h.move rfl rfl (fun k hk => by cases hk) fun k => by simp
      · exact h.move rfl rfl (fun k hk => by cases hk) fun k => by simp
    | playback => exact inv_write_enter h len stop first
  · cases hs

theorem inv_device (h : Inv w) {r : Res} (hs : step d w (.device r) = some w') : Inv w' := by
  unfold step at hs
  dsimp only at hs
  split at hs
  case h_1 hpc =>
    split at hs
    · obtain rfl := Option.some.inj hs
      exact h.move rfl rfl (fun k hk => by cases hk) fun k => by simp
    · cases hs
  case h_2 hpc =>
    split at hs
    · rename_i hempty
      obtain rfl := Option.some.inj hs
      refine h.move rfl rfl (fun k hk => ?_) fun k => by simp
      cases hk
      exact ⟨rfl,by simp [ready,hempty]⟩
    · cases hs
  case h_5 len first n hpc =>
    split at hs
    · obtain rfl := Option.some.inj hs
      have hne := write_next_ne (len - n) first
      exact h.move rfl rfl (fun k hk => absurd hk (hne k).1) fun k => (hne k).2
    · cases hs
  case h_6 len first hpc =>
    split at hs
    · rename_i hfull
      obtain rfl := Option.some.inj hs
      refine h.move rfl rfl (fun k hk => ?_) fun k => by simp
      cases hk
      exact ⟨rfl,by simpa [ready] using hfull⟩
    · cases hs
  case h_9 n hpc =>
    split at hs
    · obtain rfl := Option.some.inj hs
      exact h.move rfl rfl (fun k hk => by cases hk) fun k => by simp
    · cases hs
  case h_10 hpc =>
    split at hs
    · rename_i hfull
      obtain rfl := Option.some.inj hs
      refine h.move rfl rfl (fun k hk => ?_) fun k => by simp
      cases hk
      exact ⟨rfl,by simpa [ready] using hfull⟩
    · cases hs
  all_goals
    first
      | cases hs; done
      | (obtain rfl := Option.some.inj hs
         first
           | exact h
           | exact h.move rfl rfl (fun k hk => by cases hk) fun k => by simp)

theorem inv_store (h : Inv w) (hs : step d w .store = some w') : Inv w' := by
  unfold step at hs
  dsimp only at hs
  split at hs
  · rename_i k hpc
    obtain rfl := Option.some.inj hs
    obtain ⟨hheard,hready⟩ := h.asked k hpc
    refine ⟨Nat.zero_le 1,fun _ => rfl,fun _ hk => (by cases hk),fun k' hk => .inl ⟨rfl,hheard,?_⟩⟩
    rcases hk with hk | hk
    · cases hk
      exact hready
    · cases hk
  · obtain rfl := Option.some.inj hs
    exact ⟨h.once,fun hst => (by cases hst),fun _ hk => (by cases hk),fun _ hk => by simp at hk⟩
  · obtain rfl := Option.some.inj hs
    exact ⟨h.once,fun hst => (by cases hst),fun _ hk => (by cases hk),fun _ hk => by simp at hk⟩
  · cases hs

theorem inv_ret (h : Inv w) (hs : step d w .ret = some w') : Inv w' := by
  unfold step at hs
  dsimp only at hs
  split at hs
  · rename_i k hpc
    obtain rfl := Option.some.inj hs
    refine ⟨h.once,h.armed,fun _ hk => (by cases hk),fun k' hk => ?_⟩
    rcases hk with hk | hk
    · cases hk
    · cases hk
      exact h.waits k (.inl hpc)
  · cases hs

/-- A change that is not reported yet takes nothing from what a waiting track knows. -/
theorem Inv.change (h : Inv w) (fill : Nat) : Inv {w with fill := fill, due := true} where
  once := h.once
  armed := h.armed
  asked k hk := ⟨(h.asked k hk).1,fun hd => by cases hd⟩
  waits k hk := by
    rcases h.waits k hk with ⟨hs,hh,-⟩ | hsig
    · exact .inl ⟨hs,hh,fun hd => by cases hd⟩
    · exact .inr hsig

theorem inv_change (h : Inv w) {n : Nat} (hs : step d w (.change n) = some w') : Inv w' := by
  unfold step at hs
  dsimp only at hs
  split at hs
  · cases d with
    | capture =>
      dsimp only at hs
      split at hs
      · obtain rfl := Option.some.inj hs
        exact h.change _
      · cases hs
    | playback =>
      dsimp only at hs
      split at hs
      · obtain rfl := Option.some.inj hs
        exact h.change _
      · cases hs
  · cases hs

/-- The callback wakes a track in `ST_WAITING`, and no other. -/
theorem inv_event (h : Inv w) (hc : w.pc.deciding = false) (hs : step d w .event = some w') :
    Inv w' := by
  unfold step at hs
  dsimp only at hs
  split at hs
  · obtain rfl := Option.some.inj hs
    have hwakes : (on_event w).wakes ≤ 1 := by
      by_cases hst : w.state = .waiting
      · simp [on_event,hst,h.armed hst]
      · simpa [on_event,hst] using h.once
    refine ⟨hwakes,fun hst => (by cases hst),fun k hk => ?_,fun k hk => .inr ⟨rfl,?_⟩⟩
    · have hpc : w.pc = .store_waiting k := hk
      rw [hpc] at hc
      cases hc
    · rcases h.waits k hk with ⟨hst,-,-⟩ | ⟨hst,hw⟩
      · simp [on_event,hst,h.armed hst]
      · simpa [on_event,hst] using hw
  · cases hs

theorem inv_step {a : Act} (h : Inv w) (hc : Apart w a) (hs : step d w a = some w') : Inv w' := by
  cases a with
  | call len stop first => exact inv_call h hs
  | device r => exact inv_device h hs
  | store => exact inv_store h hs
  | ret => exact inv_ret h hs
  | command pause clear seek_req =>
    obtain rfl := Option.some.inj hs
    exact ⟨h.once,h.armed,h.asked,h.waits⟩
  | change n => exact inv_change h hs
  | event => exact inv_event h hc hs

/-- A track that waits for its device is woken, if the callback never runs between the device
call that returned 0 and the store of `ST_WAITING`. -/
theorem waiting_woken (d : Dir) (state : ST) (cap : Nat) (as : List Act) (w : World)
    (hapart : Machine.AllSteps (step d) Apart (init state cap) as)
    (hrun : Machine.run (step d) (init state cap) as = some w) : Kept w :=
  (Machine.guarded_invariant (fun _ _ _ h hc hs => inv_step h hc hs) hapart hrun
    (inv_init state cap)).kept

/-- A playback that fills the buffer, waits for room and is woken. -/
def fill_and_wait : List Act :=
  [.call 6 false false,.device (.got 4),.device .nothing,.store,.change 2,.ret,.event]

theorem waiting_woken_playback :
    Kept ((Machine.run (step .playback) (init .waiting 4) fill_and_wait).getD (init .waiting 4)) :=
  waiting_woken .playback .waiting 4 fill_and_wait _ (by decide) (Machine.run_eq_getD (by decide))

/-- The device makes room and reports it after it had none and before the track stores
`ST_WAITING`: nobody wakes the track. -/
theorem wake_lost :
    (∀ w, Machine.run (step .playback) (init .waiting 4)
        [.call 6 false false,.device (.got 4),.device .nothing,.change 2,.event,.store,.ret] = some w →
      w.pc = .suspended (some .room) ∧ w.state = .waiting ∧ w.due = false ∧ ready w .room = true ∧
        w.wakes = 0 ∧ ¬Kept w) ∧
    (Machine.run (step .playback) (init .waiting 4)
      [.call 6 false false,.device (.got 4),.device .nothing,.change 2,.event,.store,.ret]).isSome := by
  refine ⟨fun w hw => ?_,by decide⟩
  have hmap : (Machine.run (step .playback) (init .waiting 4)
      [.call 6 false false,.device (.got 4),.device .nothing,.change 2,.event,.store,.ret]).map
        (fun w => (w.pc,w.state,w.due,ready w .room,w.wakes)) =
      some (.suspended (some .room),.waiting,false,true,0) := by decide
  rw [hw,Option.map_some,Option.some.injEq] at hmap
  simp only [Prod.mk.injEq] at hmap
  obtain ⟨hpc,hst,hdue,hready,hwakes⟩ := hmap
  refine ⟨hpc,hst,hdue,hready,hwakes,fun hk => ?_⟩
  have hnot := hk.found .room hpc hst hdue
  rw [hready] at hnot
  cases hnot

end Phiola.Adev
