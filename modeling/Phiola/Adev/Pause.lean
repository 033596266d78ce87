import Mathlib.Algebra.Group.Nat.Defs
import Phiola.Adev.Wait

/-!
# Pausing and seeking

A track plays: its reader gives data to the filter of the user interface, which gives it to the
filter of the device. The commands of the user are tasks on the worker of the track: they find it
suspended, or while its reader waits for input.
-/

namespace Phiola.Pause

open Adev (ST)

/-- The terminal or the graphical user interface. -/
inductive Ui
  | tui
  | gui
deriving DecidableEq, Repr

/-- Where the track is. Suspended are `input` (the reader waits for input), `waiting` (the device has
no room) and `held` (paused); in the others a filter is called next: the reader or the decoder
(`back`), the user interface with data, the device with data, or, for more data, a converter or the
user interface (`more`). `first` says that all filters before this one are done. -/
inductive Pc
  | input
  | back
  | ui (len : Nat) (first : Bool)
  | dev (len : Nat) (first : Bool)
  | more
  | waiting (len : Nat) (first : Bool)
  | held (len : Nat) (first : Bool)
  | over
deriving DecidableEq, Repr

/-- The worker may run other tasks. -/
def Pc.idle : Pc → Bool
  | .input | .waiting _ _ | .held _ _ => true
  | .back | .ui _ _ | .dev _ _ | .more | .over => false

/-- The filter of the device has returned `PHI_ASYNC`. -/
def Pc.stopped : Pc → Bool
  | .waiting _ _ | .held _ _ => true
  | .input | .back | .ui _ _ | .dev _ _ | .more | .over => false

def Pc.is_held : Pc → Bool
  | .held _ _ => true
  | .input | .back | .ui _ _ | .dev _ _ | .more | .waiting _ _ | .over => false

/-- The user interface (`ui_open`, `paused`, `seek_msec`, `lastpos`), the track (`oaudio.pause`,
`oaudio.clear`, `audio.seek_req`, `audio.seek`, `adev_ctx`, its task), the device, and what has
happened: `taken` says that the filter of the device has taken a pause since the last resume,
`leaked` that it has written data then, `stuck` that a resume has left the track stopped with no
task, `last` is where the last seek command goes, `seeks` are the reader's. -/
structure World where
  ui_open : Bool
  paused : Bool
  seek_msec : Option Nat
  lastpos : Nat
  pause : Bool
  clear : Bool
  seek_req : Bool
  seek : Option Nat
  ctx : Bool
  queued : Bool
  state : ST
  pc : Pc
  taken : Bool
  leaked : Bool
  stuck : Bool
  last : Option Nat
  seeks : List Nat
deriving DecidableEq, Repr

/-- `track_start()`; a track may start with a position. -/
def init (seek : Option Nat) (seek_req : Bool) : World :=
  ⟨false,false,none,2 ^ 32 - 1,false,false,seek_req,seek,false,true,.feeding,.input,false,false,
    false,none,[]⟩

def wake (w : World) : World := {w with queued := true}

/-- `audio_out_onplay()` -/
def audio_out_onplay (w : World) : World :=
  {w with state := .signalled, queued := w.queued || w.state = .waiting}

/-- `adev_stop`, if `adev_ctx` is set. -/
def audio_stop (w : World) : World := if w.ctx then audio_out_onplay w else w

/-! ## The commands -/

/-- `tuiplay_pause_resume()`, `gtrk_play_pause()` -/
def pause_resume (w : World) : World :=
  if w.paused then
    let p := w.pause
    let w := {w with paused := false, pause := false, taken := false}
    let w := if p then w else wake w
    {w with stuck := w.stuck || (w.pc.stopped && !w.queued)}
  else audio_stop {w with pause := true, paused := true}

inductive KeyMod
  | plain
  | alt
  | ctrl
deriving DecidableEq, Repr

/-- `SEEK_STEP`, `SEEK_STEP_MED`, `SEEK_STEP_LARGE` -/
def seek_step : KeyMod → Nat
  | .plain => 5 * 1000
  | .alt => 15 * 1000
  | .ctrl => 60 * 1000

/-- A key of the terminal, or a position in seconds. -/
inductive Seek
  | key (right : Bool) (by_ : KeyMod)
  | sec (pos_sec : Nat)
deriving DecidableEq, Repr

/-- The position of a seek command. -/
def target (w : World) : Seek → Nat
  | .key right by_ =>
    if right then w.lastpos * 1000 + seek_step by_ else w.lastpos * 1000 - seek_step by_
  | .sec pos_sec => pos_sec * 1000

def request (w : World) (k : Seek) (seek_msec : Nat) : World :=
  audio_stop {w with
    seek_msec := some seek_msec
    seek_req := true
    clear := true
    last := some (target w k)}

def tuiplay_seek (w : World) (right : Bool) (by_ : KeyMod) : World :=
  wake (request w (.key right by_) (target w (.key right by_)))

/-- `gtrk_seek()`: the product is an `uint`. -/
def gtrk_seek (w : World) (pos_sec : Nat) : World :=
  request w (.sec pos_sec) (pos_sec * 1000 % 2 ^ 32)

def seek_command (ui : Ui) (w : World) (k : Seek) : Option World :=
  match ui, k with
  | .tui, .key right by_ => some (tuiplay_seek w right by_)
  | .gui, .sec pos_sec => some (gtrk_seek w pos_sec)
  | _, _ => none

/-! ## The filters -/

/-- What the reader does: it waits for input, or gives data, which may be the last. -/
inductive Read
  | wait
  | data (len : Nat)
  | last (len : Nat)
deriving DecidableEq, Repr

def Read.next : Read → Pc
  | .wait => .input
  | .data len => .ui len false
  | .last len => .ui len true

/-- The reader; `ready` says that it can seek: it has read the header, and it is not done. -/
def reader (w : World) (ready : Bool) (r : Read) : World :=
  let w :=
    match w.seek with
    | some p =>
      if w.seek_req ∧ ready then {w with seek_req := false, seeks := w.seeks ++ [p]} else w
    | none => w
  {w with pc := r.next}

/-- A filter wants more data: the first one in the chain gets none. -/
def go_back (w : World) (first : Bool) (pc : Pc) : World := {w with pc := if first then .over else pc}

/-- `tuiplay_process()`, `gtrk_process()` with data; `playtime` is the position in seconds. -/
def ui_process (w : World) (len : Nat) (first : Bool) (playtime : Nat) : World :=
  let w := {w with ui_open := true}
  match w.seek_msec with
  | some p => go_back {w with seek := some p, seek_msec := none} first .back
  | none =>
    if len = 0 ∧ first = false then {w with pc := .back}
    else {w with
      seek := if w.seek_req then w.seek else none
      lastpos := playtime
      pc := .dev len first}

/-- `tuiplay_process()`, `gtrk_process()` on the way back. -/
def ui_back (w : World) : World :=
  match w.seek_msec with
  | some p => {w with seek := some p, seek_msec := none, pc := .back}
  | none => {w with pc := .back}

/-- The answer of a device that is opened: a conversion is wanted first, or it fails. -/
inductive Opened
  | ok
  | convert
  | fails
deriving DecidableEq, Repr

/-- What the device does: `n` bytes have room; then it may fail, and all data may be played. -/
structure Dev where
  opened : Opened
  n : Nat
  fails : Bool
  drained : Bool
deriving DecidableEq, Repr

/-- The rest of `audio_out_write()` after the buffer was cleared. -/
def write_data (w : World) (len : Nat) (first : Bool) (a : Dev) : World :=
  if w.pause then {w with pause := false, taken := true, pc := .held len first}
  else
    let n := min a.n len
    let w := {w with leaked := w.leaked || (w.taken && n != 0)}
    if a.fails then {w with pc := .over}
    else if n < len then {w with state := .waiting, pc := .waiting (len - n) first}
    else if first = false then {w with state := .feeding, pc := .more}
    else if a.drained then {w with pc := .over}
    else {w with state := .waiting, pc := .waiting 0 true}

def audio_out_write (w : World) (len : Nat) (first : Bool) (a : Dev) : World :=
  if w.clear then
    let w := {w with clear := false}
    if w.seek_req then go_back w first .more else write_data w len first a
  else write_data w len first a

/-- `alsa_write()` and the like: a device that was opened is in the state `ST_WAITING`. -/
def adev_write (w : World) (len : Nat) (first : Bool) (a : Dev) : World :=
  if w.ctx then audio_out_write w len first a
  else
    match a.opened with
    | .ok => audio_out_write {w with ctx := true, state := .waiting} len first a
    | .convert => go_back w first .more
    | .fails => {w with pc := .over}

/-- The task of the track runs, a filter is called, the device or the input has an event, or the user
gives a command. `decoded` and `converted` stand for filters that have data left. -/
inductive Act
  | run
  | reader (ready : Bool) (r : Read)
  | decoded (len : Nat)
  | ui (playtime : Nat)
  | ui_back
  | converted (len : Nat)
  | device (a : Dev)
  | event
  | arrived
  | pause_resume
  | seek (k : Seek)
deriving DecidableEq, Repr

def step (ui : Ui) (w : World) : Act → Option World
  | .run =>
    if w.queued = false then none
    else
      match w.pc with
      | .input => some {w with queued := false, pc := .back}
      | .waiting len first | .held len first => some {w with queued := false, pc := .dev len first}
      | _ => none
  | .reader ready r => if w.pc = .back then some (reader w ready r) else none
  | .decoded len => if w.pc = .back then some {w with pc := .ui len false} else none
  | .ui playtime =>
    match w.pc with
    | .ui len first => some (ui_process w len first playtime)
    | _ => none
  | .ui_back => if w.pc = .more then some (ui_back w) else none
  | .converted len => if w.pc = .more then some {w with pc := .dev len false} else none
  | .device a =>
    match w.pc with
    | .dev len first => some (adev_write w len first a)
    | _ => none
  | .event => if w.ctx then some (audio_out_onplay w) else none
  | .arrived => if w.pc = .input then some (wake w) else none
  | .pause_resume => if w.ui_open ∧ w.pc.idle then some (pause_resume w) else none
  | .seek k => if w.ui_open ∧ w.pc.idle then seek_command ui w k else none

/-! ## What the user may rely on -/

/-- The position is on its way to the reader. -/
def World.pending (w : World) (p : Nat) : Prop :=
  w.seek_req = true ∧ (w.seek_msec = some p ∨ w.seek_msec = none ∧ w.seek = some p)

/-- No data is written in a pause; a track that is stopped with no task is held if the user
interface says so; a resume makes the track run; and the reader goes to the last position. -/
structure Kept (w : World) : Prop where
  silent : w.leaked = false
  shown : w.pc.stopped = true → w.queued = false → w.pc.is_held = w.paused
  resumed : w.stuck = false
  position : ∀ p, w.last = some p → w.pending p ∨ w.seeks.getLast? = some p

/-- The terminal does not seek after a pause was taken; no pause is waiting when the device is opened;
and the reader is not on its way to another position when it waits and a seek is commanded. -/
def Clear (ui : Ui) (w : World) : Act → Prop
  | .seek k =>
    (ui = .tui → w.taken = false) ∧
    (w.pc = .input → w.seek = none ∨ w.seek = some (target w k)) ∧
    (ui = .gui → target w k < 2 ^ 32)
  | .device a => w.ctx = false → a.opened = .ok → w.pause = false
  | .run | .reader _ _ | .decoded _ | .ui _ | .ui_back | .converted _ | .event | .arrived
  | .pause_resume => True

instance (ui : Ui) (w : World) : ∀ a, Decidable (Clear ui w a)
  | .seek k =>
    inferInstanceAs (Decidable ((ui = .tui → w.taken = false) ∧
      (w.pc = .input → w.seek = none ∨ w.seek = some (target w k)) ∧
      (ui = .gui → target w k < 2 ^ 32)))
  | .device a => inferInstanceAs (Decidable (w.ctx = false → a.opened = .ok → w.pause = false))
  | .run | .reader _ _ | .decoded _ | .ui _ | .ui_back | .converted _ | .event | .arrived
  | .pause_resume => inferInstanceAs (Decidable True)

/-! ## The pause -/

/-- A pause that was taken holds the track, and no task is queued for it. A pause that is asked for
finds the track on the way to the device. -/
structure Pausing (paused pause ctx queued : Bool) (state : ST) (pc : Pc) (taken : Bool) : Prop where
  flags : taken = true ↔ paused = true ∧ pause = false
  asked : pause = true → paused = true
  held : taken = true → pc.is_held = true ∧ queued = false ∧ state ≠ .waiting
  rest : pc.is_held = true → taken = true ∨ queued = true
  wait : pc.stopped = true → pc.is_held = false → state = .waiting ∨ queued = true
  opened : pc.stopped = true → ctx = true
  signal : pause = true → ctx = true → state ≠ .waiting
  want : pause = true → pc.stopped = true → queued = true
  away : pause = true → pc.idle = false → queued = false

structure Inv (w : World) : Prop where
  pausing : Pausing w.paused w.pause w.ctx w.queued w.state w.pc w.taken
  silent : w.leaked = false
  resumed : w.stuck = false
  position : ∀ p, w.last = some p → if w.seek_req then
    w.seek_msec = some p ∨ w.seek_msec = none ∧ w.seek = some p else w.seeks.getLast? = some p
  order : w.pc = .input ∨ w.pc = .back → ∀ p q, w.seek_msec = some p → w.seek = some q → p = q

variable {w w' : World} {paused pause ctx queued : Bool} {state : ST} {pc pc' : Pc} {taken : Bool}

theorem Pausing.shown (h : Pausing paused pause ctx queued state pc taken) (hs : pc.stopped = true)
    (hq : queued = false) : pc.is_held = paused := by
  cases hh : pc.is_held with
  | true =>
    have ht := (h.rest hh).resolve_right (by simp [hq])
    exact (h.flags.mp ht).1.symm
  | false =>
    cases hp : paused with
    | false => rfl
    | true =>
      cases hpause : pause with
      | true =>
        have hqueued := h.want hpause hs
        cases hq.symm.trans hqueued
      | false =>
        have hheld := (h.held (h.flags.mpr ⟨hp,hpause⟩)).1
        cases hh.symm.trans hheld

theorem Inv.kept (h : Inv w) : Kept w where
  silent := h.silent
  shown := h.pausing.shown
  resumed := h.resumed
  position p hp := by
    have hpos := h.position p hp
    split at hpos
    · rename_i hreq
      exact .inl ⟨hreq,hpos⟩
    · exact .inr hpos

theorem Pc.idle_of_stopped (h : pc.stopped = true) : pc.idle = true := by
  cases pc <;> first | rfl | cases h

theorem Pc.stopped_of_held (h : pc.is_held = true) : pc.stopped = true := by
  cases pc <;> first | rfl | cases h

theorem Pausing.free (h : Pausing paused pause ctx queued state pc taken) (hpc : pc.is_held = false) :
    taken = false := by
  cases ht : taken with
  | false => rfl
  | true => cases hpc.symm.trans (h.held ht).1

theorem Pausing.move (h : Pausing paused pause ctx queued state pc taken) (hpc : pc.idle = false)
    (hpc' : pc'.stopped = false) : Pausing paused pause ctx queued state pc' taken := by
  have hheld : pc.is_held = false := by
    cases hh : pc.is_held with
    | false => rfl
    | true => cases hpc.symm.trans (Pc.idle_of_stopped (Pc.stopped_of_held hh))
  have hheld' : pc'.is_held = false := by
    cases hh : pc'.is_held with
    | false => rfl
    | true => cases hpc'.symm.trans (Pc.stopped_of_held hh)
  have htaken := h.free hheld
  refine ⟨h.flags,h.asked,fun ht => ?_,fun hh => ?_,fun hs => ?_,fun hs => ?_,h.signal,
    fun _ hs => ?_,fun hp _ => h.away hp hpc⟩
  · cases htaken.symm.trans ht
  · cases hheld'.symm.trans hh
  · cases hpc'.symm.trans hs
  · cases hpc'.symm.trans hs
  · cases hpc'.symm.trans hs

theorem Pausing.run (h : Pausing paused pause ctx queued state pc taken) (hq : queued = true)
    (hpc' : pc'.idle = false) : Pausing paused pause ctx false state pc' taken := by
  have htaken : taken = false := by
    cases ht : taken with
    | false => rfl
    | true => cases hq.symm.trans (h.held ht).2.1
  have hstop : pc'.stopped = false := by
    cases hs : pc'.stopped with
    | false => rfl
    | true => cases hpc'.symm.trans (Pc.idle_of_stopped hs)
  refine ⟨h.flags,h.asked,fun ht => ?_,fun hh => ?_,fun hs => ?_,fun hs => ?_,h.signal,
    fun _ hs => ?_,fun _ _ => rfl⟩
  · cases htaken.symm.trans ht
  · cases hstop.symm.trans (Pc.stopped_of_held hh)
  · cases hstop.symm.trans hs
  · cases hstop.symm.trans hs
  · cases hstop.symm.trans hs

theorem Pausing.wake (h : Pausing paused pause ctx queued state pc taken) (ht : taken = false)
    (hpc : pc.idle = true) : Pausing paused pause ctx true state pc taken :=
  ⟨h.flags,h.asked,fun ht' => (by cases ht.symm.trans ht'),fun _ => .inr rfl,fun _ _ => .inr rfl,
    h.opened,h.signal,fun _ _ => rfl,fun _ hidle => (by cases hpc.symm.trans hidle)⟩

theorem Pausing.event (h : Pausing paused pause ctx queued state pc taken) (hctx : ctx = true) :
    Pausing paused pause ctx (queued || state = .waiting) .signalled pc taken := by
  refine ⟨h.flags,h.asked,fun ht => ?_,fun hh => ?_,fun hs hh => .inr ?_,h.opened,nofun,
    fun hp hs => ?_,fun hp hidle => ?_⟩
  · obtain ⟨hheld,hq,hstate⟩ := h.held ht
    exact ⟨hheld,by simp [hq,hstate],nofun⟩
  · exact (h.rest hh).imp_right fun hq => by simp [hq]
  · rcases h.wait hs hh with hw | hq
    · simp [hw]
    · simp [hq]
  · simp [h.want hp hs]
  · simp [h.away hp hidle,h.signal hp hctx]

theorem Pausing.resume (h : Pausing paused pause ctx queued state pc taken) {queued' : Bool}
    (hq : pc.stopped = true → queued' = true) : Pausing false false ctx queued' state pc false :=
  ⟨by simp,nofun,nofun,fun hh => .inr (hq (Pc.stopped_of_held hh)),fun hs _ => .inr (hq hs),
    h.opened,nofun,nofun,nofun⟩

theorem Pausing.ask (h : Pausing false pause ctx queued state pc taken) (hpc : pc.idle = true)
    (queued' : Bool) (state' : ST)
    (hstop : if ctx then queued' = (queued || state = .waiting) ∧ state' = .signalled
      else queued' = queued ∧ state' = state) : Pausing true true ctx queued' state' pc false := by
  have hq (hs : pc.stopped = true) : queued' = true := by
    rw [if_pos (h.opened hs)] at hstop
    rw [hstop.1]
    cases hh : pc.is_held with
    | true =>
      rcases h.rest hh with ht | hq
      · cases (h.flags.mp ht).1
      · simp [hq]
    | false =>
      rcases h.wait hs hh with hw | hq
      · simp [hw]
      · simp [hq]
  refine ⟨by simp,fun _ => rfl,nofun,fun hh => .inr (hq (Pc.stopped_of_held hh)),
    fun hs _ => .inr (hq hs),h.opened,fun _ hctx => ?_,fun _ hs => hq hs,fun _ hidle => ?_⟩
  · rw [if_pos hctx] at hstop
    rw [hstop.2]
    exact nofun
  · cases hpc.symm.trans hidle

theorem Pausing.take (h : Pausing paused pause ctx queued state pc taken) (hp : pause = true)
    (hctx : ctx = true) (hpc : pc.idle = false) (hh : pc'.is_held = true) :
    Pausing paused false ctx queued state pc' true :=
  ⟨by simp [h.asked hp],nofun,fun _ => ⟨hh,h.away hp hpc,h.signal hp hctx⟩,fun _ => .inl rfl,
    fun _ hno => (by cases hh.symm.trans hno),fun _ => hctx,nofun,nofun,nofun⟩

theorem Pausing.play (h : Pausing paused pause ctx queued state pc taken) (hp : pause = false)
    (hpc : pc.is_held = false) {ctx' : Bool} {state' : ST} (hh : pc'.is_held = false)
    (hw : pc'.stopped = true → state' = .waiting ∧ ctx' = true) :
    Pausing paused pause ctx' queued state' pc' taken := by
  have ht := h.free hpc
  subst hp
  exact ⟨h.flags,nofun,fun ht' => (by cases ht.symm.trans ht'),
    fun hh' => (by cases hh.symm.trans hh'),fun hs _ => .inl (hw hs).1,fun hs => (hw hs).2,nofun,
    nofun,nofun⟩

/-! ## The commands and the filters -/

theorem Inv.stop (h : Inv w) : Inv (audio_stop w) := by
  unfold audio_stop
  split
  · rename_i hctx
    exact ⟨h.pausing.event hctx,h.silent,h.resumed,h.position,h.order⟩
  · exact h

theorem Inv.wake (h : Inv w) (ht : w.taken = false) (hpc : w.pc.idle = true) : Inv (wake w) :=
  ⟨h.pausing.wake ht hpc,h.silent,h.resumed,h.position,h.order⟩

theorem stuck_iff {stuck stopped queued : Bool} (hs : stuck = false)
    (hq : stopped = true → queued = true) : (stuck || (stopped && !queued)) = false := by
  cases stopped with
  | false => simp [hs]
  | true => simp [hs,hq rfl]

theorem Inv.pause_resume (h : Inv w) (hpc : w.pc.idle = true) : Inv (pause_resume w) := by
  unfold Pause.pause_resume
  cases hpaused : w.paused with
  | true =>
    cases hpause : w.pause with
    | true =>
      have hq := h.pausing.want hpause
      exact ⟨h.pausing.resume hq,h.silent,stuck_iff h.resumed hq,h.position,h.order⟩
    | false =>
      exact ⟨h.pausing.resume fun _ => rfl,h.silent,stuck_iff h.resumed fun _ => rfl,h.position,
        h.order⟩
  | false =>
    have hp := h.pausing
    rw [hpaused] at hp
    have htaken : w.taken = false := by
      cases ht : w.taken with
      | false => rfl
      | true => cases (hp.flags.mp ht).1
    rw [if_neg (by simp)]
    unfold audio_stop
    dsimp only
    split
    · rename_i hctx
      have hask := hp.ask hpc (w.queued || w.state = .waiting) .signalled
        (by rw [if_pos hctx]; exact ⟨rfl,rfl⟩)
      rw [← htaken] at hask
      exact ⟨hask,h.silent,h.resumed,h.position,h.order⟩
    · rename_i hctx
      have hask := hp.ask hpc w.queued w.state
        (by rw [if_neg hctx]; exact ⟨rfl,rfl⟩)
      rw [← htaken] at hask
      exact ⟨hask,h.silent,h.resumed,h.position,h.order⟩

theorem Inv.request (h : Inv w) (hpc : w.pc.idle = true) (k : Seek)
    (hc : w.pc = .input → w.seek = none ∨ w.seek = some (target w k)) :
    Inv (request w k (target w k)) := by
  have hasked : Inv {w with
      seek_msec := some (target w k)
      seek_req := true
      clear := true
      last := some (target w k)} := by
    refine ⟨h.pausing,h.silent,h.resumed,fun p hp => ?_,fun hback p q hp hq => ?_⟩
    · cases hp
      exact .inl rfl
    · cases hp
      rcases hback with hback | hback
      · rcases hc hback with hnone | hsome
        · cases hnone.symm.trans hq
        · exact Option.some.inj (hsome.symm.trans hq)
      · change w.pc = .back at hback
        rw [hback] at hpc
        cases hpc
  exact hasked.stop

theorem request_taken (w : World) (k : Seek) (n : Nat) :
    (request w k n).taken = w.taken ∧ (request w k n).pc = w.pc := by
  unfold request audio_stop
  split <;> exact ⟨rfl,rfl⟩

theorem Inv.seek (h : Inv w) (hpc : w.pc.idle = true) {ui : Ui} {k : Seek}
    (hc : Clear ui w (.seek k)) (hs : seek_command ui w k = some w') : Inv w' := by
  obtain ⟨htaken,hinput,hsmall⟩ := hc
  have hr := h.request hpc k hinput
  unfold seek_command at hs
  split at hs
  · rename_i right by_
    cases hs
    exact hr.wake ((request_taken w _ _).1.trans (htaken rfl)) (by rw [(request_taken w _ _).2]; exact hpc)
  · rename_i pos_sec
    cases hs
    have hmod : pos_sec * 1000 % 2 ^ 32 = pos_sec * 1000 := Nat.mod_eq_of_lt (hsmall rfl)
    unfold gtrk_seek
    rw [hmod]
    exact hr
  · cases hs

theorem Inv.move (h : Inv w) (hpc : w.pc.idle = false) (hpc' : pc'.stopped = false)
    (hback : pc' = .input ∨ pc' = .back → w.pc = .back ∨ w.seek_msec = none) :
    Inv {w with pc := pc'} := by
  refine ⟨h.pausing.move hpc hpc',h.silent,h.resumed,h.position,fun hb p q hp hq => ?_⟩
  rcases hback hb with hw | hnone
  · exact h.order (.inr hw) p q hp hq
  · cases hnone.symm.trans hp

theorem Inv.back (h : Inv w) (hpc : w.pc.idle = false) (first : Bool) (hpc' : pc'.stopped = false)
    (hback : pc' = .input ∨ pc' = .back → w.pc = .back ∨ w.seek_msec = none) :
    Inv (go_back w first pc') := by
  unfold go_back
  cases first with
  | true => exact h.move hpc rfl (by rintro (h | h) <;> cases h)
  | false => exact h.move hpc hpc' hback

/-- The reader takes the position that was given to it, which is that of the last command. -/
theorem Inv.reader (h : Inv w) (hpc : w.pc = .back) (ready : Bool) (r : Read) :
    Inv (reader w ready r) := by
  have hidle : w.pc.idle = false := by
    rw [hpc]
    rfl
  have hpc' : r.next.stopped = false := by
    cases r <;> rfl
  unfold Pause.reader
  split
  · rename_i p hseek
    split
    · rename_i hreq
      have hnew : Inv {w with seek_req := false, seeks := w.seeks ++ [p]} := by
        refine ⟨h.pausing,h.silent,h.resumed,fun x hx => ?_,h.order⟩
        have hpos := h.position x hx
        rw [if_pos hreq.1] at hpos
        have hxp : x = p := by
          rcases hpos with hmsec | ⟨-,hmsec⟩
          · exact h.order (.inr hpc) x p hmsec hseek
          · exact Option.some.inj (hmsec.symm.trans hseek)
        subst hxp
        simp
      exact hnew.move hidle hpc' fun _ => .inl hpc
    · exact h.move hidle hpc' fun _ => .inl hpc
  · exact h.move hidle hpc' fun _ => .inl hpc

theorem Inv.pass (h : Inv w) {p : Nat} (hp : w.seek_msec = some p) :
    Inv {w with seek := some p, seek_msec := none} := by
  refine ⟨h.pausing,h.silent,h.resumed,fun x hx => ?_,nofun⟩
  have hpos := h.position x hx
  split at hpos
  · rename_i hreq
    rw [if_pos hreq]
    rcases hpos with hmsec | ⟨hnone,-⟩
    · exact .inr ⟨rfl,hp.symm.trans hmsec⟩
    · cases hnone.symm.trans hp
  · rename_i hreq
    rw [if_neg hreq]
    exact hpos

theorem Inv.ui_back (h : Inv w) (hpc : w.pc = .more) : Inv (ui_back w) := by
  have hidle : w.pc.idle = false := by
    rw [hpc]
    rfl
  unfold Pause.ui_back
  split
  · rename_i p hp
    exact (h.pass hp).move hidle rfl fun _ => .inr rfl
  · rename_i hnone
    exact h.move hidle rfl fun _ => .inr hnone

theorem Inv.ui_process (h : Inv w) {len : Nat} {first : Bool} (hpc : w.pc = .ui len first)
    (playtime : Nat) : Inv (ui_process w len first playtime) := by
  have hidle : w.pc.idle = false := by
    rw [hpc]
    rfl
  have hopen : Inv {w with ui_open := true} :=
    ⟨h.pausing,h.silent,h.resumed,h.position,h.order⟩
  unfold Pause.ui_process
  dsimp only
  split
  · rename_i p hp
    exact (hopen.pass hp).back hidle first rfl fun _ => .inr rfl
  · rename_i hnone
    split
    · exact hopen.move hidle rfl fun _ => .inr hnone
    · have hdone : Inv {w with
          ui_open := true
          seek := if w.seek_req then w.seek else none
          lastpos := playtime} := by
        refine ⟨h.pausing,h.silent,h.resumed,fun p hp => ?_,fun hb p q hp => ?_⟩
        · have hpos := h.position p hp
          split at hpos
          · rename_i hreq
            rw [if_pos hreq]
            refine hpos.imp_right fun hs => ⟨hs.1,?_⟩
            rw [if_pos hreq]
            exact hs.2
          · rename_i hreq
            rw [if_neg hreq]
            exact hpos
        · cases hnone.symm.trans hp
      exact hdone.move hidle rfl (by rintro (h | h) <;> cases h)

/-- The device goes on: no pause was taken, since the track is not held. -/
theorem Inv.play (h : Inv w) (hpc : w.pc.is_held = false) (hp : w.pause = false) {state : ST}
    {leaked : Bool} (hl : w.taken = false → leaked = false) (hh : pc'.is_held = false)
    (hw : pc'.stopped = true → state = .waiting ∧ w.ctx = true)
    (hback : pc' ≠ .input ∧ pc' ≠ .back) :
    Inv {w with leaked := leaked, state := state, pc := pc'} := by
  exact ⟨h.pausing.play hp hpc hh hw,hl (h.pausing.free hpc),h.resumed,h.position,
    fun hb => (hb.elim hback.1 hback.2).elim⟩

theorem Inv.write_data (h : Inv w) {len' len : Nat} {first' : Bool} (hpc : w.pc = .dev len' first')
    (hctx : w.ctx = true) (first : Bool) (a : Dev) : Inv (write_data w len first a) := by
  have hheld : w.pc.is_held = false := by
    rw [hpc]
    rfl
  unfold Pause.write_data
  split
  · rename_i hp
    exact ⟨h.pausing.take hp hctx (by rw [hpc]; rfl) rfl,h.silent,h.resumed,h.position,
      by rintro (h | h) <;> cases h⟩
  · rename_i hp
    have hp : w.pause = false := by simpa using hp
    have hl (n : Nat) (ht : w.taken = false) : (w.leaked || (w.taken && n != 0)) = false := by
      simp [ht,h.silent]
    dsimp only
    split
    · exact h.play hheld hp (hl _) rfl nofun ⟨nofun,nofun⟩
    · split
      · exact h.play hheld hp (hl _) rfl (fun _ => ⟨rfl,hctx⟩) ⟨nofun,nofun⟩
      · split
        · exact h.play hheld hp (hl _) rfl nofun ⟨nofun,nofun⟩
        · split
          · exact h.play hheld hp (hl _) rfl nofun ⟨nofun,nofun⟩
          · exact h.play hheld hp (hl _) rfl (fun _ => ⟨rfl,hctx⟩) ⟨nofun,nofun⟩

theorem Inv.audio_out_write (h : Inv w) {len : Nat} {first : Bool} (hpc : w.pc = .dev len first)
    (hctx : w.ctx = true) (a : Dev) : Inv (audio_out_write w len first a) := by
  unfold Pause.audio_out_write
  split
  · have hclear : Inv {w with clear := false} :=
      ⟨h.pausing,h.silent,h.resumed,h.position,h.order⟩
    dsimp only
    split
    · refine hclear.back ?_ first rfl (by rintro (h | h) <;> cases h)
      rw [hpc]
      rfl
    · exact hclear.write_data hpc hctx first a
  · exact h.write_data hpc hctx first a

theorem Inv.device (h : Inv w) {len : Nat} {first : Bool} (hpc : w.pc = .dev len first) {ui : Ui}
    {a : Dev} (hc : Clear ui w (.device a)) : Inv (adev_write w len first a) := by
  have hidle : w.pc.idle = false := by
    rw [hpc]
    rfl
  unfold adev_write
  split
  · rename_i hctx
    exact h.audio_out_write hpc hctx a
  · rename_i hctx
    have hctx : w.ctx = false := by simpa using hctx
    split
    · rename_i hok
      -- the device is opened in the state of waiting: no pause may be taken in this call
      have hopen : Inv {w with ctx := true, state := .waiting} :=
        ⟨h.pausing.play (hc hctx hok) (by rw [hpc]; rfl) (by rw [hpc]; rfl) fun _ => ⟨rfl,rfl⟩,
          h.silent,h.resumed,h.position,h.order⟩
      exact hopen.audio_out_write hpc rfl a
    · exact h.back hidle first rfl (by rintro (h | h) <;> cases h)
    · exact h.move hidle rfl (by rintro (h | h) <;> cases h)

theorem inv_step (h : Inv w) (ui : Ui) (act : Act) (hc : Clear ui w act)
    (hs : step ui w act = some w') : Inv w' := by
  cases act with
  | run =>
    dsimp only [step] at hs
    split at hs
    · cases hs
    · rename_i hq
      have hq : w.queued = true := by simpa using hq
      have hrun {pc' : Pc} (hpc' : pc'.idle = false) (hback : pc' = .back → w.pc = .input) :
          Inv {w with queued := false, pc := pc'} := by
        refine ⟨h.pausing.run hq hpc',h.silent,h.resumed,h.position,fun hb p q hp hq => ?_⟩
        rcases hb with hb | hb
        · cases hb
          cases hpc'
        · exact h.order (.inl (hback hb)) p q hp hq
      split at hs
      · rename_i hpc
        cases hs
        exact hrun rfl fun _ => hpc
      · cases hs
        exact hrun rfl nofun
      · cases hs
        exact hrun rfl nofun
      · cases hs
  | reader ready r =>
    dsimp only [step] at hs
    split at hs
    · cases hs
      exact h.reader (by assumption) ready r
    · cases hs
  | decoded len =>
    dsimp only [step] at hs
    split at hs
    · rename_i hpc
      cases hs
      exact h.move (by rw [hpc]; rfl) rfl (by rintro (h | h) <;> cases h)
    · cases hs
  | ui playtime =>
    dsimp only [step] at hs
    split at hs
    · cases hs
      exact h.ui_process (by assumption) playtime
    · cases hs
  | ui_back =>
    dsimp only [step] at hs
    split at hs
    · cases hs
      exact h.ui_back (by assumption)
    · cases hs
  | converted len =>
    dsimp only [step] at hs
    split at hs
    · rename_i hpc
      cases hs
      exact h.move (by rw [hpc]; rfl) rfl (by rintro (h | h) <;> cases h)
    · cases hs
  | device a =>
    dsimp only [step] at hs
    split at hs
    · cases hs
      exact h.device (by assumption) hc
    · cases hs
  | event =>
    dsimp only [step] at hs
    split at hs
    · rename_i hctx
      cases hs
      exact ⟨h.pausing.event hctx,h.silent,h.resumed,h.position,h.order⟩
    · cases hs
  | arrived =>
    dsimp only [step] at hs
    split at hs
    · rename_i hpc
      cases hs
      exact h.wake (h.pausing.free (by rw [hpc]; rfl)) (by rw [hpc]; rfl)
    · cases hs
  | pause_resume =>
    dsimp only [step] at hs
    split at hs
    · rename_i hidle
      cases hs
      exact h.pause_resume hidle.2
    · cases hs
  | seek k =>
    dsimp only [step] at hs
    split at hs
    · rename_i hidle
      exact h.seek hidle.2 hc hs
    · cases hs

theorem inv_init (seek : Option Nat) (seek_req : Bool) : Inv (init seek seek_req) :=
  ⟨⟨by simp [init],nofun,nofun,nofun,nofun,nofun,nofun,nofun,nofun⟩,rfl,rfl,nofun,nofun⟩

/-- The device has room for `n` bytes. -/
def room (n : Nat) : Dev := ⟨.ok,n,false,false⟩

/-- The track starts and waits for the device. -/
def started : List Act := [.run,.reader true (.data 100),.ui 0,.device (room 60)]

/-- A pause, a seek in the graphical user interface while the track is held, and a resume. -/
def sought : List Act :=
  started ++ ([.pause_resume,.run,.device (room 40),.seek (.sec 30),.pause_resume,.run,
    .device (room 40),.ui_back,.reader true (.data 100),.ui 30,.device (room 100)] : List Act)

end Phiola.Pause
