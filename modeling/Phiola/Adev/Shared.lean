import Phiola.Framework.Machine
import Mathlib.Logic.Function.Basic

/-!
# The shared playback buffer

The ALSA and PulseAudio players keep one open buffer and hand it from track to track. The tracks
and the timer of the players are on one worker, so that each call runs to its end.
-/

namespace Phiola.Shared

inductive Api
  | alsa
  | pulse
deriving DecidableEq, Repr

/-- `struct phi_af` -/
structure Af where
  format : Nat
  channels : Nat
  rate : Nat
  interleaved : Bool
deriving DecidableEq, Repr

def af_eq (a b : Af) : Bool := a.format = b.format ∧ a.channels = b.channels ∧ a.rate = b.rate

def phi_af_update (dst src : Af) : Af :=
  {dst with
    format := if src.format ≠ 0 then src.format else dst.format
    rate := if src.rate ≠ 0 then src.rate else dst.rate
    channels := if src.channels ≠ 0 then src.channels else dst.channels}

/-- `struct fmt_pair` -/
structure Pair where
  bad : Af
  good : Af
deriving DecidableEq, Repr

def fmt_conv_find (fmts : List Pair) (fmt : Af) : Option Af :=
  (fmts.find? fun p => af_eq fmt p.bad).map Pair.good

def fmt_conv_add (fmts : List Pair) (bad good : Af) : List Pair :=
  match fmts with
  | [] => [⟨bad,good⟩]
  | p :: ps => if af_eq bad p.bad then ⟨p.bad,good⟩ :: ps else p :: fmt_conv_add ps bad good

/-- The formats that `ffpcm_to_ffaudio()` knows. -/
def ffpcm_formats : List Nat := [8,16,24,32,0x120,0x220,0x240]

/-- `enum ST` of a playback device. -/
inductive ST
  | st_try
  | st_open
  | st_waiting
  | st_signalled
  | st_feeding
deriving DecidableEq, Repr

/-- `audio_out` and what it keeps in `t->oaudio` of its track: `ctx` says that `adev_ctx` is set.
`err` is `err_code`. -/
structure Out where
  state : ST
  err : Bool
  dev : Bool
  stream : Option Nat
  reconnect : Bool
  ctx : Bool
  conv_format : Af
  closed : Bool
deriving DecidableEq, Repr

/-- What `mod->tmr` calls. -/
inductive Tmr
  | onplay (a : Nat)
  | buf_close
deriving DecidableEq, Repr

/-- Who makes a call of the device: a track that plays or closes, a track in its create step, or
the close timer. -/
inductive Who
  | track (a : Nat)
  | create (a : Nat)
  | timer
deriving DecidableEq, Repr

inductive Op
  | write
  | drain
  | stop
  | clear
  | free
deriving DecidableEq, Repr

/-- A call of the device on a buffer: whether the buffer is allocated, whether it is `mod->out`,
and whom `mod->usedby` names. -/
structure Use where
  op : Op
  who : Who
  live : Bool
  shared : Bool
  usedby : Option Nat
deriving DecidableEq, Repr

/-- `struct alsa_mod`, `struct pulse_mod`, with the first `count` tracks, the next buffer, the
freed ones, and the calls of the device. -/
structure Mod where
  out : Option Nat
  tmr : Option Tmr
  fmt : Af
  fmts : List Pair
  usedby : Option Nat
  dev_idx : Nat
  trk : Nat → Out
  count : Nat
  next : Nat
  freed : List Nat
  log : List Use

def new_out : Out := ⟨.st_try,false,false,none,false,false,⟨0,0,0,false⟩,false⟩

def init : Mod := ⟨none,none,⟨0,0,0,false⟩,[],none,0,fun _ => new_out,0,0,[],[]⟩

def Mod.set (m : Mod) (a : Nat) (x : Out) : Mod := {m with trk := Function.update m.trk a x}

def Mod.device (m : Mod) (op : Op) (who : Who) (b : Option Nat) : Mod :=
  {m with log := m.log ++ [⟨op,who,b.any fun b => b ∉ m.freed,b = m.out,m.usedby⟩]}

/-- What the device's functions answer in `audio_out_open()`; `conf` is the format that the device
offers. -/
inductive Opened
  | ok
  | eformat (conf : Af)
  | econnection
  | error
deriving DecidableEq, Repr

/-- The input is PCM, the device with the index is there, a buffer is allocated, it is opened. -/
structure Answers where
  pcm : Bool
  dev : Bool
  alloc : Bool
  opened : Opened
deriving DecidableEq, Repr

inductive Rc
  | ok
  | eformat
  | econnection
  | error
deriving DecidableEq, Repr

/-- A positive result of `audio->write()`, `-FFAUDIO_ESYNC` or another error. -/
inductive Written
  | got (n : Nat)
  | sync
  | error
deriving DecidableEq, Repr

inductive Drained
  | done
  | wait
  | error
deriving DecidableEq, Repr

/-- The flags of the track in `audio_out_write()`, its input of `len` bytes, and the device's
answers; when `writes` is used up, there is no room. -/
structure Io where
  stop : Bool
  clear : Bool
  seek_req : Bool
  pause : Bool
  first : Bool
  len : Nat
  writes : List Written
  drain : Drained
deriving DecidableEq, Repr

/-- A call of the filter: `t->oaudio.format`, the device index of the track, the answers while the
device is opened (after a reconnection: `second`, if `pulse_init()` succeeds), and those after. -/
structure Call where
  fmt : Af
  dev_idx : Nat
  first : Answers
  reinit : Bool
  second : Answers
  io : Io
deriving DecidableEq, Repr

inductive Code
  | done
  | fin
  | more
  | async
  | err
deriving DecidableEq, Repr

/-! ## `audio-play.h` -/

/-- The end of `audio_out_open()` after a failure: `free(NULL)` does nothing. -/
def open_end (m : Mod) (a : Nat) : Mod :=
  match (m.trk a).stream with
  | none => m
  | some b =>
    let m := m.device .free (.create a) (some b)
    {m with freed := b :: m.freed}.set a {m.trk a with stream := none}

/-- The conversion that the device wants. -/
def new_format (conv fmt conf : Af) : Af :=
  {conv with
    format := if conf.format ≠ fmt.format then conf.format else conv.format
    rate := if conf.rate ≠ fmt.rate then conf.rate else conv.rate
    channels := if conf.channels ≠ fmt.channels then conf.channels else conv.channels}

/-- The part of `audio_out_open()` after the buffer is allocated. -/
def open_stream (m : Mod) (a : Nat) (fmt : Af) (try_open : Bool) (opened : Opened) : Mod × Rc :=
  if fmt.format ∉ ffpcm_formats then (open_end m a,.error)
  else
    match opened with
    | .ok => (m.set a {m.trk a with state := .st_feeding},.ok)
    | .eformat conf =>
      if try_open ∧ af_eq conf fmt = false then
        (open_end (m.set a {m.trk a with
          conv_format := new_format (m.trk a).conv_format fmt conf}) a,.eformat)
      else (open_end m a,.error)
    | .econnection => (open_end m a,.econnection)
    | .error => (open_end m a,.error)

def audio_out_open (m : Mod) (a dev_idx : Nat) (fmt : Af) (try_open : Bool) (r : Answers) :
    Mod × Rc :=
  if r.pcm = false then (m,.error)
  else if (m.trk a).dev = false ∧ dev_idx ≠ 0 ∧ r.dev = false then (open_end m a,.error)
  else
    let dev := (m.trk a).dev || dev_idx != 0
    if r.alloc = false then (m.set a {m.trk a with dev := dev, stream := none},.error)
    else
      open_stream ({m with next := m.next + 1}.set a {m.trk a with dev := dev, stream := some m.next})
        a fmt try_open r.opened

/-- `audio_out_onplay()`; the wake of the track is not a call of the player. -/
def audio_out_onplay (m : Mod) (a : Nat) : Mod := m.set a {m.trk a with state := .st_signalled}

/-- The loop of `audio_out_write()` with `len` bytes left, and what it returns. -/
def write_loop (m : Mod) (a len : Nat) (writes : List Written) : Mod × Option Code :=
  if len = 0 then (m,none)
  else
    let m := m.device .write (.track a) (m.trk a).stream
    match writes with
    | [] => (m.set a {m.trk a with state := .st_waiting},some .async)
    | .got n :: rs => write_loop m a (len - n) rs
    | .sync :: rs => write_loop m a len rs
    | .error :: _ => (m.set a {m.trk a with err := true},some .err)

/-- The end of `audio_out_write()`. -/
def write_end (m : Mod) (a : Nat) (io : Io) : Mod × Code :=
  if io.first then
    let m := m.device .drain (.track a) (m.trk a).stream
    match io.drain with
    | .done => (m,.done)
    | .error => (m.set a {m.trk a with err := true},.err)
    | .wait => (m.set a {m.trk a with state := .st_waiting},.async)
  else (m.set a {m.trk a with state := .st_feeding},.more)

/-- The part of `audio_out_write()` after the buffer was cleared. -/
def write_data (m : Mod) (a : Nat) (io : Io) : Mod × Code :=
  if io.pause then (m.device .stop (.track a) (m.trk a).stream,.async)
  else
    let p := write_loop m a io.len io.writes
    match p.2 with
    | some rc => (p.1,rc)
    | none => write_end p.1 a io

def audio_out_write (m : Mod) (a : Nat) (io : Io) : Mod × Code :=
  if io.stop then (m,.fin)
  else if io.clear then
    let m := (m.device .stop (.track a) (m.trk a).stream).device .clear (.track a) (m.trk a).stream
    if io.seek_req then (m,.more) else write_data m a io
  else write_data m a io

def audio_stop (m : Mod) (a : Nat) : Mod :=
  audio_out_onplay (m.device .stop (.track a) (m.trk a).stream) a

/-! ## `alsa-play.h`, `pulse-play.h` -/

/-- `alsa_buf_close()`, `pulse_buf_close()` -/
def buf_close (m : Mod) (who : Who) : Mod :=
  match m.out with
  | none => m
  | some b =>
    let m := m.device .free who (some b)
    {m with freed := b :: m.freed, out := none}

/-- The timer is stopped, and the track that uses the buffer is woken. -/
def take_over (m : Mod) : Mod :=
  let m := {m with tmr := none}
  match m.usedby with
  | none => m
  | some cur => audio_out_onplay {m with usedby := none} cur

/-- The open buffer is stopped and cleared. -/
def reuse (m : Mod) (a : Nat) : Mod :=
  let m := (m.device .stop (.create a) m.out).device .clear (.create a) m.out
  m.set a {m.trk a with stream := m.out, dev := false}

/-- The opened buffer is the players' buffer now. -/
def adopt (m : Mod) (a : Nat) (c : Call) : Mod :=
  let m := m.set a {m.trk a with dev := false}
  {m with out := (m.trk a).stream, fmt := c.fmt, dev_idx := c.dev_idx}

/-- The label `fin`. -/
def create_fin (m : Mod) (a : Nat) : Mod :=
  {m with usedby := some a, tmr := some (.onplay a)}.set a {m.trk a with ctx := true}

def create_err (m : Mod) (a : Nat) : Mod := m.set a {m.trk a with err := true}

/-- The buffer is opened in `alsa_create()`. -/
def alsa_open (m : Mod) (a : Nat) (c : Call) (try_open : Bool) : Mod × Code :=
  let p := audio_out_open m a c.dev_idx c.fmt try_open c.first
  match p.2 with
  | .ok => (create_fin (adopt p.1 a c) a,.done)
  | .eformat =>
    let req_fmt := phi_af_update c.fmt (p.1.trk a).conv_format
    ({p.1 with fmts := fmt_conv_add p.1.fmts c.fmt req_fmt},.more)
  | .econnection | .error => (create_err p.1 a,.err)

/-- The format that the device has asked for before, if the open buffer has it. -/
def good_fmt (m : Mod) (c : Call) : Option Af :=
  (fmt_conv_find m.fmts c.fmt).filter fun good => af_eq good m.fmt

def reusable (m : Mod) (c : Call) : Bool := m.dev_idx = c.dev_idx ∧ af_eq c.fmt m.fmt

def alsa_create (m : Mod) (a : Nat) (c : Call) (try_open : Bool) : Mod × Code :=
  if m.out.isSome then
    let m := take_over m
    if reusable m c then (create_fin (reuse m a) a,.done)
    else
      match if try_open ∧ m.dev_idx = c.dev_idx then good_fmt m c else none with
      | some good => (m.set a {m.trk a with conv_format := good},.more)
      | none => alsa_open (buf_close m (.create a)) a c try_open
  else alsa_open m a c try_open

/-- The buffer is opened in `pulse_create()`, where a lost connection is made anew once. -/
def pulse_open (m : Mod) (a : Nat) (c : Call) (try_open : Bool) : Mod × Code :=
  let p := audio_out_open m a c.dev_idx c.fmt try_open c.first
  match p.2 with
  | .ok => (create_fin (adopt p.1 a c) a,.done)
  | .eformat => (p.1,.more)
  | .error => (create_err p.1 a,.err)
  | .econnection =>
    if (p.1.trk a).reconnect ∨ c.reinit = false then (create_err p.1 a,.err)
    else
      let m := p.1.set a {p.1.trk a with reconnect := true}
      let p := audio_out_open m a c.dev_idx c.fmt try_open c.second
      match p.2 with
      | .ok => (create_fin (adopt p.1 a c) a,.done)
      | .eformat => (p.1,.more)
      | .econnection | .error => (create_err p.1 a,.err)

def pulse_create (m : Mod) (a : Nat) (c : Call) (try_open : Bool) : Mod × Code :=
  if m.out.isSome then
    let m := take_over m
    if reusable m c then (create_fin (reuse m a) a,.done)
    else pulse_open (buf_close m (.create a)) a c try_open
  else pulse_open m a c try_open

def create (api : Api) : Mod → Nat → Call → Bool → Mod × Code :=
  match api with
  | .alsa => alsa_create
  | .pulse => pulse_create

/-- `alsa_write()`, `pulse_write()` after the create step. -/
def created (m : Mod) (a : Nat) (c : Call) (rc : Code) : Mod × Code :=
  if rc = .done ∧ c.fmt.interleaved then
    audio_out_write (m.set a {m.trk a with state := .st_waiting}) a c.io
  else
    let conv := {(m.trk a).conv_format with interleaved := true}
    if (m.trk a).state = .st_open then (m.set a {m.trk a with conv_format := conv},.err)
    else (m.set a {m.trk a with conv_format := conv, state := .st_open},.more)

/-- `alsa_write()`, `pulse_write()` -/
def adev_write (api : Api) (m : Mod) (a : Nat) (c : Call) : Mod × Code :=
  if (m.trk a).state = .st_try ∨ (m.trk a).state = .st_open then
    let p := create api m a c ((m.trk a).state = .st_try)
    if p.2 = .err then p else created p.1 a c p.2
  else audio_out_write m a c.io

/-- `alsa_close()`, `pulse_close()` -/
def adev_close (m : Mod) (a : Nat) : Mod :=
  let m :=
    if (m.trk a).err then
      let m := {buf_close m (.track a) with tmr := none}
      if m.usedby = some a then {m with usedby := none} else m
    else if m.usedby = some a then
      {m.device .stop (.track a) m.out with tmr := some .buf_close, usedby := none}
    else m
  m.set a {m.trk a with closed := true}

/-- The timer fires: that of `buf_close` is a one-shot timer. -/
def tmr_fired (m : Mod) : Mod :=
  match m.tmr with
  | none => m
  | some (.onplay a) => audio_out_onplay m a
  | some .buf_close => buf_close {m with tmr := none} .timer

/-- A track is opened, calls the player, is stopped by its user interface, or is closed; the timer
fires. -/
inductive Act
  | opened
  | write (a : Nat) (c : Call)
  | stop (a : Nat)
  | close (a : Nat)
  | timer
deriving DecidableEq, Repr

def Mod.is_open (m : Mod) (a : Nat) : Bool := a < m.count ∧ (m.trk a).closed = false

def step (api : Api) (m : Mod) : Act → Option Mod
  | .opened => some {m.set m.count new_out with count := m.count + 1}
  | .write a c => if m.is_open a then some (adev_write api m a c).1 else none
  | .stop a => if m.is_open a ∧ (m.trk a).ctx then some (audio_stop m a) else none
  | .close a => if m.is_open a then some (adev_close m a) else none
  | .timer => if m.tmr.isSome then some (tmr_fired m) else none

/-! ## What the tracks may rely on -/

/-- The call is made by the track that uses the buffer, or nobody uses the buffer: it is taken over
in a create step or closed by the timer. -/
def Use.allowed (u : Use) : Prop :=
  match u.who with
  | .track a => u.usedby = some a
  | .create _ | .timer => u.usedby = none

/-- The track has to repeat its create step. -/
def Mod.retrying (m : Mod) (a : Nat) : Bool := m.is_open a ∧ (m.trk a).state = .st_open

structure Kept (m : Mod) : Prop where
  usedby : ∀ a, m.usedby = some a → m.is_open a
  onplay : ∀ a, m.tmr = some (.onplay a) → m.is_open a
  live : ∀ u ∈ m.log, u.live = true
  owner : ∀ u ∈ m.log, u.shared = true → u.allowed
  close : m.out.isSome → m.usedby = none → (∀ a < m.count, m.retrying a = false) →
    m.tmr = some .buf_close

/-- `audio_out_write()` makes a call of the device. -/
def Io.touches (io : Io) : Bool := !io.stop && (io.clear || io.pause || io.len != 0 || io.first)

/-- The device with the index is looked for in vain. -/
def Mod.no_dev (m : Mod) (a : Nat) (c : Call) : Bool :=
  c.first.pcm && !(m.trk a).dev && c.dev_idx != 0 && !c.first.dev

/-- Only the track that uses the buffer writes to it, is stopped, and fails with it open; a device is
not looked for in vain by a track that has lost its buffer in its create step; and a track is not
closed before it repeats its create step, if it is the only one that keeps the buffer from the
timer. -/
def Clear (m : Mod) : Act → Prop
  | .write a c =>
    if (m.trk a).state = .st_try ∨ (m.trk a).state = .st_open then
      (m.trk a).stream.isSome → m.no_dev a c = true → m.out.isSome ∧ reusable m c = true
    else c.io.touches = true → m.usedby = some a
  | .stop a => m.usedby = some a
  | .close a =>
    if (m.trk a).err then m.usedby = some a ∨ m.out = none
    else m.retrying a = true → m.out.isSome → m.usedby = none → m.tmr = none →
      ∃ b < m.count, b ≠ a ∧ m.retrying b = true
  | .opened | .timer => True

instance (m : Mod) : ∀ a, Decidable (Clear m a)
  | .write a c =>
    inferInstanceAs (Decidable (if (m.trk a).state = .st_try ∨ (m.trk a).state = .st_open then
      (m.trk a).stream.isSome → m.no_dev a c = true → m.out.isSome ∧ reusable m c = true
      else c.io.touches = true → m.usedby = some a))
  | .stop a => inferInstanceAs (Decidable (m.usedby = some a))
  | .close a =>
    inferInstanceAs (Decidable (if (m.trk a).err then m.usedby = some a ∨ m.out = none
      else m.retrying a = true → m.out.isSome → m.usedby = none → m.tmr = none →
        ∃ b < m.count, b ≠ a ∧ m.retrying b = true))
  | .opened | .timer => inferInstanceAs (Decidable True)

/-! ## The buffer and its user -/

/-- The open buffer is allocated, who uses it is open and has it for its stream, and the timer
belongs to who uses the buffer or to nobody. -/
structure Base (m : Mod) : Prop where
  fresh : ∀ b ∈ m.freed, b < m.next
  out : ∀ b, m.out = some b → b < m.next ∧ b ∉ m.freed
  user : ∀ a, m.usedby = some a → m.is_open a ∧ m.out.isSome ∧ (m.trk a).stream = m.out
  onplay : ∀ a, m.tmr = some (.onplay a) → m.usedby = some a
  closer : m.tmr = some .buf_close → m.usedby = none
  log : ∀ u ∈ m.log, u.live = true ∧ (u.shared = true → u.allowed)

structure Inv (m : Mod) : Prop extends Base m where
  close : m.out.isSome → m.usedby = none → (∀ a < m.count, m.retrying a = false) →
    m.tmr = some .buf_close

variable {m : Mod} {a : Nat}

theorem Inv.kept (h : Inv m) : Kept m where
  usedby a ha := (h.user a ha).1
  onplay a ha := (h.user a (h.onplay a ha)).1
  live u hu := (h.log u hu).1
  owner u hu := (h.log u hu).2
  close := h.close

@[simp] theorem set_self (m : Mod) (a : Nat) (x : Out) : (m.set a x).trk a = x := by
  simp [Mod.set]

theorem set_other (m : Mod) {a b : Nat} (h : b ≠ a) (x : Out) : (m.set a x).trk b = m.trk b := by
  simp [Mod.set,h]

/-- A track changes: who uses the buffer stays open and keeps its stream. -/
theorem Base.set (h : Base m) {x : Out}
    (hx : m.usedby = some a → x.closed = (m.trk a).closed ∧ x.stream = (m.trk a).stream) :
    Base (m.set a x) where
  fresh := h.fresh
  out := h.out
  user b hb := by
    obtain ⟨hopen,hout,hstream⟩ := h.user b hb
    by_cases hba : b = a
    · subst hba
      have hx := hx hb
      refine ⟨?_,hout,?_⟩
      · unfold Mod.is_open at hopen ⊢
        rw [set_self,hx.1]
        exact hopen
      · rw [set_self,hx.2]
        exact hstream
    · refine ⟨?_,hout,?_⟩
      · unfold Mod.is_open at hopen ⊢
        rw [set_other m hba]
        exact hopen
      · rw [set_other m hba]
        exact hstream
  onplay := h.onplay
  closer := h.closer
  log := h.log

theorem Base.device (h : Base m) (op : Op) (who : Who) {b : Nat} (hb : b ∉ m.freed)
    (hwho : m.out = some b → Use.allowed ⟨op,who,true,true,m.usedby⟩) :
    Base (m.device op who (some b)) where
  fresh := h.fresh
  out := h.out
  user := h.user
  onplay := h.onplay
  closer := h.closer
  log u hu := by
    rcases List.mem_append.mp hu with hu | hu
    · exact h.log u hu
    · obtain rfl := List.mem_singleton.mp hu
      refine ⟨by simpa using hb,fun hshared => ?_⟩
      exact hwho (of_decide_eq_true hshared).symm

/-- The buffer in use, its user and the timer stay as they are, and so do the other tracks. -/
structure Frame (a : Nat) (m m' : Mod) : Prop where
  out : m'.out = m.out
  usedby : m'.usedby = m.usedby
  tmr : m'.tmr = m.tmr
  count : m'.count = m.count
  closed : (m'.trk a).closed = (m.trk a).closed
  other : ∀ b, b ≠ a → m'.trk b = m.trk b

variable {m' m'' : Mod}

theorem Frame.refl (a : Nat) (m : Mod) : Frame a m m := ⟨rfl,rfl,rfl,rfl,rfl,fun _ _ => rfl⟩

theorem Frame.trans (h : Frame a m m') (h' : Frame a m' m'') : Frame a m m'' :=
  ⟨h'.out.trans h.out,h'.usedby.trans h.usedby,h'.tmr.trans h.tmr,h'.count.trans h.count,
    h'.closed.trans h.closed,fun b hb => (h'.other b hb).trans (h.other b hb)⟩

theorem Frame.set (m : Mod) {x : Out} (hx : x.closed = (m.trk a).closed) :
    Frame a m (m.set a x) :=
  ⟨rfl,rfl,rfl,rfl,by rw [set_self,hx],fun b hb => set_other m hb x⟩

theorem Frame.device (a : Nat) (m : Mod) (op : Op) (who : Who) (b : Option Nat) :
    Frame a m (m.device op who b) :=
  ⟨rfl,rfl,rfl,rfl,rfl,fun _ _ => rfl⟩

theorem Frame.is_open (h : Frame a m m') (b : Nat) : m'.is_open b = m.is_open b := by
  unfold Mod.is_open
  rw [h.count]
  by_cases hb : b = a
  · subst hb
    rw [h.closed]
  · rw [h.other b hb]

/-- No buffer is in use. -/
structure Vacant (m : Mod) : Prop where
  base : Base m
  usedby : m.usedby = none
  out : m.out = none

theorem Vacant.set (h : Vacant m) (x : Out) : Vacant (m.set a x) where
  base := h.base.set fun ha => by
    rw [h.usedby] at ha
    cases ha
  usedby := h.usedby
  out := h.out

theorem Vacant.open_end (h : Vacant m) (hb : ∀ b, (m.trk a).stream = some b → b < m.next ∧ b ∉ m.freed) :
    Vacant (open_end m a) ∧ Frame a m (open_end m a) ∧ ((open_end m a).trk a).stream = none := by
  unfold Shared.open_end
  split
  · rename_i hnone
    exact ⟨h,Frame.refl a m,hnone⟩
  · rename_i b hstream
    obtain ⟨hlt,hnew⟩ := hb b hstream
    have hdev : Base (m.device .free (.create a) (some b)) :=
      h.base.device .free (.create a) hnew fun hout => by
        rw [h.out] at hout
        cases hout
    have hfree : Vacant {m.device .free (.create a) (some b) with freed := b :: m.freed} := by
      refine ⟨⟨fun x hx => ?_,fun x hx => ?_,hdev.user,hdev.onplay,hdev.closer,hdev.log⟩,
        h.usedby,h.out⟩
      · rcases List.mem_cons.mp hx with rfl | hx
        · exact hlt
        · exact h.base.fresh x hx
      · cases h.out.symm.trans hx
    exact ⟨hfree.set _,⟨rfl,rfl,rfl,rfl,by rw [set_self]; rfl,fun c hc => set_other _ hc _⟩,by
      rw [set_self]⟩

/-- What `audio_out_open()` leaves: a new buffer, or none that it has allocated. -/
structure Opening (a : Nat) (m : Mod) (p : Mod × Rc) : Prop where
  vacant : Vacant p.1
  frame : Frame a m p.1
  ok : p.2 = .ok → ∃ b, (p.1.trk a).stream = some b ∧ b < p.1.next ∧ b ∉ p.1.freed
  lost : p.2 = .econnection → (p.1.trk a).stream = none

theorem Opening.ended (h : Vacant m) (hf : Frame a m' m)
    (hb : ∀ b, (m.trk a).stream = some b → b < m.next ∧ b ∉ m.freed) {rc : Rc} (hrc : rc ≠ .ok) :
    Opening a m' (open_end m a,rc) := by
  obtain ⟨hv,hframe,hnone⟩ := h.open_end hb
  exact ⟨hv,hf.trans hframe,fun heq => (hrc heq).elim,fun _ => hnone⟩

theorem Vacant.open_stream (h : Vacant m) (hf : Frame a m' m) {b : Nat}
    (hb : (m.trk a).stream = some b) (hlt : b < m.next) (hnew : b ∉ m.freed) (fmt : Af)
    (try_open : Bool) (opened : Opened) : Opening a m' (open_stream m a fmt try_open opened) := by
  have hstream {x : Nat} (hx : (m.trk a).stream = some x) : x < m.next ∧ x ∉ m.freed := by
    obtain rfl := Option.some.inj (hb.symm.trans hx)
    exact ⟨hlt,hnew⟩
  unfold Shared.open_stream
  split
  · exact .ended h hf (fun _ => hstream) nofun
  · cases opened with
    | ok =>
      exact ⟨h.set _,hf.trans (.set m rfl),fun _ => ⟨b,by rw [set_self]; exact hb,hlt,hnew⟩,nofun⟩
    | eformat conf =>
      dsimp only
      split
      · refine .ended (h.set _) (hf.trans (.set m ?_)) (fun x hx => ?_) nofun
        · rfl
        · rw [set_self] at hx
          exact hstream hx
      · exact .ended h hf (fun _ => hstream) nofun
    | econnection => exact .ended h hf (fun _ => hstream) nofun
    | error => exact .ended h hf (fun _ => hstream) nofun

/-- A device that is looked for in vain frees a buffer that the track has no more. -/
theorem Vacant.audio_out_open (h : Vacant m) (dev_idx : Nat) (fmt : Af) (try_open : Bool)
    {r : Answers}
    (hdev : r.pcm = true → (m.trk a).dev = false → dev_idx ≠ 0 → r.dev = false →
      (m.trk a).stream = none) :
    Opening a m (audio_out_open m a dev_idx fmt try_open r) := by
  unfold Shared.audio_out_open
  split
  · exact ⟨h,.refl a m,nofun,nofun⟩
  · rename_i hpcm
    split
    · rename_i hno
      have hnone := hdev (by simpa using hpcm) hno.1 hno.2.1 hno.2.2
      refine .ended h (.refl a m) (fun b hb => ?_) nofun
      rw [hnone] at hb
      cases hb
    · dsimp only
      split
      · exact ⟨h.set _,.set m rfl,nofun,nofun⟩
      · have hnext : Vacant {m with next := m.next + 1} :=
          ⟨⟨fun b hb => Nat.lt_succ_of_lt (h.base.fresh b hb),
            fun b hb => (by cases h.out.symm.trans hb),h.base.user,h.base.onplay,h.base.closer,
            h.base.log⟩,h.usedby,h.out⟩
        have hadd : Frame a m {m with next := m.next + 1} := ⟨rfl,rfl,rfl,rfl,rfl,fun _ _ => rfl⟩
        refine (hnext.set _).open_stream (hadd.trans (.set _ ?_)) (b := m.next) ?_
          (Nat.lt_succ_self m.next) (fun hb => Nat.lt_irrefl _ (h.base.fresh _ hb)) fmt try_open
          r.opened
        · rfl
        · rw [set_self]

theorem Opening.again {q : Mod × Rc} (h : Opening a m q) (hrc : q.2 = .econnection) (dev_idx : Nat)
    (fmt : Af) (try_open : Bool) (r : Answers) :
    Opening a m (audio_out_open (q.1.set a {q.1.trk a with reconnect := true}) a dev_idx fmt
      try_open r) := by
  have hset := h.vacant.set (a := a) {q.1.trk a with reconnect := true}
  have hq := hset.audio_out_open (a := a) dev_idx fmt try_open (r := r) fun _ _ _ _ => by
    rw [set_self]
    exact h.lost hrc
  refine ⟨hq.vacant,(h.frame.trans (.set q.1 ?_)).trans hq.frame,hq.ok,hq.lost⟩
  rfl

/-! ## The create step -/

/-- Nobody uses the buffer and the timer is off. -/
structure Taken (a : Nat) (m m' : Mod) : Prop where
  base : Base m'
  usedby : m'.usedby = none
  tmr : m'.tmr = none
  out : m'.out = m.out
  count : m'.count = m.count
  fmt : m'.fmt = m.fmt
  dev_idx : m'.dev_idx = m.dev_idx
  closed : ∀ b, (m'.trk b).closed = (m.trk b).closed
  stream : (m'.trk a).stream = (m.trk a).stream
  dev : (m'.trk a).dev = (m.trk a).dev

theorem Base.take_over (h : Base m) (a : Nat) : Taken a m (take_over m) := by
  have hoff : Base {m with tmr := none} := ⟨h.fresh,h.out,h.user,nofun,nofun,h.log⟩
  unfold Shared.take_over
  dsimp only
  split
  · rename_i hnone
    exact ⟨hoff,hnone,rfl,rfl,rfl,rfl,rfl,fun _ => rfl,rfl,rfl⟩
  · rename_i cur hcur
    have hfree : Base {m with tmr := none, usedby := none} :=
      ⟨h.fresh,h.out,nofun,nofun,nofun,h.log⟩
    have hsame (b : Nat) : let m' := audio_out_onplay {m with tmr := none, usedby := none} cur
        (m'.trk b).closed = (m.trk b).closed ∧ (m'.trk b).stream = (m.trk b).stream ∧
          (m'.trk b).dev = (m.trk b).dev := by
      by_cases hb : b = cur
      · subst hb
        simp [audio_out_onplay]
      · simp only [audio_out_onplay]
        rw [set_other _ hb]
        exact ⟨rfl,rfl,rfl⟩
    exact ⟨hfree.set nofun,rfl,rfl,rfl,rfl,rfl,rfl,fun b => (hsame b).1,(hsame a).2.1,(hsame a).2.2⟩

theorem Base.buf_close (h : Base m) (who : Who)
    (hwho : m.out ≠ none → Use.allowed ⟨.free,who,true,true,m.usedby⟩) :
    Base {buf_close m who with tmr := none, usedby := none} ∧ (buf_close m who).out = none := by
  unfold Shared.buf_close
  split
  · rename_i hout
    exact ⟨⟨h.fresh,h.out,nofun,nofun,nofun,h.log⟩,hout⟩
  · rename_i b hout
    obtain ⟨hlt,hnew⟩ := h.out b hout
    have hdev := h.device .free who hnew fun _ => hwho (by rw [hout]; exact nofun)
    refine ⟨⟨fun x hx => ?_,nofun,nofun,nofun,nofun,hdev.log⟩,rfl⟩
    rcases List.mem_cons.mp hx with rfl | hx
    · exact hlt
    · exact h.fresh x hx

theorem Base.create_fin (h : Base m) (hopen : m.is_open a) (hout : m.out.isSome)
    (hstream : (m.trk a).stream = m.out) : Base (create_fin m a) := by
  refine ⟨h.fresh,h.out,fun b hb => ?_,fun b hb => ?_,nofun,h.log⟩
  · cases hb
    refine ⟨?_,hout,?_⟩
    · unfold Mod.is_open at hopen ⊢
      rw [Shared.create_fin,set_self]
      exact hopen
    · rw [Shared.create_fin,set_self]
      exact hstream
  · cases hb
    rfl

theorem Frame.create_fin (h : m'.count = m.count) (hc : (m'.trk a).closed = (m.trk a).closed) :
    (create_fin m' a).is_open a = m.is_open a := by
  unfold Mod.is_open Shared.create_fin
  rw [set_self]
  change decide (a < m'.count ∧ (m'.trk a).closed = false) = _
  rw [h,hc]

/-- What the create step leaves: the track uses the open buffer, or it has to repeat the step, or it
has failed and no buffer is open. -/
structure Created (a : Nat) (m : Mod) (p : Mod × Code) : Prop where
  base : Base p.1
  is_open : p.1.is_open a = m.is_open a
  done : p.2 = .done → p.1.usedby = some a
  err : p.2 = .err → p.1.out = none

theorem Created.of_open {q : Mod × Rc} (h : Opening a m q) (hopen : m.is_open a) (c : Call)
    (hrc : q.2 = .ok) : Created a m (create_fin (adopt q.1 a c) a,.done) := by
  obtain ⟨b,hb,hlt,hnew⟩ := h.ok hrc
  have hset := h.vacant.set (a := a) {q.1.trk a with dev := false}
  have hstream : ((q.1.set a {q.1.trk a with dev := false}).trk a).stream = some b := by
    rw [set_self]
    exact hb
  have hadopt : Base (adopt q.1 a c) := by
    refine ⟨hset.base.fresh,fun x hx => ?_,fun x hx => ?_,hset.base.onplay,hset.base.closer,
      hset.base.log⟩
    · obtain rfl := Option.some.inj (hstream.symm.trans hx)
      exact ⟨hlt,hnew⟩
    · cases hset.usedby.symm.trans hx
  have hsame : (adopt q.1 a c).is_open a = m.is_open a := by
    rw [← h.frame.is_open a]
    unfold Mod.is_open adopt
    dsimp only
    rw [set_self]
    rfl
  refine ⟨hadopt.create_fin (hsame.trans hopen) ?_ rfl,?_,fun _ => rfl,nofun⟩
  · change ((q.1.set a {q.1.trk a with dev := false}).trk a).stream.isSome = true
    rw [hstream]
    rfl
  · rw [← hsame]
    exact Frame.create_fin rfl rfl

theorem Created.of_err {q : Mod × Rc} (h : Opening a m q) : Created a m (create_err q.1 a,.err) where
  base := (h.vacant.set _).base
  is_open := (h.frame.trans (.set q.1 (x := {q.1.trk a with err := true}) rfl)).is_open a
  done := nofun
  err _ := h.vacant.out

theorem Vacant.alsa_open (h : Vacant m) (hopen : m.is_open a) {c : Call} {try_open : Bool}
    (hdev : c.first.pcm = true → (m.trk a).dev = false → c.dev_idx ≠ 0 → c.first.dev = false →
      (m.trk a).stream = none) : Created a m (alsa_open m a c try_open) := by
  have hq := h.audio_out_open (a := a) _ c.fmt try_open hdev
  unfold Shared.alsa_open
  dsimp only
  split
  · rename_i hrc
    exact .of_open hq hopen c hrc
  · exact ⟨⟨hq.vacant.base.fresh,hq.vacant.base.out,hq.vacant.base.user,hq.vacant.base.onplay,
      hq.vacant.base.closer,hq.vacant.base.log⟩,hq.frame.is_open a,nofun,nofun⟩
  · exact .of_err hq
  · exact .of_err hq

theorem Vacant.pulse_open (h : Vacant m) (hopen : m.is_open a) {c : Call} {try_open : Bool}
    (hdev : c.first.pcm = true → (m.trk a).dev = false → c.dev_idx ≠ 0 → c.first.dev = false →
      (m.trk a).stream = none) : Created a m (pulse_open m a c try_open) := by
  have hq := h.audio_out_open (a := a) _ c.fmt try_open hdev
  unfold Shared.pulse_open
  dsimp only
  split
  · rename_i hrc
    exact .of_open hq hopen c hrc
  · exact ⟨hq.vacant.base,hq.frame.is_open a,nofun,nofun⟩
  · exact .of_err hq
  · rename_i hrc
    split
    · exact .of_err hq
    · -- the connection is made anew: the buffer of the first attempt was freed
      have hq2 := hq.again hrc c.dev_idx c.fmt try_open c.second
      split
      · rename_i hrc2
        exact .of_open hq2 hopen c hrc2
      · exact ⟨hq2.vacant.base,hq2.frame.is_open a,nofun,nofun⟩
      · exact .of_err hq2
      · exact .of_err hq2

theorem Taken.reuse (h : Taken a m m') (hopen : m.is_open a) (hout : m.out.isSome) :
    Created a m (create_fin (Shared.reuse m' a) a,.done) := by
  obtain ⟨b,hb⟩ := Option.isSome_iff_exists.mp hout
  have hb' := h.out.trans hb
  have hnew := (h.base.out b hb').2
  have hstop := h.base.device .stop (.create a) hnew fun _ => h.usedby
  have hclear := hstop.device .clear (.create a) (b := b) hnew fun _ => h.usedby
  have hreuse : Base (Shared.reuse m' a) := by
    unfold Shared.reuse
    rw [hb']
    refine hclear.set fun ha => ?_
    cases h.usedby.symm.trans ha
  have hsame : (Shared.reuse m' a).is_open a = m.is_open a := by
    unfold Mod.is_open Shared.reuse
    dsimp only
    rw [set_self]
    change decide (a < m'.count ∧ (m'.trk a).closed = false) = _
    rw [h.count,h.closed a]
  refine ⟨hreuse.create_fin (hsame.trans hopen) ?_ ?_,?_,fun _ => rfl,nofun⟩
  · change m'.out.isSome = true
    rw [h.out]
    exact hout
  · unfold Shared.reuse
    dsimp only
    rw [set_self]
    rfl
  · rw [← hsame]
    exact Frame.create_fin rfl rfl

theorem Base.vacate (h : Base m) (hu : m.usedby = none) (ht : m.tmr = none) (who : Who)
    (hwho : ∀ b, who ≠ .track b) : Vacant (Shared.buf_close m who) := by
  obtain ⟨hbase,hout⟩ := h.buf_close who fun _ => by
    cases who with
    | track b => exact (hwho b rfl).elim
    | create b => exact hu
    | timer => exact hu
  have hsame : {Shared.buf_close m who with tmr := none, usedby := none} =
      Shared.buf_close m who := by
    unfold Shared.buf_close
    split
    · rw [← ht,← hu]
    · rw [← ht,← hu]
      rfl
  rw [hsame] at hbase
  exact ⟨hbase,hsame ▸ rfl,hout⟩

theorem no_dev_iff {c : Call} (h : ¬m.no_dev a c = true) (hpcm : c.first.pcm = true)
    (hdev : (m.trk a).dev = false) (hidx : c.dev_idx ≠ 0) : c.first.dev = true := by
  unfold Mod.no_dev at h
  simpa [hpcm,hdev,hidx] using h

theorem buf_close_trk (m : Mod) (who : Who) : (buf_close m who).trk = m.trk := by
  unfold buf_close
  split <;> rfl

theorem buf_close_count (m : Mod) (who : Who) : (buf_close m who).count = m.count := by
  unfold buf_close
  split <;> rfl

theorem Created.of_closed (h : Taken a m m') {p : Mod × Code}
    (hp : Created a (buf_close m' (.create a)) p) : Created a m p := by
  refine ⟨hp.base,hp.is_open.trans ?_,hp.done,hp.err⟩
  unfold Mod.is_open
  rw [buf_close_trk,buf_close_count,h.count,h.closed a]

/-- The create step keeps what the tracks rely on, if no buffer is freed that the track has lost. -/
theorem create_keeps (h : Base m) (api : Api) (hopen : m.is_open a) {c : Call} (try_open : Bool)
    (hdev : (m.trk a).stream.isSome → m.no_dev a c = true → m.out.isSome ∧ reusable m c = true) :
    Created a m (create api m a c try_open) := by
  have hnone (hno : ¬(m.out.isSome ∧ reusable m c = true)) : c.first.pcm = true →
      (m.trk a).dev = false → c.dev_idx ≠ 0 → c.first.dev = false → (m.trk a).stream = none := by
    intro hpcm hd hidx hf
    cases hs : (m.trk a).stream with
    | none => rfl
    | some b =>
      have htrue := no_dev_iff (fun hnd => hno (hdev (by rw [hs]; rfl) hnd)) hpcm hd hidx
      cases hf.symm.trans htrue
  have htaken := h.take_over a
  have hsame : reusable (take_over m) c = reusable m c := by
    unfold reusable
    rw [htaken.dev_idx,htaken.fmt]
  have hvacant (hout : ¬m.out.isSome = true) : Vacant m := by
    have hout : m.out = none := by simpa using hout
    refine ⟨h,?_,hout⟩
    cases hu : m.usedby with
    | none => rfl
    | some b =>
      have hsome := (h.user b hu).2.1
      rw [hout] at hsome
      cases hsome
  have hclosed : (buf_close (take_over m) (.create a)).is_open a = m.is_open a := by
    unfold Mod.is_open
    rw [buf_close_trk,buf_close_count,htaken.count,htaken.closed a]
  have hdev' (hno : ¬reusable (take_over m) c = true) : c.first.pcm = true →
      ((buf_close (take_over m) (.create a)).trk a).dev = false → c.dev_idx ≠ 0 →
      c.first.dev = false → ((buf_close (take_over m) (.create a)).trk a).stream = none := by
    rw [buf_close_trk,htaken.dev,htaken.stream]
    exact hnone fun hr => hno (hsame.trans hr.2)
  have hfree : Vacant (buf_close (take_over m) (.create a)) :=
    htaken.base.vacate htaken.usedby htaken.tmr _ fun _ => nofun
  cases api with
  | alsa =>
    unfold create alsa_create
    dsimp only
    split
    · rename_i hout
      split
      · exact htaken.reuse hopen hout
      · rename_i hno
        split
        · exact ⟨htaken.base.set fun ha => (by cases htaken.usedby.symm.trans ha),by
            unfold Mod.is_open
            rw [set_self]
            change decide (a < (take_over m).count ∧ ((take_over m).trk a).closed = false) = _
            rw [htaken.count,htaken.closed a],nofun,nofun⟩
        · exact .of_closed htaken (hfree.alsa_open (hclosed.trans hopen) (hdev' hno))
    · rename_i hout
      exact (hvacant hout).alsa_open hopen (hnone fun hr => hout hr.1)
  | pulse =>
    unfold create pulse_create
    dsimp only
    split
    · rename_i hout
      split
      · exact htaken.reuse hopen hout
      · rename_i hno
        exact .of_closed htaken (hfree.pulse_open (hclosed.trans hopen) (hdev' hno))
    · rename_i hout
      exact (hvacant hout).pulse_open hopen (hnone fun hr => hout hr.1)

/-! ## The track that uses the buffer -/

/-- What a call in `audio_out_write()` leaves. -/
structure Plays (a : Nat) (m m' : Mod) : Prop where
  base : Base m'
  frame : Frame a m m'

theorem Base.use (h : Base m) (ha : m.usedby = some a) (op : Op) :
    Plays a m (m.device op (.track a) (m.trk a).stream) := by
  obtain ⟨-,hout,hstream⟩ := h.user a ha
  obtain ⟨b,hb⟩ := Option.isSome_iff_exists.mp hout
  rw [hstream,hb]
  exact ⟨h.device op (.track a) (h.out b hb).2 fun _ => ha,.device a m op (.track a) (some b)⟩

theorem Base.change (h : Base m) {x : Out} (hc : x.closed = (m.trk a).closed)
    (hs : x.stream = (m.trk a).stream) : Plays a m (m.set a x) :=
  ⟨h.set fun _ => ⟨hc,hs⟩,.set m hc⟩

theorem Plays.trans (h : Plays a m m') (h' : Plays a m' m'') : Plays a m m'' :=
  ⟨h'.base,h.frame.trans h'.frame⟩

theorem Base.write_loop (h : Base m) (len : Nat) (ha : len ≠ 0 → m.usedby = some a)
    (writes : List Written) : Plays a m (write_loop m a len writes).1 := by
  induction writes generalizing m len with
  | nil =>
    unfold Shared.write_loop
    split
    · exact ⟨h,.refl a m⟩
    · rename_i hlen
      have hw := h.use (ha hlen) .write
      exact hw.trans (hw.base.change rfl rfl)
  | cons r rs ih =>
    unfold Shared.write_loop
    split
    · exact ⟨h,.refl a m⟩
    · rename_i hlen
      have hw := h.use (ha hlen) .write
      cases r with
      | got n => exact hw.trans (ih hw.base _ fun _ => ha hlen)
      | sync => exact hw.trans (ih hw.base _ fun _ => ha hlen)
      | error => exact hw.trans (hw.base.change rfl rfl)

theorem Base.write_end (h : Base m) {io : Io} (ha : io.first = true → m.usedby = some a) :
    Plays a m (write_end m a io).1 := by
  unfold Shared.write_end
  split
  · rename_i hfirst
    have hw := h.use (ha hfirst) .drain
    dsimp only
    split
    · exact hw
    · exact hw.trans (hw.base.change rfl rfl)
    · exact hw.trans (hw.base.change rfl rfl)
  · exact h.change rfl rfl

theorem Base.write_data (h : Base m) {io : Io}
    (ha : (io.pause || io.len != 0 || io.first) = true → m.usedby = some a) :
    Plays a m (write_data m a io).1 := by
  unfold Shared.write_data
  split
  · rename_i hpause
    exact h.use (ha (by simp [hpause])) .stop
  · have hl := h.write_loop (a := a) io.len (fun hlen => ha (by simp [hlen])) io.writes
    dsimp only
    split
    · exact hl
    · refine hl.trans (hl.base.write_end fun hfirst => ?_)
      rw [hl.frame.usedby]
      exact ha (by simp [hfirst])

theorem Base.audio_out_write (h : Base m) (io : Io) (ha : io.touches = true → m.usedby = some a) :
    Plays a m (audio_out_write m a io).1 := by
  unfold Shared.audio_out_write
  split
  · exact ⟨h,.refl a m⟩
  · rename_i hstop
    have hrest (ht : (io.clear || io.pause || io.len != 0 || io.first) = true) :
        m.usedby = some a := ha (by simp [Io.touches,hstop,ht])
    split
    · rename_i hclear
      have hu := hrest (by simp [hclear])
      have hw := (h.use hu .stop).trans ((h.use hu .stop).base.use hu .clear)
      dsimp only
      split
      · exact hw
      · exact hw.trans (hw.base.write_data fun _ => hu)
    · exact h.write_data fun ht => hrest (by simp only [Bool.or_assoc] at ht ⊢; simp [ht])

/-! ## Every run -/

theorem Base.inv_user (h : Base m) (ha : m.usedby = some a) : Inv m :=
  ⟨h,fun _ hnone => (by cases ha.symm.trans hnone)⟩

theorem Base.inv_closed (h : Base m) (hout : m.out = none) : Inv m :=
  ⟨h,fun hsome => (by rw [hout] at hsome; cases hsome)⟩

/-- A track that has to repeat its create step keeps the buffer from the timer. -/
theorem Base.inv_retry (h : Base m) (ha : m.retrying a = true) : Inv m := by
  refine ⟨h,fun _ _ hno => ?_⟩
  have hlt : a < m.count := by
    unfold Mod.retrying Mod.is_open at ha
    simp only [decide_eq_true_eq] at ha
    exact ha.1.1
  cases ha.symm.trans (hno a hlt)

theorem retrying_iff : m.retrying a = true ↔ m.is_open a = true ∧ (m.trk a).state = .st_open := by
  simp [Mod.retrying]

/-- A track in the state of the create step keeps the buffer from the timer. -/
theorem Base.inv_open (h : Base m) (hopen : m.is_open a) {x : Out}
    (hc : x.closed = (m.trk a).closed) (hs : x.stream = (m.trk a).stream) (hx : x.state = .st_open) :
    Inv (m.set a x) := by
  refine Base.inv_retry (a := a) (h.change hc hs).base (retrying_iff.mpr ⟨?_,?_⟩)
  · exact ((Frame.set m hc).is_open a).trans hopen
  · rw [set_self]
    exact hx

theorem Created.created {p : Mod × Code} (hp : Created a m p) (hopen : m.is_open a) (c : Call) :
    Inv (created p.1 a c p.2).1 := by
  unfold Shared.created
  split
  · rename_i hdone
    have hu := hp.done hdone.1
    have hset := hp.base.change (a := a) (x := {p.1.trk a with state := .st_waiting}) rfl rfl
    have hw := hset.base.audio_out_write (a := a) c.io fun _ => hu
    exact hw.base.inv_user (hw.frame.usedby.trans hu)
  · have hopen' := hp.is_open.trans hopen
    dsimp only
    split
    · rename_i hst
      refine hp.base.inv_open hopen' rfl rfl ?_
      exact hst
    · refine hp.base.inv_open hopen' ?_ ?_ ?_ <;> rfl

theorem Inv.write (h : Inv m) (api : Api) (hopen : m.is_open a) {c : Call}
    (hc : Clear m (.write a c)) : Inv (adev_write api m a c).1 := by
  dsimp only [Clear] at hc
  unfold adev_write
  by_cases hst : (m.trk a).state = .st_try ∨ (m.trk a).state = .st_open
  · rw [if_pos hst] at hc ⊢
    have hp := create_keeps h.toBase api hopen (decide ((m.trk a).state = .st_try)) hc
    dsimp only
    split
    · rename_i herr
      exact hp.base.inv_closed (hp.err herr)
    · exact hp.created hopen c
  · rw [if_neg hst] at hc ⊢
    have hw := h.audio_out_write _ hc
    refine ⟨hw.base,fun hout hnone hno => ?_⟩
    rw [hw.frame.out] at hout
    rw [hw.frame.usedby] at hnone
    rw [hw.frame.tmr]
    refine h.close hout hnone fun b hb => ?_
    by_cases hba : b = a
    · subst hba
      have hne : (m.trk b).state ≠ .st_open := fun heq => hst (.inr heq)
      simp [Mod.retrying,hne]
    · have hsame := hno b (hw.frame.count.symm ▸ hb)
      unfold Mod.retrying at hsame ⊢
      rwa [hw.frame.is_open b,hw.frame.other b hba] at hsame

theorem Inv.stop (h : Inv m) (hu : m.usedby = some a) : Inv (audio_stop m a) := by
  have hs := h.use hu .stop
  refine Base.inv_user (a := a) (hs.base.change ?_ ?_).base hu
  · rfl
  · rfl

theorem usedby_none (h : m.usedby = none) : {m with usedby := none} = m := by
  cases m
  cases h
  rfl

theorem buf_close_usedby (m : Mod) (who : Who) : (buf_close m who).usedby = m.usedby := by
  unfold buf_close
  split <;> rfl

theorem Inv.close_err (h : Inv m) (hc : m.usedby = some a ∨ m.out = none) (x : Out) :
    Inv ({buf_close m (.track a) with tmr := none, usedby := none}.set a x) := by
  obtain ⟨hbase,hout⟩ := h.buf_close (.track a) fun hout => hc.resolve_right hout
  exact (hbase.set nofun).inv_closed hout

theorem Inv.close_user (h : Inv m) (hu : m.usedby = some a) (x : Out) :
    Inv ({m.device .stop (.track a) m.out with tmr := some .buf_close, usedby := none}.set a x) := by
  have hs := h.use hu .stop
  rw [(h.user a hu).2.2] at hs
  have hbase : Base {m.device .stop (.track a) m.out with
      tmr := some .buf_close, usedby := none} :=
    ⟨hs.base.fresh,hs.base.out,nofun,nofun,fun _ => rfl,hs.base.log⟩
  exact ⟨hbase.set nofun,fun _ _ _ => rfl⟩

theorem Inv.close_other (h : Inv m) (hu : m.usedby ≠ some a)
    (hc : m.retrying a = true → m.out.isSome → m.usedby = none → m.tmr = none →
      ∃ b < m.count, b ≠ a ∧ m.retrying b = true) :
    Inv (m.set a {m.trk a with closed := true}) := by
  refine ⟨h.toBase.set fun ha => (hu ha).elim,fun hout hnone hno => ?_⟩
  have hother (b : Nat) (hba : b ≠ a) (hb : b < m.count) : m.retrying b = false := by
    have hsame := hno b hb
    unfold Mod.retrying Mod.is_open at hsame ⊢
    rwa [set_other m hba] at hsame
  by_cases hra : m.retrying a = true
  · cases htmr : m.tmr with
    | none =>
      obtain ⟨b,hb,hba,hrb⟩ := hc hra hout hnone htmr
      cases hrb.symm.trans (hother b hba hb)
    | some x =>
      cases x with
      | buf_close => exact htmr
      | onplay b => cases hnone.symm.trans (h.onplay b htmr)
  · refine h.close hout hnone fun b hb => ?_
    by_cases hba : b = a
    · subst hba
      simpa using hra
    · exact hother b hba hb

theorem Inv.closed (h : Inv m) (hc : Clear m (.close a)) : Inv (adev_close m a) := by
  dsimp only [Clear] at hc
  unfold adev_close
  by_cases herr : (m.trk a).err = true
  · rw [if_pos herr] at hc ⊢
    dsimp only
    split
    · exact h.close_err hc _
    · rename_i hu
      have hu : m.usedby ≠ some a := fun ha => hu ((buf_close_usedby m (.track a)).trans ha)
      have hnone : m.usedby = none := by
        cases hb : m.usedby with
        | none => rfl
        | some b =>
          have hsome := (h.user b hb).2.1
          rw [hc.resolve_left hu] at hsome
          cases hsome
      have hnone' : ({buf_close m (.track a) with tmr := none} : Mod).usedby = none :=
        (buf_close_usedby m (.track a)).trans hnone
      rw [← usedby_none hnone']
      exact h.close_err hc _
  · rw [if_neg herr] at hc ⊢
    dsimp only
    split
    · rename_i hu
      exact h.close_user hu _
    · rename_i hu
      exact h.close_other hu hc

theorem Inv.timer (h : Inv m) : Inv (tmr_fired m) := by
  unfold tmr_fired
  split
  · exact h
  · rename_i a ha
    have hu := h.onplay a ha
    refine Base.inv_user (a := a) (h.toBase.change ?_ ?_).base hu
    · rfl
    · rfl
  · rename_i hclose
    have hu := h.closer hclose
    have hoff : Base {m with tmr := none} := ⟨h.fresh,h.out,h.user,nofun,nofun,h.log⟩
    have hv := hoff.vacate hu rfl .timer fun _ => nofun
    exact hv.base.inv_closed hv.out

theorem Inv.opened (h : Inv m) : Inv {m.set m.count new_out with count := m.count + 1} := by
  have hlt {b : Nat} (hb : m.is_open b = true) : b < m.count := by
    simp only [Mod.is_open,decide_eq_true_eq] at hb
    exact hb.1
  have hset : Base (m.set m.count new_out) :=
    h.toBase.set fun hu => (Nat.lt_irrefl _ (hlt (h.user _ hu).1)).elim
  refine ⟨⟨h.fresh,h.out,fun b hb => ?_,h.onplay,h.closer,h.log⟩,fun hout hnone hno => ?_⟩
  · obtain ⟨hopen,hout,hstream⟩ := hset.user b hb
    refine ⟨?_,hout,hstream⟩
    simp only [Mod.is_open,decide_eq_true_eq] at hopen ⊢
    exact ⟨Nat.lt_succ_of_lt hopen.1,hopen.2⟩
  · refine h.close hout hnone fun b hb => ?_
    have hsame := hno b (Nat.lt_succ_of_lt hb)
    rw [Bool.eq_false_iff] at hsame ⊢
    refine fun hr => hsame ?_
    simp only [Mod.retrying,Mod.is_open,decide_eq_true_eq] at hr ⊢
    rw [set_other m (Nat.ne_of_lt hb)]
    exact ⟨⟨Nat.lt_succ_of_lt hb,hr.1.2⟩,hr.2⟩

theorem inv_step (h : Inv m) (api : Api) (act : Act) (hc : Clear m act)
    (hs : step api m act = some m') : Inv m' := by
  cases act with
  | opened =>
    cases hs
    exact h.opened
  | write a c =>
    dsimp only [step] at hs
    split at hs
    · rename_i hopen
      cases hs
      exact h.write api hopen hc
    · cases hs
  | stop a =>
    dsimp only [step] at hs
    split at hs
    · cases hs
      exact h.stop hc
    · cases hs
  | close a =>
    dsimp only [step] at hs
    split at hs
    · cases hs
      exact h.closed hc
    · cases hs
  | timer =>
    dsimp only [step] at hs
    split at hs
    · cases hs
      exact h.timer
    · cases hs

theorem inv_init : Inv init :=
  ⟨⟨nofun,nofun,nofun,nofun,nofun,nofun⟩,nofun⟩

/-- Whatever the tracks and the timer do, in any order, the buffer stays with its user, if only that
one goes on with it. -/
theorem buffer_kept (api : Api) (as : List Act) (m : Mod)
    (hclear : Machine.AllSteps (step api) Clear init as)
    (hrun : Machine.run (step api) init as = some m) : Kept m :=
  (Machine.guarded_invariant (fun _ a _ h hc hs => inv_step h api a hc hs) hclear hrun inv_init).kept

/-- A call of a track with 16-bit stereo input at the rate, for a device that opens. -/
def call (rate : Nat) (io : Io) : Call :=
  ⟨⟨16,2,rate,true⟩,0,⟨true,true,true,.ok⟩,true,⟨true,true,true,.ok⟩,io⟩

def play (len : Nat) (writes : List Written) : Io := ⟨false,false,false,false,false,len,writes,.wait⟩

/-- A track is stopped while it waits, and another one with the same format takes the buffer. -/
def handed_over : List Act :=
  [.opened,.opened,.write 0 (call 44100 (play 100 [.got 60])),.write 1 (call 44100 (play 100 [.got 100])),
    .write 0 (call 44100 ⟨true,false,false,false,false,40,[],.wait⟩),.close 0,.timer,.close 1,.timer]

theorem buffer_kept_handed_over : Kept ((Machine.run (step .alsa) init handed_over).getD init) :=
  buffer_kept .alsa handed_over _ (by decide +kernel) (Machine.run_eq_getD (by decide +kernel))

/-- A track waits for room when another one with a different format starts. -/
def taken_away : List Act :=
  [.opened,.opened,.write 0 (call 44100 (play 100 [.got 60])),.write 1 (call 48000 (play 100 [.got 100])),
    .write 0 (call 44100 (play 40 [.got 40]))]

/-- The track is woken and writes to the buffer that was freed. -/
theorem freed_buffer_written :
    (∀ m, Machine.run (step .alsa) init taken_away = some m →
      ⟨.write,.track 0,false,false,some 1⟩ ∈ m.log ∧ ¬Kept m) ∧
    (Machine.run (step .alsa) init taken_away).isSome := by
  refine ⟨fun m hm => ?_,by decide +kernel⟩
  have hmap : (Machine.run (step .alsa) init taken_away).map
      (fun m => decide (⟨.write,.track 0,false,false,some 1⟩ ∈ m.log)) = some true := by decide +kernel
  rw [hm,Option.map_some,Option.some.injEq,decide_eq_true_eq] at hmap
  exact ⟨hmap,fun hk => absurd (hk.live _ hmap) (by decide)⟩

end Phiola.Shared
