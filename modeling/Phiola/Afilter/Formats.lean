import Phiola.Adev.Shared

/-!
# PCM formats along the chain

Decoded audio goes through the normalizer, the automatic conversion, the converter and the
resampler to its consumer: an encoder, a writer or a device. The filters are called one after
another, each with what the one before it has given; two of them add others to the chain.
-/

namespace Phiola.Formats

open Shared (Af phi_af_update)

/-- The filters in the order of the chain. `dconv` and `aconv` are two of `phi_aconv`: the one that
the normalizer adds before itself, and the one behind the automatic conversion. -/
inductive Flt
  | decoder
  | dconv
  | danorm
  | autoconv
  | aconv
  | soxr
  | consumer
deriving DecidableEq, Repr

/-- The `id`-th chunk that a filter gives: `len` bytes. -/
structure Chunk where
  giver : Flt
  id : Nat
  len : Nat
  fmt : Af
deriving DecidableEq, Repr

/-- A filter that is set up for `set_up` is called with a chunk. -/
structure Take where
  taker : Flt
  chunk : Chunk
  set_up : Af
deriving DecidableEq, Repr

/-- `struct aconv`: added to the chain; prepared, with `rest` bytes of `c->in`; removed, when it has
given `fo`. -/
inductive Conv
  | absent
  | added
  | set (fi fo : Af) (rest : Nat)
  | done (fo : Af)
deriving DecidableEq, Repr

/-- `struct danorm`: `asked` is its state 1. -/
inductive Norm
  | absent
  | fresh
  | asked
  | opened (fmt : Af)
  | done
deriving DecidableEq, Repr

/-- `struct autoconv`: it holds the first chunk between its two calls. -/
inductive Auto
  | fresh
  | held (c : Option Chunk)
  | done
deriving DecidableEq, Repr

/-- `struct soxr` -/
inductive Soxr
  | absent
  | added
  | opened (inpcm outpcm : Af)
  | done
deriving DecidableEq, Repr

def Conv.active : Conv → Bool
  | .added | .set _ _ _ => true
  | .absent | .done _ => false

def Norm.active : Norm → Bool
  | .fresh | .asked | .opened _ => true
  | .absent | .done => false

def Auto.active : Auto → Bool
  | .fresh | .held _ => true
  | .done => false

def Soxr.active : Soxr → Bool
  | .added | .opened _ _ => true
  | .absent | .done => false

def Auto.chunk : Auto → Option Chunk
  | .held c => c
  | .fresh | .done => none

/-- A track: the decoder's format and the user's values, the chain (`skip` is `backward_skip` of the
resampler), the fields of the track that the filters share, and what has happened: how many chunks
each filter has made, which have been taken, and whether the consumer has asked for a format, and
for a layout. -/
structure World where
  src : Af
  conf : Af
  cur : Flt
  fwd : Bool
  data_in : Option Chunk
  decoder : Bool
  dcv : Conv
  dan : Norm
  auto : Auto
  cv : Conv
  sx : Soxr
  skip : Bool
  cons : Option Af
  audio : Af
  conf_format : Af
  oaudio : Af
  conv_format : Af
  ain : Af
  aout : Af
  asked : Bool
  layout : Option Bool
  made : Flt → Nat
  log : List Take
  ended : Bool
  error : Bool

def no_af : Af := ⟨0,0,0,false⟩

def init (src conf : Af) (danorm : Bool) : World where
  src := src
  conf := conf
  cur := .decoder
  fwd := true
  data_in := none
  decoder := true
  dcv := .absent
  dan := if danorm then .fresh else .absent
  auto := .fresh
  cv := .absent
  sx := .absent
  skip := false
  cons := none
  audio := src
  conf_format := conf
  oaudio := no_af
  conv_format := no_af
  ain := no_af
  aout := no_af
  asked := false
  layout := none
  made := fun _ => 0
  log := []
  ended := false
  error := false

/-! ## The conveyor -/

def Flt.pos : Flt → Nat
  | .decoder => 0
  | .dconv => 1
  | .danorm => 2
  | .autoconv => 3
  | .aconv => 4
  | .soxr => 5
  | .consumer => 6

def active (w : World) : Flt → Bool
  | .decoder => w.decoder
  | .dconv => w.dcv.active
  | .danorm => w.dan.active
  | .autoconv => w.auto.active
  | .aconv => w.cv.active
  | .soxr => w.sx.active
  | .consumer => true

/-- The next filter in the chain. -/
def behind (w : World) (f : Flt) : Flt :=
  ([.dconv,.danorm,.autoconv,.aconv,.soxr].find? fun g => f.pos < g.pos && active w g).getD
    .consumer

/-- The previous filter in the chain; the first one has `PHI_FFIRST`. -/
def before (w : World) (f : Flt) : Option Flt :=
  [.soxr,.aconv,.autoconv,.danorm,.dconv,.decoder].find? fun g => g.pos < f.pos && active w g

def first (w : World) (f : Flt) : Bool := (before w f).isNone

def fail (w : World) : World := {w with ended := true, error := true}

/-- `PHI_DATA`, `PHI_OK`, `PHI_DONE` -/
def pass (w : World) (f : Flt) (c : Option Chunk) : World :=
  {w with cur := behind w f, fwd := true, data_in := c}

/-- A filter gives data of its own; an empty region is no chunk. -/
def give (w : World) (f : Flt) (fmt : Af) (len : Nat) : World :=
  if len = 0 then pass w f none
  else {pass w f (some ⟨f,w.made f,len,fmt⟩) with
    made := Function.update w.made f (w.made f + 1)}

/-- `PHI_MORE`: the input of the filter is gone. -/
def back (w : World) (f : Flt) : World :=
  match before w f with
  | none => fail w
  | some g => {w with cur := g, fwd := false, data_in := none}

/-- A filter that is set up for `set_up` takes its input. -/
def take (w : World) (f : Flt) (set_up : Af) : World :=
  {w with log := w.log ++ w.data_in.toList.map fun c => ⟨f,c,set_up⟩, data_in := none}

/-! ## The filters -/

def PHI_PCM_FLOAT32 : Nat := 0x220
def PHI_PCM_FLOAT64 : Nat := 0x240

def pcm_size (format channels : Nat) : Nat := format % 256 / 8 * channels

def pcm_size1 (f : Af) : Nat := pcm_size f.format f.channels

/-- The decoder gives a chunk, which may be its last. -/
def decode (w : World) (len : Nat) (fin : Bool) : World :=
  let w := {w with decoder := !fin}
  give w .decoder w.src len

/-- What `aconv_prepare()` decides: the resampler does all, or what the output format is; the
resampler comes next in a split. -/
inductive Prepared
  | resample
  | split (fo : Af)
  | whole (fo : Af)
deriving DecidableEq, Repr

def aconv_prepare (fi fo : Af) : Prepared :=
  if fi.rate ≠ fo.rate then
    if fi.channels = fo.channels ∧ fi.format ≠ 24 then .resample
    else .split {fo with format := PHI_PCM_FLOAT32, rate := fi.rate}
  else .whole fo

def set_conv (w : World) (f : Flt) (c : Conv) : World :=
  if f = .dconv then {w with dcv := c} else {w with cv := c}

/-- Samples of a call of `pcm_convert()`: the buffer is of `CONV_OUTBUF_MSEC`. -/
def samples (fi fo : Af) (len : Nat) : Nat := min (len / pcm_size1 fi) (500 * fo.rate / 1000)

/-- `aconv_process()` with `len` bytes of `c->in`. -/
def aconv_convert (w : World) (f : Flt) (fi fo : Af) (len : Nat) : World :=
  let n := samples fi fo len
  if n = 0 then
    if first w f then pass (set_conv w f (.done fo)) f none
    else back (set_conv w f (.set fi fo len)) f
  else give (set_conv w f (.set fi fo (len - n * pcm_size1 fi))) f fo
    (n * pcm_size fo.format (fo.channels % 16))

/-- `aconv_process()` behind its preparation: data comes in only on the way forward. -/
def aconv_run (w : World) (f : Flt) (fi fo : Af) (rest : Nat) : World :=
  if w.fwd then aconv_convert (take w f fi) f fi fo ((w.data_in.map Chunk.len).getD 0)
  else aconv_convert w f fi fo rest

/-- `aconv_process()`; `ok` says that a filter can be added and that `pcm_convert()` succeeds. No
resampler is added before the normalizer, which asks for no other rate. -/
def aconv_process (w : World) (f : Flt) (ok : Bool) : Option World :=
  if ok then
    match if f = .dconv then w.dcv else w.cv with
    | .added =>
      match aconv_prepare w.ain w.aout with
      | .resample =>
        if f = .dconv then none
        else some (pass {w with sx := .added, cv := .done w.ain} .aconv w.data_in)
      | .split fo =>
        if f = .dconv then none
        else some (aconv_run {w with
          sx := .added
          cv := .set w.ain fo 0
          ain := {w.ain with format := fo.format, channels := fo.channels}} .aconv w.ain fo 0)
      | .whole fo => some (aconv_run (set_conv w f (.set w.ain fo 0)) f w.ain fo 0)
    | .set fi fo rest => some (aconv_run w f fi fo rest)
    | .absent | .done _ => none
  else some (fail w)

/-- What the normalizer gives for data: nothing because of a seek, or because it needs more, or
`len` bytes, which are the last if it is done. -/
inductive Normed
  | seek
  | more
  | data (len : Nat)
  | done (len : Nat)
deriving DecidableEq, Repr

/-- The format that the normalizer works on. -/
def norm (f : Af) : Af := {f with format := PHI_PCM_FLOAT64, interleaved := false}

/-- `danorm_f_process()` in its first call, for other data: it adds a converter before itself and
returns `PHI_BACK`. -/
def danorm_ask (w : World) : World :=
  {w with
    dan := .asked
    dcv := .added
    ain := w.audio
    aout := norm w.audio
    conf_format := {w.conf_format with
      format := if w.conf_format.format = 0 then w.audio.format else w.conf_format.format}
    audio := norm w.audio
    cur := .dconv
    fwd := false}

def danorm_run (w : World) (fmt : Af) (r : Normed) : Option World :=
  let w := take w .danorm fmt
  match r with
  | .seek => some (back w .danorm)
  | .more => if first w .danorm then none else some (back w .danorm)
  | .data len => some (give w .danorm fmt len)
  | .done len => if first w .danorm then some (give {w with dan := .done} .danorm fmt len) else none

def danorm_open (w : World) (r : Normed) : Option World :=
  if w.audio.channels > 8 then some (fail w)
  else danorm_run {w with dan := .opened w.audio} w.audio r

def danorm_f_process (w : World) (ok : Bool) (r : Normed) : Option World :=
  if ok then
    match w.dan with
    | .fresh =>
      if w.audio.format = PHI_PCM_FLOAT64 ∧ w.audio.interleaved = false then danorm_open w r
      else some (danorm_ask w)
    | .asked => danorm_open w r
    | .opened fmt => danorm_run w fmt r
    | .absent | .done => none
  else some (fail w)

/-- `autoconv_open()`, `autoconv_process()` -/
def autoconv_process (w : World) (ok : Bool) : Option World :=
  match w.auto with
  | .fresh =>
    let oaf := phi_af_update w.audio w.conf_format
    some {pass w .autoconv none with
      auto := .held w.data_in
      oaudio := oaf
      conv_format := {w.conv_format with interleaved := oaf.interleaved}}
  | .held c =>
    let oaf := {phi_af_update w.oaudio w.conv_format with interleaved := w.conv_format.interleaved}
    let w := {w with auto := .done, oaudio := oaf}
    if w.audio = oaf then some (pass w .autoconv c)
    else if ok then some (pass {w with ain := w.audio, aout := oaf, cv := .added} .autoconv c)
    else some (fail w)
  | .done => none

/-- `_ffsoxr_getfmt()` knows the format. -/
def ffsoxr_getfmt (format : Nat) : Bool := format = 16 ∨ format = 32 ∨ format = PHI_PCM_FLOAT32

/-- What `ffsoxr_create()` checks. -/
def ffsoxr_create (inpcm outpcm : Af) : Bool :=
  inpcm.channels = outpcm.channels ∧ ffsoxr_getfmt inpcm.format ∧ ffsoxr_getfmt outpcm.format

def soxr_run (w : World) (inpcm outpcm : Af) (out : Nat) : World :=
  let out := if w.data_in = none ∧ first w .soxr = false then 0 else out
  let w := take w .soxr inpcm
  if out = 0 ∧ first w .soxr then pass {w with sx := .done} .soxr none
  else give {w with skip := true} .soxr outpcm out

/-- `soxr_open()`, `soxr_conv()`; `out` is the number of bytes that the resampler gives. -/
def soxr_conv (w : World) (ok : Bool) (out : Nat) : Option World :=
  if w.skip ∧ first w .soxr = false then some (back {w with skip := false} .soxr)
  else
    let w := {w with skip := false}
    match w.sx with
    | .added =>
      if ok ∧ ffsoxr_create w.ain w.aout then
        some (soxr_run {w with sx := .opened w.ain w.aout} w.ain w.aout out)
      else some (fail w)
    | .opened i o => if ok then some (soxr_run w i o out) else some (fail w)
    | .absent | .done => none

/-- The consumer writes to `oaudio.conv_format`. -/
def request (w : World) (r : Af) (layout : Option Bool) : World :=
  {w with
    conv_format := {phi_af_update w.conv_format r with
      interleaved := layout.getD w.conv_format.interleaved}
    asked := true
    layout := layout.orElse fun _ => w.layout}

/-! ## Runs -/

inductive Act
  | decode (len : Nat) (fin : Bool)
  | convert (ok : Bool)
  | normalize (ok : Bool) (r : Normed)
  | autoconv (ok : Bool)
  | resample (ok : Bool) (out : Nat)
  | request (r : Af) (layout : Option Bool)
  | set_up
  | consume
  | more
  | finish
  | fails
deriving DecidableEq, Repr

/-- One filter is called. The consumer asks for a format in its calls with no data, while the first
chunk is held; if it has asked, it is set up in a later call. -/
def step (w : World) (a : Act) : Option World :=
  if w.ended then none
  else match w.cur, a with
    | .decoder, .decode len fin => if w.decoder then some (decode w len fin) else none
    | .decoder, .fails => some (fail w)
    | .dconv, .convert ok => aconv_process w .dconv ok
    | .danorm, .normalize ok r => danorm_f_process w ok r
    | .autoconv, .autoconv ok => autoconv_process w ok
    | .aconv, .convert ok => aconv_process w .aconv ok
    | .soxr, .resample ok out => soxr_conv w ok out
    | .consumer, .request r layout =>
      if w.auto.active ∧ w.cons = none then some (request w r layout) else none
    | .consumer, .set_up =>
      if w.cons = none ∧ (w.auto.active → w.asked = false) then
        some {w with cons := some w.oaudio}
      else none
    | .consumer, .consume => w.cons.map fun f => take w .consumer f
    | .consumer, .more => if w.data_in = none then some (back w .consumer) else none
    | .consumer, .finish => some {w with ended := true}
    | .consumer, .fails => some (fail w)
    | _, _ => none

/-! ## What the chain promises -/

/-- The user's values and then those of the request take the place of the decoder's. -/
def wanted (w : World) : Af :=
  {phi_af_update (phi_af_update w.src w.conf) w.conv_format with
    interleaved := w.layout.getD w.src.interleaved}

/-- The chunks of `p` that have been taken. -/
def taken (p : Flt) (log : List Take) : List Nat :=
  (log.filter fun t => t.chunk.giver = p).map fun t => t.chunk.id

/-- A chunk of `p` on its way. -/
def ids (p : Flt) (c : Option Chunk) : List Nat :=
  (c.toList.filter fun c => c.giver = p).map Chunk.id

/-- Each filter gets the format that it is set up for, the consumer's format is the one that is
wanted, and every chunk, the first one included, is taken once and in its order, unless it is held
or on its way. -/
structure Kept (w : World) : Prop where
  agree : ∀ t ∈ w.log, t.chunk.fmt = t.set_up
  consumer : ∀ f, w.cons = some f → f = wanted w
  once : ∀ p, taken p w.log ++ ids p w.auto.chunk ++ ids p w.data_in = List.range (w.made p)

/-- A conversion that is split with the resampler, and that the resampler accepts, is one between
formats of the same layout. -/
def split_layout (ain aout : Af) : Bool :=
  match aconv_prepare ain aout with
  | .split fo =>
    !ffsoxr_create {ain with format := fo.format, channels := fo.channels} aout ||
      ain.interleaved == aout.interleaved
  | .resample | .whole _ => true

/-- A converter is not handed a chunk on the way back, which it would not take; no split conversion
changes the layout; and a consumer behind a normalizer that has changed the layout asks for one. -/
def Clear (w : World) : Act → Prop
  | .convert ok =>
    ok = true →
      (w.cur = .dconv → w.data_in = none ∨ w.fwd = true) ∧
      (w.cur = .aconv → w.cv = .added → split_layout w.ain w.aout = true)
  | .set_up => w.layout = none → w.audio.interleaved = w.src.interleaved
  | .decode _ _ | .normalize _ _ | .autoconv _ | .resample _ _ | .request _ _ | .consume | .more
  | .finish | .fails => True

instance (w : World) : ∀ a, Decidable (Clear w a)
  | .convert ok => inferInstanceAs (Decidable (ok = true → _ ∧ _))
  | .set_up => inferInstanceAs (Decidable (_ → _))
  | .decode _ _ | .normalize _ _ | .autoconv _ | .resample _ _ | .request _ _ | .consume | .more
  | .finish | .fails => inferInstanceAs (Decidable True)

/-! ## The chain -/

variable {w w' : World} {f g : Flt} {c : Chunk}

theorem inactive_of_first (h : first w f = true) (hg : g.pos < f.pos) : active w g = false := by
  have hnone : before w f = none := by simpa [first] using h
  have hall := List.find?_eq_none.mp hnone g
  cases hactive : active w g with
  | false => rfl
  | true =>
    refine (hall ?_ (by simp [hg,hactive])).elim
    cases g <;> simp
    cases f <;> simp [Flt.pos] at hg

theorem before_pos (h : before w f = some g) : g.pos < f.pos ∧ active w g = true := by
  have hp := List.find?_some h
  simpa using hp

theorem behind_autoconv : behind w .autoconv =
    if w.cv.active then .aconv else if w.sx.active then .soxr else .consumer := by
  cases hcv : w.cv.active <;> cases hsx : w.sx.active <;> simp [behind,active,Flt.pos,hcv,hsx]

theorem behind_aconv : behind w .aconv = if w.sx.active then .soxr else .consumer := by
  cases hsx : w.sx.active <;> simp [behind,active,Flt.pos,hsx]

theorem behind_soxr : behind w .soxr = .consumer := by simp [behind,Flt.pos]

theorem behind_danorm :
    behind w .danorm = if w.auto.active then .autoconv else behind w .autoconv := by
  cases ha : w.auto.active <;> simp [behind,active,Flt.pos,List.find?_cons,ha]

theorem behind_dconv : behind w .dconv = if w.dan.active then .danorm else behind w .danorm := by
  cases hd : w.dan.active <;> simp [behind,active,Flt.pos,List.find?_cons,hd]

theorem behind_decoder : behind w .decoder = if w.dcv.active then .dconv else behind w .dconv := by
  cases hd : w.dcv.active <;> simp [behind,active,Flt.pos,List.find?_cons,hd]

theorem before_consumer (h : w.sx.active = true) : before w .consumer = some .soxr := by
  simp [before,active,Flt.pos,h]

theorem before_consumer_held (ha : w.auto.active = true) (hcv : w.cv = .absent)
    (hsx : w.sx = .absent) : before w .consumer = some .autoconv := by
  simp [before,active,Flt.pos,ha,hcv,hsx,Conv.active,Soxr.active]

/-! ## The formats that the filters share -/

/-- The format of what comes from a converter. -/
def Conv.given (cv : Conv) (audio : Af) : Af :=
  match cv with
  | .set _ fo _ | .done fo => fo
  | .absent | .added => audio

/-- The format of the data that comes to a filter. -/
def wire (src audio oaudio : Af) (cv : Conv) : Flt → Af
  | .decoder | .dconv => src
  | .danorm | .autoconv | .aconv => audio
  | .soxr => cv.given audio
  | .consumer => oaudio

def blank (f : Af) : Prop := f.format = 0 ∧ f.channels = 0 ∧ f.rate = 0

theorem phi_af_update_blank {a b : Af} (h : blank b) : phi_af_update a b = a := by
  obtain ⟨hf,hc,hr⟩ := h
  simp [phi_af_update,hf,hc,hr]

/-- What the negotiation leads to. -/
def settled (audio conf_format conv_format : Af) : Af :=
  {phi_af_update (phi_af_update audio conf_format) conv_format with
    interleaved := conv_format.interleaved}

variable {src conf audio conf_format conv_format oaudio ain aout : Af} {decoder : Bool}
  {dcv cv : Conv} {dan : Norm} {auto : Auto} {sx : Soxr} {cons : Option Af} {asked : Bool}
  {layout : Option Bool} {cur : Flt} {fwd : Bool} {data_in : Option Chunk}

/-- The normalizer and its converter. -/
structure Front (src conf audio conf_format : Af) (decoder : Bool) (dcv : Conv) (dan : Norm) :
    Prop where
  input : audio = if dcv = .absent then src else norm src
  user : conf_format = if dcv = .absent then conf else
    {conf with format := if conf.format = 0 then src.format else conf.format}
  fresh : dan = .absent ∨ dan = .fresh → dcv = .absent
  set : ∀ fi fo rest, dcv = .set fi fo rest → fi = src ∧ fo = norm src
  removed : ∀ fo, dcv = .done fo → decoder = false
  opened : ∀ fmt, dan = .opened fmt → fmt = audio
  done : dan = .done → decoder = false ∧ dcv.active = false

/-- The automatic conversion and the consumer. -/
structure Talk (src audio conf_format conv_format oaudio : Af) (asked : Bool)
    (layout : Option Bool) (auto : Auto) (cons : Option Af) : Prop where
  fresh : auto = .fresh → cons = none ∧ asked = false ∧ layout = none ∧ blank conv_format
  held : ∀ c, auto = .held c → oaudio = phi_af_update audio conf_format ∧
    (asked = false → layout = none ∧ blank conv_format) ∧ (asked = true → cons = none)
  done : auto = .done → oaudio = settled audio conf_format conv_format
  layout_eq : auto ≠ .fresh → conv_format.interleaved = layout.getD audio.interleaved
  cons_eq : ∀ f, cons = some f → f = settled audio conf_format conv_format ∧
    (layout = none → audio.interleaved = src.interleaved)

/-- The converter and the resampler; `quiet` says that no data comes to them any more. -/
structure Convs (audio oaudio ain aout : Af) (auto : Auto) (cv : Conv) (sx : Soxr)
    (quiet : Prop) : Prop where
  later : auto.active = true → cv = .absent ∧ sx = .absent
  added : cv = .added → sx = .absent ∧ ain = audio ∧ aout = oaudio
  set : ∀ fi fo rest, cv = .set fi fo rest → fi = audio
  removed : ∀ fo, cv = .done fo → fo = audio ∨ quiet
  direct : auto = .done → sx = .absent → cv ≠ .added → cv.given audio = oaudio
  next : sx = .added → aout = oaudio ∧ (ffsoxr_create ain aout = true → ain = cv.given audio)
  opened : ∀ i o, sx = .opened i o → i = cv.given audio ∧ o = oaudio
  done : sx = .done → quiet ∧ cv.active = false

/-- The chunk that is on its way, and the one that is held. -/
structure Flight (src audio oaudio : Af) (cv : Conv) (auto : Auto) (cur : Flt) (fwd : Bool)
    (data_in : Option Chunk) : Prop where
  fmt : ∀ c, data_in = some c → c.fmt = wire src audio oaudio cv cur
  fwd : data_in = none ∨ fwd = true ∨ cur = .dconv
  decoder : cur = .decoder → data_in = none
  held : ∀ c, auto = .held c → data_in = none ∧ (cur = .autoconv ∨ cur = .consumer)
  chunk : ∀ c, auto = .held (some c) → c.fmt = audio
  consumer : cur = .consumer → auto ≠ .fresh

/-- No filter before the converter gives data any more. -/
def quiet (decoder : Bool) (dcv : Conv) (dan : Norm) : Prop :=
  decoder = false ∧ dcv.active = false ∧ dan.active = false

structure Inv (w : World) : Prop where
  format : w.src.format ≠ 0
  front : Front w.src w.conf w.audio w.conf_format w.decoder w.dcv w.dan
  early : w.dan = .fresh → w.auto = .fresh ∧ (w.cur = .decoder ∨ w.cur = .danorm)
  added : w.dcv = .added → w.cur = .dconv ∧ w.ain = w.src ∧ w.aout = norm w.src
  talk : Talk w.src w.audio w.conf_format w.conv_format w.oaudio w.asked w.layout w.auto w.cons
  convs : Convs w.audio w.oaudio w.ain w.aout w.auto w.cv w.sx (quiet w.decoder w.dcv w.dan)
  skip : w.skip = true →
    w.sx.active = true ∧ (w.cur = .consumer ∨ w.cur = .soxr ∧ w.data_in = none)
  flight : Flight w.src w.audio w.oaudio w.cv w.auto w.cur w.fwd w.data_in
  agree : ∀ t ∈ w.log, t.chunk.fmt = t.set_up
  once : ∀ p, taken p w.log ++ ids p w.auto.chunk ++ ids p w.data_in = List.range (w.made p)

/-- The track ends with an error, or the invariant holds. -/
def Ok (w : World) : Prop := w.error = true ∧ w.ended = true ∨ Inv w

theorem fail_ok (w : World) : Ok (fail w) := .inl ⟨rfl,rfl⟩

/-- What the normalizer changes, the user's value or the decoder's puts back, but for the layout. -/
theorem Front.restored (h : Front src conf audio conf_format decoder dcv dan)
    (hf : src.format ≠ 0) : phi_af_update audio conf_format =
      {phi_af_update src conf with interleaved := audio.interleaved} := by
  have hi := h.input
  have hu := h.user
  by_cases hdcv : dcv = .absent
  · rw [if_pos hdcv] at hi hu
    rw [hi,hu]
    rfl
  · rw [if_neg hdcv] at hi hu
    rw [hi,hu]
    by_cases hc : conf.format = 0
    · simp [phi_af_update,norm,hc,hf]
    · simp [phi_af_update,norm,hc]

theorem Inv.kept (h : Inv w) : Kept w where
  agree := h.agree
  consumer f hf := by
    obtain ⟨heq,hlayout⟩ := h.talk.cons_eq f hf
    have hauto : w.auto ≠ .fresh := by
      intro hfresh
      cases hf.symm.trans (h.talk.fresh hfresh).1
    rw [heq,settled,h.front.restored h.format,h.talk.layout_eq hauto]
    cases hl : w.layout with
    | none => simp [wanted,phi_af_update,hl,hlayout hl]
    | some b => simp [wanted,phi_af_update,hl]
  once := h.once

theorem Convs.mono {q q' : Prop} (h : Convs audio oaudio ain aout auto cv sx q) (hq : q → q') :
    Convs audio oaudio ain aout auto cv sx q' :=
  ⟨h.later,h.added,h.set,fun fo hfo => (h.removed fo hfo).imp_right hq,h.direct,h.next,h.opened,
    fun hd => ⟨hq (h.done hd).1,(h.done hd).2⟩⟩

/-! ## Data on its way -/

theorem taken_append (p : Flt) (log : List Take) (f : Flt) (c : Option Chunk) (s : Af) :
    taken p (log ++ c.toList.map fun c => ⟨f,c,s⟩) = taken p log ++ ids p c := by
  cases c with
  | none => simp [taken,ids]
  | some c => by_cases hp : c.giver = p <;> simp [taken,ids,hp]

theorem ids_none (p : Flt) : ids p none = [] := rfl

theorem ids_of_ne {p : Flt} (h : c.giver ≠ p) : ids p (some c) = [] := by simp [ids,h]

theorem ids_of_eq : ids c.giver (some c) = [c.id] := by simp [ids]

theorem Inv.not_added (h : Inv w) (hc : w.cur ≠ .dconv) : w.dcv ≠ .added :=
  fun ha => hc (h.added ha).1

theorem Inv.not_fresh (h : Inv w) (hd : w.cur ≠ .decoder) (hn : w.cur ≠ .danorm) : w.dan ≠ .fresh :=
  fun hf => (h.early hf).2.elim hd hn

theorem Inv.not_held (h : Inv w) (ha : w.cur ≠ .autoconv) (hc : w.cur ≠ .consumer) (c : Option Chunk) :
    w.auto ≠ .held c :=
  fun hh => (h.flight.held c hh).2.elim ha hc

theorem Inv.no_skip (h : Inv w) (hs : w.cur ≠ .soxr) (hc : w.cur ≠ .consumer) : w.skip = false := by
  cases hk : w.skip with
  | false => rfl
  | true => exact ((h.skip hk).2.elim hc fun hx => hs hx.1).elim

theorem Auto.chunk_eq_none (h : ∀ c, auto ≠ .held c) : auto.chunk = none := by
  cases auto with
  | held c => exact (h c rfl).elim
  | fresh => rfl
  | done => rfl

theorem Inv.take (h : Inv w) {s : Af} (hs : ∀ c, w.data_in = some c → c.fmt = s) :
    Inv (take w f s) := by
  refine ⟨h.format,h.front,h.early,h.added,h.talk,h.convs,fun hk => ?_,?_,fun t ht => ?_,
    fun p => ?_⟩
  · exact ⟨(h.skip hk).1,(h.skip hk).2.imp_right fun hx => ⟨hx.1,rfl⟩⟩
  · exact ⟨nofun,.inl rfl,fun _ => rfl,fun c hh => ⟨rfl,(h.flight.held c hh).2⟩,h.flight.chunk,
      h.flight.consumer⟩
  · rcases List.mem_append.mp ht with ht | ht
    · exact h.agree t ht
    · obtain ⟨c,hc,rfl⟩ := List.mem_map.mp ht
      exact hs c (Option.mem_toList.mp hc)
  · have honce := h.once p
    have hcomm : ids p w.auto.chunk ++ ids p w.data_in = ids p w.data_in ++ ids p w.auto.chunk := by
      cases hauto : w.auto with
      | held c => simp [(h.flight.held c hauto).1,ids_none]
      | fresh => simp [Auto.chunk,ids_none]
      | done => simp [Auto.chunk,ids_none]
    change taken p (w.log ++ _) ++ ids p w.auto.chunk ++ ids p none = _
    rw [taken_append,ids_none,List.append_nil,List.append_assoc,← hcomm,← List.append_assoc]
    exact honce

theorem Inv.move (h : Inv w) (hdata : w.data_in = none) (hadd : w.dcv ≠ .added)
    (hdan : w.dan = .fresh → g = .danorm)
    (hskip : w.skip = true → g = .consumer ∨ g = .soxr)
    (hheld : ∀ c, w.auto = .held c → g = .autoconv ∨ g = .consumer)
    (hcons : g = .consumer → w.auto ≠ .fresh) (b : Bool) :
    Inv {w with cur := g, fwd := b, data_in := none} := by
  refine ⟨h.format,h.front,fun hd => ⟨(h.early hd).1,.inr (hdan hd)⟩,fun ha => (hadd ha).elim,h.talk,
    h.convs,fun hk => ?_,?_,h.agree,fun p => ?_⟩
  · exact ⟨(h.skip hk).1,(hskip hk).imp_right fun hg => ⟨hg,rfl⟩⟩
  · exact ⟨nofun,.inl rfl,fun _ => rfl,fun c hh => ⟨rfl,hheld c hh⟩,h.flight.chunk,hcons⟩
  · have honce := h.once p
    rw [hdata] at honce
    exact honce

theorem Inv.back (h : Inv w) (hdata : w.data_in = none) (hadd : w.dcv ≠ .added)
    (hdan : w.dan ≠ .fresh) (hskip : w.skip = true → f = .consumer)
    (hheld : ∀ c, w.auto = .held c → f = .consumer) : Ok (back w f) := by
  unfold Formats.back
  split
  · exact fail_ok w
  · rename_i g hg
    refine .inr (h.move hdata hadd (fun hd => (hdan hd).elim) (fun hk => ?_) (fun c hh => ?_)
      (fun hc => ?_) false)
    · obtain rfl := hskip hk
      rw [before_consumer (h.skip hk).1] at hg
      exact .inr (Option.some.inj hg).symm
    · obtain rfl := hheld c hh
      have hactive : w.auto.active = true := by rw [hh]; rfl
      obtain ⟨hcv,hsx⟩ := h.convs.later hactive
      rw [before_consumer_held hactive hcv hsx] at hg
      exact .inl (Option.some.inj hg).symm
    · subst hc
      have hpos := (before_pos hg).1
      cases f <;> simp [Flt.pos] at hpos

theorem behind_ne_decoder (w : World) (f : Flt) : behind w f ≠ .decoder := by
  unfold behind
  intro hd
  cases hfind : [Flt.dconv,.danorm,.autoconv,.aconv,.soxr].find?
      fun g => f.pos < g.pos && active w g with
  | none => rw [hfind] at hd; cases hd
  | some g =>
    have hmem := List.mem_of_find?_eq_some hfind
    rw [hfind] at hd
    obtain rfl : g = .decoder := hd
    simp at hmem

/-- A filter gives data of the format that the next one is set up for. -/
theorem Inv.give (h : Inv w) (hdata : w.data_in = none) (hadd : w.dcv ≠ .added)
    (hdan : w.dan = .fresh → behind w f = .danorm)
    (hskip : w.skip = true → behind w f = .consumer) (hheld : ∀ c, w.auto ≠ .held c)
    (hcons : behind w f = .consumer → w.auto ≠ .fresh) {fmt : Af}
    (hfmt : fmt = wire w.src w.audio w.oaudio w.cv (behind w f)) (len : Nat) :
    Inv (give w f fmt len) := by
  unfold Formats.give
  split
  · exact h.move hdata hadd hdan (fun hk => .inl (hskip hk)) (fun c hh => (hheld c hh).elim) hcons true
  · refine ⟨h.format,h.front,fun hd => ⟨(h.early hd).1,.inr (hdan hd)⟩,fun ha => (hadd ha).elim,
      h.talk,h.convs,fun hk => ?_,?_,h.agree,fun p => ?_⟩
    · exact ⟨(h.skip hk).1,.inl (hskip hk)⟩
    · refine ⟨fun c hc => ?_,.inr (.inl rfl),fun hd => (behind_ne_decoder w f hd).elim,
        fun c hh => (hheld c hh).elim,h.flight.chunk,hcons⟩
      obtain rfl := Option.some.inj hc
      exact hfmt
    · have honce := h.once p
      rw [hdata,Auto.chunk_eq_none hheld,ids_none,List.append_nil,List.append_nil] at honce
      change taken p w.log ++ ids p w.auto.chunk ++ ids p (some ⟨f,w.made f,len,fmt⟩) =
        List.range (Function.update w.made f (w.made f + 1) p)
      rw [Auto.chunk_eq_none hheld,ids_none,List.append_nil,honce]
      by_cases hp : p = f
      · subst hp
        rw [Function.update_self,List.range_succ]
        congr 1
        exact ids_of_eq
      · rw [Function.update_of_ne hp,ids_of_ne (Ne.symm hp),List.append_nil]

/-! ## Where data goes -/

theorem Auto.done_of_inactive (h : auto.active = false) : auto = .done := by
  cases auto with
  | done => rfl
  | fresh => cases h
  | held c => cases h

theorem Inv.auto_done (h : Inv w) (hcv : w.cv ≠ .absent ∨ w.sx ≠ .absent) : w.auto = .done := by
  cases ha : w.auto.active with
  | false => exact Auto.done_of_inactive ha
  | true =>
    obtain ⟨hc,hs⟩ := h.convs.later ha
    exact (hcv.elim (fun hn => hn hc) fun hn => hn hs).elim

theorem Inv.wire_aconv (h : Inv w) {fi fo : Af} {rest : Nat} (hcv : w.cv = .set fi fo rest) :
    wire w.src w.audio w.oaudio w.cv (behind w .aconv) = fo := by
  have hgiven : w.cv.given w.audio = fo := by rw [hcv]; rfl
  rw [behind_aconv]
  cases hsx : w.sx with
  | added => exact hgiven
  | opened i o => exact hgiven
  | absent =>
    have hauto := h.auto_done (.inl (by simp [hcv]))
    exact (h.convs.direct hauto hsx (by simp [hcv])).symm.trans hgiven
  | done =>
    have hc := (h.convs.done hsx).2
    rw [hcv] at hc
    cases hc

theorem Inv.wire_autoconv (h : Inv w) (hauto : w.auto = .done)
    (hq : ¬quiet w.decoder w.dcv w.dan) :
    wire w.src w.audio w.oaudio w.cv (behind w .autoconv) = w.audio := by
  have hgiven (hcv : w.cv.active = false) : w.cv.given w.audio = w.audio := by
    cases hc : w.cv with
    | absent => rfl
    | done fo => exact (h.convs.removed fo hc).resolve_right hq
    | added => rw [hc] at hcv; cases hcv
    | set fi fo rest => rw [hc] at hcv; cases hcv
  rw [behind_autoconv]
  cases hcv : w.cv.active with
  | true => rfl
  | false =>
    cases hsx : w.sx with
    | added => exact hgiven hcv
    | opened i o => exact hgiven hcv
    | absent =>
      have hadd : w.cv ≠ .added := fun ha => by rw [ha] at hcv; cases hcv
      exact (h.convs.direct hauto hsx hadd).symm.trans (hgiven hcv)
    | done => exact (hq (h.convs.done hsx).1).elim

theorem Inv.wire_danorm (h : Inv w) (hq : ¬quiet w.decoder w.dcv w.dan) :
    wire w.src w.audio w.oaudio w.cv (behind w .danorm) = w.audio := by
  rw [behind_danorm]
  cases ha : w.auto.active with
  | true => rfl
  | false => exact h.wire_autoconv (Auto.done_of_inactive ha) hq

theorem Inv.wire_dconv (h : Inv w) (hq : ¬quiet w.decoder w.dcv w.dan) :
    wire w.src w.audio w.oaudio w.cv (behind w .dconv) = w.audio := by
  rw [behind_dconv]
  cases hd : w.dan.active with
  | true => rfl
  | false => exact h.wire_danorm hq

theorem Inv.wire_decoder (h : Inv w) (hdec : w.decoder = true) :
    wire w.src w.audio w.oaudio w.cv (behind w .decoder) = w.src := by
  have hq : ¬quiet w.decoder w.dcv w.dan := fun hq => by cases hdec.symm.trans hq.1
  rw [behind_decoder]
  cases hd : w.dcv with
  | added => rfl
  | set fi fo rest => rfl
  | done fo => cases hdec.symm.trans (h.front.removed fo hd)
  | absent =>
    have hinput := h.front.input
    rw [if_pos hd] at hinput
    exact (h.wire_dconv hq).trans hinput

/-- Data does not go past the automatic conversion before it is called. -/
theorem behind_ne_consumer (hf : f.pos < Flt.autoconv.pos) (h : behind w f = .consumer) :
    w.auto ≠ .fresh := by
  intro ha
  have hactive : w.auto.active = true := by rw [ha]; rfl
  cases f with
  | decoder =>
    rw [behind_decoder,behind_dconv,behind_danorm,if_pos hactive] at h
    split at h
    · cases h
    · split at h <;> cases h
  | dconv =>
    rw [behind_dconv,behind_danorm,if_pos hactive] at h
    split at h <;> cases h
  | danorm =>
    rw [behind_danorm,if_pos hactive] at h
    cases h
  | autoconv | aconv | soxr | consumer => simp [Flt.pos] at hf

/-! ## The filters keep the invariant -/

theorem Inv.decode (h : Inv w) (hc : w.cur = .decoder) (hdec : w.decoder = true) (len : Nat)
    (fin : Bool) : Inv (decode w len fin) := by
  have hfmt := (h.wire_decoder hdec).symm
  have hf := h.front
  have hfirst : Inv {w with decoder := !fin} := by
    refine ⟨h.format,⟨hf.input,hf.user,hf.fresh,hf.set,fun fo hd => ?_,hf.opened,fun hd => ?_⟩,
      h.early,h.added,h.talk,h.convs.mono fun hq => ?_,h.skip,h.flight,h.agree,h.once⟩
    · cases hdec.symm.trans (hf.removed fo hd)
    · cases hdec.symm.trans (hf.done hd).1
    · cases hdec.symm.trans hq.1
  refine hfirst.give (h.flight.decoder hc) (h.not_added (by simp [hc])) (fun hd => ?_)
    (fun hk => ?_) (h.not_held (by simp [hc]) (by simp [hc])) (behind_ne_consumer (by decide)) hfmt
    len
  · change w.dan = .fresh at hd
    change behind w .decoder = .danorm
    rw [behind_decoder,behind_dconv,hf.fresh (.inr hd),hd]
    rfl
  · cases (h.no_skip (by simp [hc]) (by simp [hc])).symm.trans hk

theorem aconv_prepare_norm (f : Af) : aconv_prepare f (norm f) = .whole (norm f) := by
  simp [aconv_prepare,norm]

/-- The converter of the normalizer is prepared, or it goes on, or it is removed. -/
theorem Inv.set_dcv (h : Inv w) (hdcv : w.dcv.active = true) {d : Conv}
    (hd : (∃ rest, d = .set w.src (norm w.src) rest) ∨
      d = .done (norm w.src) ∧ w.decoder = false) : Inv {w with dcv := d} := by
  have hf := h.front
  have hne : w.dcv ≠ .absent := fun ha => by rw [ha] at hdcv; cases hdcv
  have hne' : d ≠ .absent := by rcases hd with ⟨rest,rfl⟩ | ⟨rfl,-⟩ <;> exact nofun
  have hinput := hf.input
  have huser := hf.user
  rw [if_neg hne] at hinput huser
  refine ⟨h.format,⟨?_,?_,fun hd => (hne (hf.fresh hd)).elim,?_,?_,hf.opened,fun hd => ?_⟩,
    h.early,?_,h.talk,h.convs.mono fun hq => ?_,h.skip,h.flight,h.agree,h.once⟩
  · rw [if_neg hne']
    exact hinput
  · rw [if_neg hne']
    exact huser
  · intro fi fo rest hset
    rcases hd with ⟨rest,rfl⟩ | ⟨rfl,-⟩
    · cases hset
      exact ⟨rfl,rfl⟩
    · cases hset
  · intro fo hdone
    rcases hd with ⟨rest,rfl⟩ | ⟨-,hdec⟩
    · cases hdone
    · exact hdec
  · cases hdcv.symm.trans (hf.done hd).2
  · intro ha
    change d = .added at ha
    rcases hd with ⟨rest,rfl⟩ | ⟨rfl,-⟩ <;> cases ha
  · cases hdcv.symm.trans hq.2.1

theorem Inv.dconv_convert (h : Inv w) (hcur : w.cur = .dconv) (hdcv : w.dcv.active = true)
    (hdata : w.data_in = none) (len : Nat) :
    Ok (aconv_convert w .dconv w.src (norm w.src) len) := by
  have hskip : w.skip = false := h.no_skip (by simp [hcur]) (by simp [hcur])
  have hheld := h.not_held (by simp [hcur]) (by simp [hcur])
  have hq : ¬quiet w.decoder w.dcv w.dan := fun hq => by cases hdcv.symm.trans hq.2.1
  have hset (rest : Nat) := h.set_dcv hdcv (.inl ⟨rest,rfl⟩)
  have hdan := h.not_fresh (by simp [hcur]) (by simp [hcur])
  unfold aconv_convert
  dsimp only [set_conv]
  simp only [if_true]
  split
  · split
    · rename_i hfirst
      have hdec : w.decoder = false := inactive_of_first (g := .decoder) hfirst (by decide)
      have hdone := h.set_dcv hdcv (.inr ⟨rfl,hdec⟩)
      exact .inr (hdone.move hdata nofun (fun hd => (hdan hd).elim)
        (fun hk => by cases hskip.symm.trans hk) (fun c hh => (hheld c hh).elim)
        (behind_ne_consumer (by decide)) true)
    · exact (hset len).back hdata nofun hdan (fun hk => by cases hskip.symm.trans hk)
        fun c hh => (hheld c hh).elim
  · have hfmt : norm w.src = wire w.src w.audio w.oaudio w.cv (behind w .dconv) := by
      have hinput := h.front.input
      rw [if_neg (fun ha => by rw [ha] at hdcv; cases hdcv)] at hinput
      exact hinput.symm.trans (h.wire_dconv hq).symm
    exact .inr ((hset _).give hdata nofun (fun hd => (hdan hd).elim)
      (fun hk => by cases hskip.symm.trans hk) hheld (behind_ne_consumer (by decide)) hfmt _)

theorem Inv.dconv_run (h : Inv w) (hcur : w.cur = .dconv) (hdcv : w.dcv.active = true)
    (hdata : w.data_in = none ∨ w.fwd = true) (rest : Nat) :
    Ok (aconv_run w .dconv w.src (norm w.src) rest) := by
  unfold aconv_run
  split
  · have hfmt (c : Chunk) (hc : w.data_in = some c) : c.fmt = w.src := by
      rw [h.flight.fmt c hc,hcur]
      rfl
    exact (h.take hfmt).dconv_convert hcur hdcv rfl _
  · rename_i hfwd
    exact h.dconv_convert hcur hdcv (hdata.resolve_right hfwd) rest

theorem Inv.dconv (h : Inv w) (hcur : w.cur = .dconv) {ok : Bool} (hc : Clear w (.convert ok))
    (hs : aconv_process w .dconv ok = some w') : Ok w' := by
  unfold aconv_process at hs
  split at hs
  · rename_i hok
    have hdata := (hc hok).1 hcur
    rw [if_pos rfl] at hs
    split at hs
    · rename_i hdcv
      obtain ⟨-,hain,haout⟩ := h.added hdcv
      rw [hain,haout,aconv_prepare_norm] at hs
      obtain rfl := Option.some.inj hs
      have hset := h.set_dcv (by rw [hdcv]; rfl) (.inl ⟨0,rfl⟩)
      exact hset.dconv_run hcur rfl hdata 0
    · rename_i fi fo rest hdcv
      obtain ⟨rfl,rfl⟩ := h.front.set fi fo rest hdcv
      obtain rfl := Option.some.inj hs
      exact h.dconv_run hcur (by rw [hdcv]; rfl) hdata rest
    · cases hs
    · cases hs
  · obtain rfl := Option.some.inj hs
    exact fail_ok w

theorem aconv_prepare_whole {fi fo fo' : Af} (h : aconv_prepare fi fo = .whole fo') : fo' = fo := by
  unfold aconv_prepare at h
  split at h
  · split at h <;> cases h
  · cases h
    rfl

theorem aconv_prepare_split {fi fo fo' : Af} (h : aconv_prepare fi fo = .split fo') :
    fo' = {fo with format := PHI_PCM_FLOAT32, rate := fi.rate} := by
  unfold aconv_prepare at h
  split at h
  · split at h
    · cases h
    · cases h
      rfl
  · cases h

theorem wire_congr {d : Conv} (h : cv.given audio = d.given audio) :
    wire src audio oaudio cv f = wire src audio oaudio d f := by
  cases f with
  | soxr => exact h
  | decoder | dconv | danorm | autoconv | aconv | consumer => rfl

theorem Inv.set_cv (h : Inv w) {fi fo : Af} {rest : Nat} (hcv : w.cv = .set fi fo rest) {d : Conv}
    (hd : (∃ rest, d = .set fi fo rest) ∨ d = .done fo ∧ quiet w.decoder w.dcv w.dan) :
    Inv {w with cv := d} := by
  have hauto := h.auto_done (.inl (by simp [hcv]))
  have hgiven : w.cv.given w.audio = d.given w.audio := by
    rw [hcv]
    rcases hd with ⟨rest,rfl⟩ | ⟨rfl,-⟩ <;> rfl
  have hnadd : w.cv ≠ .added := by simp [hcv]
  have hk := h.convs
  have hf := h.flight
  refine ⟨h.format,h.front,h.early,h.added,h.talk,?_,h.skip,
    ⟨fun c hc => (hf.fmt c hc).trans (wire_congr hgiven),hf.fwd,hf.decoder,hf.held,hf.chunk,hf.consumer⟩,
    h.agree,h.once⟩
  refine ⟨fun ha => ?_,fun ha => ?_,fun i o r hset => ?_,fun o hdone => ?_,fun ha hsx _ => ?_,
    fun hsx => ?_,fun i o hsx => ?_,fun hsx => ?_⟩
  · rw [hauto] at ha
    cases ha
  · rcases hd with ⟨rest,rfl⟩ | ⟨rfl,-⟩ <;> cases ha
  · rcases hd with ⟨rest,rfl⟩ | ⟨rfl,-⟩
    · cases hset
      exact hk.set _ _ _ hcv
    · cases hset
  · rcases hd with ⟨rest,rfl⟩ | ⟨-,hq⟩
    · cases hdone
    · exact .inr hq
  · exact hgiven.symm.trans (hk.direct ha hsx hnadd)
  · exact ⟨(hk.next hsx).1,fun hok => ((hk.next hsx).2 hok).trans hgiven⟩
  · exact ⟨(hk.opened i o hsx).1.trans hgiven,(hk.opened i o hsx).2⟩
  · have hc := (hk.done hsx).2
    rw [hcv] at hc
    cases hc

theorem Inv.aconv_convert (h : Inv w) (hcur : w.cur = .aconv) {fi fo : Af} {rest : Nat}
    (hcv : w.cv = .set fi fo rest) (hdata : w.data_in = none) (len : Nat) :
    Ok (aconv_convert w .aconv fi fo len) := by
  have hskip : w.skip = false := h.no_skip (by simp [hcur]) (by simp [hcur])
  have hheld := h.not_held (by simp [hcur]) (by simp [hcur])
  have hadd := h.not_added (by simp [hcur])
  have hauto := h.auto_done (.inl (by simp [hcv]))
  have hfresh : w.auto ≠ .fresh := by simp [hauto]
  have hset (r : Nat) := h.set_cv hcv (.inl ⟨r,rfl⟩)
  have hdan := h.not_fresh (by simp [hcur]) (by simp [hcur])
  unfold Formats.aconv_convert
  dsimp only [set_conv]
  simp only [reduceCtorEq,if_false]
  split
  · split
    · rename_i hfirst
      have hdec : w.decoder = false := inactive_of_first (g := .decoder) hfirst (by decide)
      have hdcv : w.dcv.active = false := inactive_of_first (g := .dconv) hfirst (by decide)
      have hnorm : w.dan.active = false := inactive_of_first (g := .danorm) hfirst (by decide)
      exact .inr ((h.set_cv hcv (.inr ⟨rfl,hdec,hdcv,hnorm⟩)).move hdata hadd
        (fun hd => (hdan hd).elim) (fun hk => by cases hskip.symm.trans hk)
        (fun c hh => (hheld c hh).elim) (fun _ => hfresh) true)
    · exact (hset len).back hdata hadd hdan (fun hk => by cases hskip.symm.trans hk)
        fun c hh => (hheld c hh).elim
  · have hwire := (hset (len - samples fi fo len * pcm_size1 fi)).wire_aconv rfl
    exact .inr ((hset _).give hdata hadd (fun hd => (hdan hd).elim)
      (fun hk => by cases hskip.symm.trans hk) hheld (fun _ => hfresh) hwire.symm _)

theorem Inv.aconv_run (h : Inv w) (hcur : w.cur = .aconv) {fi fo : Af} {rest : Nat}
    (hcv : w.cv = .set fi fo rest) : Ok (aconv_run w .aconv fi fo rest) := by
  unfold Formats.aconv_run
  split
  · have hfmt (c : Chunk) (hc : w.data_in = some c) : c.fmt = fi := by
      rw [h.flight.fmt c hc,hcur,h.convs.set fi fo rest hcv]
      rfl
    exact (h.take hfmt).aconv_convert hcur hcv rfl _
  · rename_i hfwd
    have hdata : w.data_in = none := by
      rcases h.flight.fwd with hn | hf | hd
      · exact hn
      · exact (hfwd hf).elim
      · cases hcur.symm.trans hd
    exact h.aconv_convert hcur hcv hdata rest

theorem Inv.aconv_resample (h : Inv w) (hcur : w.cur = .aconv) (hcv : w.cv = .added) :
    Inv (pass {w with sx := .added, cv := .done w.ain} .aconv w.data_in) := by
  obtain ⟨-,hain,haout⟩ := h.convs.added hcv
  have hauto := h.auto_done (.inl (by simp [hcv]))
  have hskip : w.skip = false := h.no_skip (by simp [hcur]) (by simp [hcur])
  have hbehind : behind {w with sx := .added, cv := .done w.ain} .aconv = .soxr := behind_aconv
  refine ⟨h.format,h.front,fun hd => (h.not_fresh (by simp [hcur]) (by simp [hcur]) hd).elim,
    fun ha => (h.not_added (by simp [hcur]) ha).elim,h.talk,?_,
    fun hk => (by cases hskip.symm.trans hk),?_,h.agree,h.once⟩
  · refine ⟨fun ha => ?_,nofun,nofun,fun fo hd => .inl ?_,nofun,fun _ => ⟨haout,fun _ => rfl⟩,nofun,
      nofun⟩
    · change w.auto.active = true at ha
      rw [hauto] at ha
      cases ha
    · cases hd
      exact hain
  · unfold pass
    rw [hbehind]
    refine ⟨fun c hc => ?_,.inr (.inl rfl),nofun,fun c hh => ?_,fun c hh => ?_,nofun⟩
    · have hfmt := h.flight.fmt c hc
      rw [hcur] at hfmt
      exact hfmt.trans hain.symm
    · cases hauto.symm.trans hh
    · cases hauto.symm.trans hh

/-- The converter is prepared, alone or with the resampler behind it. -/
theorem Inv.aconv_set (h : Inv w) (hcur : w.cur = .aconv) (hcv : w.cv = .added) {s : Soxr}
    {fo i : Af} (hs : s = .absent ∧ fo = w.aout ∨
      s = .added ∧ (ffsoxr_create i w.aout = true → i = fo)) :
    Inv {w with sx := s, cv := .set w.ain fo 0, ain := i} := by
  obtain ⟨-,hain,haout⟩ := h.convs.added hcv
  have hauto := h.auto_done (.inl (by simp [hcv]))
  have hskip : w.skip = false := h.no_skip (by simp [hcur]) (by simp [hcur])
  have hf := h.flight
  refine ⟨h.format,h.front,fun hd => (h.not_fresh (by simp [hcur]) (by simp [hcur]) hd).elim,
    fun ha => (h.not_added (by simp [hcur]) ha).elim,h.talk,?_,
    fun hk => (by cases hskip.symm.trans hk),?_,h.agree,h.once⟩
  · refine ⟨fun ha => ?_,nofun,fun fi fo r hset => ?_,nofun,fun _ hsx _ => ?_,fun hsx => ?_,
      fun i o hsx => ?_,fun hsx => ?_⟩
    · rw [hauto] at ha
      cases ha
    · cases hset
      exact hain
    · rcases hs with ⟨-,hfo⟩ | ⟨hadd,-⟩
      · exact hfo.trans haout
      · cases hadd.symm.trans hsx
    · rcases hs with ⟨habsent,-⟩ | ⟨-,hi⟩
      · cases habsent.symm.trans hsx
      · exact ⟨haout,hi⟩
    · rcases hs with ⟨habsent,-⟩ | ⟨hadd,-⟩
      · cases habsent.symm.trans hsx
      · cases hadd.symm.trans hsx
    · rcases hs with ⟨habsent,-⟩ | ⟨hadd,-⟩
      · cases habsent.symm.trans hsx
      · cases hadd.symm.trans hsx
  · refine ⟨fun c hc => ?_,hf.fwd,hf.decoder,hf.held,hf.chunk,hf.consumer⟩
    have hfmt := hf.fmt c hc
    rw [hcur] at hfmt ⊢
    exact hfmt

/-- A split conversion gives the resampler what it is set up for, if the layout stays. -/
theorem split_layout_eq {i o fo : Af} (hp : aconv_prepare i o = .split fo)
    (hl : split_layout i o = true)
    (hok : ffsoxr_create {i with format := fo.format, channels := fo.channels} o = true) :
    {i with format := fo.format, channels := fo.channels} = fo := by
  unfold split_layout at hl
  rw [hp] at hl
  simp only [hok,Bool.not_true,Bool.false_or,beq_iff_eq] at hl
  obtain rfl := aconv_prepare_split hp
  simp [hl]

theorem Inv.aconv (h : Inv w) (hcur : w.cur = .aconv) {ok : Bool} (hc : Clear w (.convert ok))
    (hs : aconv_process w .aconv ok = some w') : Ok w' := by
  unfold aconv_process at hs
  split at hs
  · rename_i hok
    have hsplit := (hc hok).2 hcur
    rw [if_neg (by simp)] at hs
    split at hs
    · rename_i hcv
      have hlayout := hsplit hcv
      split at hs
      · rw [if_neg (by simp)] at hs
        obtain rfl := Option.some.inj hs
        exact .inr (h.aconv_resample hcur hcv)
      · rename_i fo hp
        rw [if_neg (by simp)] at hs
        obtain rfl := Option.some.inj hs
        have hset := h.aconv_set hcur hcv (.inr ⟨rfl,split_layout_eq hp hlayout⟩)
        exact hset.aconv_run hcur rfl
      · rename_i fo hp
        obtain rfl := Option.some.inj hs
        have hset := h.aconv_set hcur hcv (i := w.ain)
          (.inl ⟨(h.convs.added hcv).1,aconv_prepare_whole hp⟩)
        exact hset.aconv_run hcur rfl
    · rename_i fi fo rest hcv
      obtain rfl := Option.some.inj hs
      exact h.aconv_run hcur hcv
    · cases hs
    · cases hs
  · obtain rfl := Option.some.inj hs
    exact fail_ok w

/-- The normalizer adds its converter, and goes back with the chunk. -/
theorem Inv.danorm_ask (h : Inv w) (hcur : w.cur = .danorm) (hdan : w.dan = .fresh) :
    Inv (danorm_ask w) := by
  have hdcv := h.front.fresh (.inr hdan)
  have hauto := (h.early hdan).1
  have hinput := h.front.input
  have huser := h.front.user
  rw [if_pos hdcv] at hinput huser
  have hskip : w.skip = false := h.no_skip (by simp [hcur]) (by simp [hcur])
  have hactive : w.auto.active = true := by rw [hauto]; rfl
  obtain ⟨hcv,hsx⟩ := h.convs.later hactive
  obtain ⟨hcons,hasked,hlayout,hblank⟩ := h.talk.fresh hauto
  have hheld (c : Option Chunk) (hh : w.auto = .held c) : False := by cases hauto.symm.trans hh
  have hdone (hd : w.auto = .done) : False := by cases hauto.symm.trans hd
  refine ⟨h.format,⟨?_,?_,?_,nofun,nofun,nofun,nofun⟩,nofun,fun _ => ⟨rfl,hinput,?_⟩,?_,?_,
    fun hk => (by cases hskip.symm.trans hk),?_,h.agree,h.once⟩
  · change norm w.audio = norm w.src
    rw [hinput]
  · dsimp only [Formats.danorm_ask]
    rw [huser,hinput]
    rfl
  · rintro (hd | hd) <;> cases hd
  · change norm w.audio = norm w.src
    rw [hinput]
  · exact ⟨fun _ => ⟨hcons,hasked,hlayout,hblank⟩,fun c hh => (hheld c hh).elim,
      fun hd => (hdone hd).elim,fun hne => (hne hauto).elim,fun f hf => (by cases hcons.symm.trans hf)⟩
  · exact ⟨fun _ => ⟨hcv,hsx⟩,fun ha => (by cases hcv.symm.trans ha),
      fun _ _ _ hset => (by cases hcv.symm.trans hset),fun _ hd => (by cases hcv.symm.trans hd),
      fun hd => (hdone hd).elim,fun ha => (by cases hsx.symm.trans ha),
      fun _ _ ho => (by cases hsx.symm.trans ho),fun hd => (by cases hsx.symm.trans hd)⟩
  · refine ⟨fun c hc => ?_,.inr (.inr rfl),nofun,fun c hh => (hheld c hh).elim,
      fun c hh => (hheld _ hh).elim,nofun⟩
    have hfmt := h.flight.fmt c hc
    rw [hcur] at hfmt
    exact hfmt.trans hinput

theorem Inv.set_dan (h : Inv w) (hdan : w.dan.active = true) {d : Norm}
    (hd : d = .opened w.audio ∨ d = .done ∧ w.decoder = false ∧ w.dcv.active = false) :
    Inv {w with dan := d} := by
  have hf := h.front
  refine ⟨h.format,⟨hf.input,hf.user,fun hn => ?_,hf.set,hf.removed,fun fmt ho => ?_,fun hdone => ?_⟩,
    fun hn => ?_,h.added,h.talk,h.convs.mono fun hq => ?_,h.skip,h.flight,h.agree,h.once⟩
  · rcases hd with rfl | ⟨rfl,-⟩ <;> rcases hn with hn | hn <;> cases hn
  · rcases hd with rfl | ⟨rfl,-⟩
    · cases ho
      rfl
    · cases ho
  · rcases hd with rfl | ⟨-,hq⟩
    · cases hdone
    · exact hq
  · rcases hd with rfl | ⟨rfl,-⟩ <;> cases hn
  · cases hdan.symm.trans hq.2.2

theorem Inv.danorm_run (h : Inv w) (hcur : w.cur = .danorm) (hdan : w.dan = .opened w.audio)
    {r : Normed} (hs : danorm_run w w.audio r = some w') : Ok w' := by
  have hfmt (c : Chunk) (hc : w.data_in = some c) : c.fmt = w.audio := by
    rw [h.flight.fmt c hc,hcur]
    rfl
  have htake := h.take (f := .danorm) hfmt
  have hadd := h.not_added (by simp [hcur])
  have hnew : w.dan ≠ .fresh := by simp [hdan]
  have hactive : w.dan.active = true := by rw [hdan]; rfl
  have hskip : w.skip = false := h.no_skip (by simp [hcur]) (by simp [hcur])
  have hheld := h.not_held (by simp [hcur]) (by simp [hcur])
  have hq : ¬quiet w.decoder w.dcv w.dan := fun hq => by cases hactive.symm.trans hq.2.2
  have hwire := (h.wire_danorm hq).symm
  have hback : Ok (Formats.back (Formats.take w .danorm w.audio) .danorm) :=
    htake.back rfl hadd hnew (fun hk => by cases hskip.symm.trans hk) fun c hh => (hheld c hh).elim
  unfold Formats.danorm_run at hs
  dsimp only at hs
  split at hs
  · obtain rfl := Option.some.inj hs
    exact hback
  · split at hs
    · cases hs
    · obtain rfl := Option.some.inj hs
      exact hback
  · obtain rfl := Option.some.inj hs
    exact .inr (htake.give rfl hadd (fun hd => (hnew hd).elim)
      (fun hk => by cases hskip.symm.trans hk) hheld (behind_ne_consumer (by decide)) hwire _)
  · split at hs
    · rename_i hfirst
      obtain rfl := Option.some.inj hs
      have hdec : w.decoder = false := inactive_of_first (g := .decoder) hfirst (by decide)
      have hdcv : w.dcv.active = false := inactive_of_first (g := .dconv) hfirst (by decide)
      have hdone := htake.set_dan hactive (.inr ⟨rfl,hdec,hdcv⟩)
      exact .inr (hdone.give rfl hadd nofun (fun hk => by cases hskip.symm.trans hk) hheld
        (behind_ne_consumer (by decide)) hwire _)
    · cases hs

theorem Inv.danorm_open (h : Inv w) (hcur : w.cur = .danorm) (hdan : w.dan.active = true)
    {r : Normed} (hs : danorm_open w r = some w') : Ok w' := by
  unfold Formats.danorm_open at hs
  split at hs
  · obtain rfl := Option.some.inj hs
    exact fail_ok w
  · exact (h.set_dan hdan (.inl rfl)).danorm_run hcur rfl hs

theorem Inv.danorm (h : Inv w) (hcur : w.cur = .danorm) {ok : Bool} {r : Normed}
    (hs : danorm_f_process w ok r = some w') : Ok w' := by
  unfold danorm_f_process at hs
  split at hs
  · split at hs
    · rename_i hdan
      split at hs
      · exact h.danorm_open hcur (by rw [hdan]; rfl) hs
      · obtain rfl := Option.some.inj hs
        exact .inr (h.danorm_ask hcur hdan)
    · rename_i hdan
      exact h.danorm_open hcur (by rw [hdan]; rfl) hs
    · rename_i fmt hdan
      obtain rfl := h.front.opened fmt hdan
      exact h.danorm_run hcur hdan hs
    · cases hs
    · cases hs
  · obtain rfl := Option.some.inj hs
    exact fail_ok w

theorem Inv.autoconv_hold (h : Inv w) (hcur : w.cur = .autoconv) (hauto : w.auto = .fresh) :
    Inv {pass w .autoconv none with
      auto := .held w.data_in
      oaudio := phi_af_update w.audio w.conf_format
      conv_format := {w.conv_format with
        interleaved := (phi_af_update w.audio w.conf_format).interleaved}} := by
  have hactive : w.auto.active = true := by rw [hauto]; rfl
  obtain ⟨hcv,hsx⟩ := h.convs.later hactive
  obtain ⟨hcons,hasked,hlayout,hblank⟩ := h.talk.fresh hauto
  have hskip : w.skip = false := h.no_skip (by simp [hcur]) (by simp [hcur])
  have hbehind : behind w .autoconv = .consumer := by
    rw [behind_autoconv,hcv,hsx]
    rfl
  refine ⟨h.format,h.front,fun hd => (h.not_fresh (by simp [hcur]) (by simp [hcur]) hd).elim,
    fun ha => (h.not_added (by simp [hcur]) ha).elim,?_,?_,fun hk => (by cases hskip.symm.trans hk),
    ?_,h.agree,fun p => ?_⟩
  · refine ⟨nofun,fun c _ => ⟨rfl,fun _ => ⟨hlayout,hblank⟩,fun _ => hcons⟩,nofun,fun _ => ?_,
      fun f hf => (by cases hcons.symm.trans hf)⟩
    change w.audio.interleaved = w.layout.getD w.audio.interleaved
    rw [hlayout]
    rfl
  · exact ⟨fun _ => ⟨hcv,hsx⟩,fun ha => (by cases hcv.symm.trans ha),
      fun _ _ _ hset => (by cases hcv.symm.trans hset),fun _ hd => (by cases hcv.symm.trans hd),
      nofun,fun ha => (by cases hsx.symm.trans ha),fun _ _ ho => (by cases hsx.symm.trans ho),
      fun hd => (by cases hsx.symm.trans hd)⟩
  · refine ⟨nofun,.inl rfl,fun _ => rfl,fun c _ => ⟨rfl,.inr hbehind⟩,fun c hh => ?_,fun _ => nofun⟩
    have hfmt := h.flight.fmt c (Auto.held.inj hh)
    rw [hcur] at hfmt
    exact hfmt
  · have honce := h.once p
    rw [hauto] at honce
    change taken p w.log ++ ids p w.data_in ++ [] = _
    rw [List.append_nil]
    change taken p w.log ++ [] ++ ids p w.data_in = _ at honce
    rw [List.append_nil] at honce
    exact honce

/-- The automatic conversion lets the first chunk go: to the consumer, or to the converter. -/
theorem Inv.autoconv_release (h : Inv w) (hcur : w.cur = .autoconv) {c : Option Chunk}
    (hauto : w.auto = .held c) {d : Conv} {i o : Af}
    (hd : d = .absent ∧ w.audio = settled w.audio w.conf_format w.conv_format ∨
      d = .added ∧ i = w.audio ∧ o = settled w.audio w.conf_format w.conv_format) :
    Inv (pass {w with
      auto := .done
      oaudio := settled w.audio w.conf_format w.conv_format
      ain := i
      aout := o
      cv := d} .autoconv c) := by
  have hactive : w.auto.active = true := by rw [hauto]; rfl
  obtain ⟨hcv,hsx⟩ := h.convs.later hactive
  have hskip : w.skip = false := h.no_skip (by simp [hcur]) (by simp [hcur])
  obtain ⟨hdata,-⟩ := h.flight.held c hauto
  have hne : w.auto ≠ .fresh := by simp [hauto]
  have ht := h.talk
  refine ⟨h.format,h.front,fun hd => (h.not_fresh (by simp [hcur]) (by simp [hcur]) hd).elim,
    fun ha => (h.not_added (by simp [hcur]) ha).elim,
    ⟨nofun,nofun,fun _ => rfl,fun _ => ht.layout_eq hne,ht.cons_eq⟩,?_,
    fun hk => (by cases hskip.symm.trans hk),?_,h.agree,fun p => ?_⟩
  · refine ⟨nofun,fun ha => ?_,fun fi fo r hset => ?_,fun fo hdone => ?_,fun _ _ hnadd => ?_,
      fun ha => (by cases hsx.symm.trans ha),fun _ _ ho => (by cases hsx.symm.trans ho),
      fun hd => (by cases hsx.symm.trans hd)⟩
    · rcases hd with ⟨rfl,-⟩ | ⟨-,hi,ho⟩
      · cases ha
      · exact ⟨hsx,hi,ho⟩
    · rcases hd with ⟨rfl,-⟩ | ⟨rfl,-⟩ <;> cases hset
    · rcases hd with ⟨rfl,-⟩ | ⟨rfl,-⟩ <;> cases hdone
    · rcases hd with ⟨rfl,heq⟩ | ⟨rfl,-⟩
      · exact heq
      · exact (hnadd rfl).elim
  · refine ⟨fun c' hc => ?_,.inr (.inl rfl),fun hb => (behind_ne_decoder _ _ hb).elim,nofun,nofun,
      fun _ => nofun⟩
    have hfmt : c'.fmt = w.audio := h.flight.chunk c' (by rw [hauto]; exact congrArg _ hc)
    unfold pass
    rw [behind_autoconv]
    rcases hd with ⟨rfl,heq⟩ | ⟨rfl,-⟩
    · rw [hsx]
      exact hfmt.trans heq
    · exact hfmt
  · have honce := h.once p
    rw [hauto,hdata,ids_none,List.append_nil] at honce
    change taken p w.log ++ [] ++ ids p c = _
    rw [List.append_nil]
    exact honce

theorem Inv.autoconv (h : Inv w) (hcur : w.cur = .autoconv) {ok : Bool}
    (hs : autoconv_process w ok = some w') : Ok w' := by
  unfold autoconv_process at hs
  split at hs
  · rename_i hauto
    obtain rfl := Option.some.inj hs
    exact .inr (h.autoconv_hold hcur hauto)
  · rename_i c hauto
    have hactive : w.auto.active = true := by rw [hauto]; rfl
    have hcv := (h.convs.later hactive).1
    have hoaf : {phi_af_update w.oaudio w.conv_format with
        interleaved := w.conv_format.interleaved} =
        settled w.audio w.conf_format w.conv_format := by
      rw [(h.talk.held c hauto).1]
      rfl
    dsimp only at hs
    rw [hoaf] at hs
    split at hs
    · rename_i heq
      obtain rfl := Option.some.inj hs
      exact .inr (h.autoconv_release hcur hauto (.inl ⟨hcv,heq⟩))
    · split at hs
      · obtain rfl := Option.some.inj hs
        exact .inr (h.autoconv_release hcur hauto (.inr ⟨rfl,rfl,rfl⟩))
      · obtain rfl := Option.some.inj hs
        exact fail_ok _
  · cases hs

theorem Inv.set_sx (h : Inv w) (hskip : w.skip = false)
    (hsx : w.sx.active = true) {s : Soxr}
    (hs : s = .opened (w.cv.given w.audio) w.oaudio ∨
      s = .done ∧ quiet w.decoder w.dcv w.dan ∧ w.cv.active = false) : Inv {w with sx := s} := by
  have hauto := h.auto_done (.inr fun ha => by rw [ha] at hsx; cases hsx)
  have hk := h.convs
  have hnadd : w.cv ≠ .added := fun ha => by
    rw [(hk.added ha).1] at hsx
    cases hsx
  refine ⟨h.format,h.front,h.early,h.added,h.talk,
    ⟨fun ha => ?_,fun ha => (hnadd ha).elim,hk.set,hk.removed,fun _ habsent => ?_,fun hadd => ?_,
      fun i o ho => ?_,fun hdone => ?_⟩,
    fun hk => (by cases hskip.symm.trans hk),h.flight,h.agree,h.once⟩
  · rw [hauto] at ha
    cases ha
  · rcases hs with rfl | ⟨rfl,-⟩ <;> cases habsent
  · rcases hs with rfl | ⟨rfl,-⟩ <;> cases hadd
  · rcases hs with rfl | ⟨rfl,-⟩
    · cases ho
      exact ⟨rfl,rfl⟩
    · cases ho
  · rcases hs with rfl | ⟨-,hq⟩
    · cases hdone
    · exact hq

theorem Inv.soxr_run (h : Inv w) (hcur : w.cur = .soxr) (hskip : w.skip = false) {i o : Af}
    (hsx : w.sx = .opened i o) (out : Nat) : Inv (soxr_run w i o out) := by
  obtain ⟨hi,ho⟩ := h.convs.opened i o hsx
  have hactive : w.sx.active = true := by rw [hsx]; rfl
  have hauto := h.auto_done (.inr (by simp [hsx]))
  have hfresh : w.auto ≠ .fresh := by simp [hauto]
  have hadd := h.not_added (by simp [hcur])
  have hnew := h.not_fresh (by simp [hcur]) (by simp [hcur])
  have hheld := h.not_held (by simp [hcur]) (by simp [hcur])
  have hfmt (c : Chunk) (hc : w.data_in = some c) : c.fmt = i := by
    rw [h.flight.fmt c hc,hcur,hi]
    rfl
  have htake := h.take (f := .soxr) hfmt
  unfold Formats.soxr_run
  dsimp only
  obtain ⟨n,hn⟩ : ∃ n, (if w.data_in = none ∧ first w .soxr = false then 0 else out) = n := ⟨_,rfl⟩
  rw [hn]
  split
  · rename_i hlast
    have hfirst := hlast.2
    have hdec : w.decoder = false := inactive_of_first (g := .decoder) hfirst (by decide)
    have hdcv : w.dcv.active = false := inactive_of_first (g := .dconv) hfirst (by decide)
    have hdan : w.dan.active = false := inactive_of_first (g := .danorm) hfirst (by decide)
    have hcv : w.cv.active = false := inactive_of_first (g := .aconv) hfirst (by decide)
    have hdone := htake.set_sx hskip hactive (.inr ⟨rfl,⟨hdec,hdcv,hdan⟩,hcv⟩)
    exact hdone.move rfl hadd (fun hd => (hnew hd).elim) (fun hk => by cases hskip.symm.trans hk)
      (fun c hh => (hheld c hh).elim) (fun _ => hfresh) true
  · have hnext : Inv {Formats.take w .soxr i with skip := true} :=
      ⟨htake.format,htake.front,htake.early,htake.added,htake.talk,htake.convs,
        fun _ => ⟨hactive,.inr ⟨hcur,rfl⟩⟩,htake.flight,htake.agree,htake.once⟩
    refine hnext.give rfl hadd (fun hd => (hnew hd).elim) (fun _ => behind_soxr) hheld
      (fun _ => hfresh) ?_ n
    rw [behind_soxr]
    exact ho

theorem Inv.soxr (h : Inv w) (hcur : w.cur = .soxr) {ok : Bool} {out : Nat}
    (hs : soxr_conv w ok out = some w') : Ok w' := by
  have hheld := h.not_held (by simp [hcur]) (by simp [hcur])
  have hquick : Inv {w with skip := false} :=
    ⟨h.format,h.front,h.early,h.added,h.talk,h.convs,nofun,h.flight,h.agree,h.once⟩
  unfold soxr_conv at hs
  split at hs
  · rename_i hskip
    obtain rfl := Option.some.inj hs
    have hdata : w.data_in = none := by
      rcases (h.skip hskip.1).2 with hc | hc
      · cases hcur.symm.trans hc
      · exact hc.2
    exact hquick.back hdata (h.not_added (by simp [hcur]))
      (h.not_fresh (by simp [hcur]) (by simp [hcur])) nofun fun c hh => (hheld c hh).elim
  · dsimp only at hs
    split at hs
    · rename_i hsx
      split at hs
      · rename_i hok
        obtain rfl := Option.some.inj hs
        obtain ⟨haout,hain⟩ := h.convs.next hsx
        have heq : Soxr.opened w.ain w.aout = .opened (w.cv.given w.audio) w.oaudio := by
          rw [hain hok.2,haout]
        have hopen := hquick.set_sx rfl (by rw [hsx]; rfl) (.inl heq)
        exact .inr (hopen.soxr_run hcur rfl rfl out)
      · obtain rfl := Option.some.inj hs
        exact fail_ok _
    · rename_i i o hsx
      split at hs
      · obtain rfl := Option.some.inj hs
        exact .inr (hquick.soxr_run hcur rfl hsx out)
      · obtain rfl := Option.some.inj hs
        exact fail_ok _
    · cases hs
    · cases hs

theorem Inv.request (h : Inv w) (hcur : w.cur = .consumer) (hcons : w.cons = none)
    (hactive : w.auto.active = true) (r : Af) (layout : Option Bool) :
    Inv (request w r layout) := by
  have hfresh := h.flight.consumer hcur
  have ht := h.talk
  refine ⟨h.format,h.front,h.early,h.added,⟨fun hf => (hfresh hf).elim,fun c hh => ?_,fun hd => ?_,
    fun _ => ?_,fun f hf => (by cases hcons.symm.trans hf)⟩,h.convs,h.skip,h.flight,h.agree,h.once⟩
  · exact ⟨(ht.held c hh).1,nofun,fun _ => hcons⟩
  · change w.auto = .done at hd
    rw [hd] at hactive
    cases hactive
  · dsimp only [Formats.request]
    cases layout with
    | none => exact ht.layout_eq hfresh
    | some b => rfl

theorem Inv.settled_eq (h : Inv w) (hfresh : w.auto ≠ .fresh)
    (hasked : w.auto.active = true → w.asked = false) :
    w.oaudio = settled w.audio w.conf_format w.conv_format := by
  have ht := h.talk
  cases hauto : w.auto with
  | fresh => exact (hfresh hauto).elim
  | done => exact ht.done hauto
  | held c =>
    rw [hauto] at hasked
    obtain ⟨hoaf,hblank,-⟩ := ht.held c hauto
    obtain ⟨hlayout,hblank⟩ := hblank (hasked rfl)
    have hi := ht.layout_eq hfresh
    rw [hlayout] at hi
    rw [hoaf,settled,phi_af_update_blank hblank,hi]
    rfl

theorem Inv.set_up (h : Inv w) (hcur : w.cur = .consumer)
    (hasked : w.auto.active = true → w.asked = false) (hc : Clear w .set_up) :
    Inv {w with cons := some w.oaudio} := by
  have hfresh := h.flight.consumer hcur
  have ht := h.talk
  refine ⟨h.format,h.front,h.early,h.added,⟨fun hf => (hfresh hf).elim,fun c hh => ?_,ht.done,
    ht.layout_eq,fun f hf => ?_⟩,h.convs,h.skip,h.flight,h.agree,h.once⟩
  · refine ⟨(ht.held c hh).1,(ht.held c hh).2.1,fun ha => ?_⟩
    rw [hh] at hasked
    cases (hasked rfl).symm.trans ha
  · cases hf
    exact ⟨h.settled_eq hfresh hasked,hc⟩

theorem Inv.consume (h : Inv w) (hcur : w.cur = .consumer) {f : Af} (hf : w.cons = some f) :
    Inv (Formats.take w .consumer f) := by
  refine h.take fun c hc => ?_
  have hauto : w.auto = .done := by
    cases hauto : w.auto with
    | fresh => exact (h.flight.consumer hcur hauto).elim
    | held c' => cases hc.symm.trans (h.flight.held c' hauto).1
    | done => rfl
  rw [h.flight.fmt c hc,hcur,(h.talk.cons_eq f hf).1]
  exact h.talk.done hauto

theorem inv_step (h : Inv w) {a : Act} (hc : Clear w a) (hs : step w a = some w') : Ok w' := by
  unfold step at hs
  split at hs
  · cases hs
  · split at hs
    · rename_i hcur
      split at hs
      · rename_i hdec
        obtain rfl := Option.some.inj hs
        exact .inr (h.decode hcur hdec _ _)
      · cases hs
    · obtain rfl := Option.some.inj hs
      exact fail_ok w
    · rename_i hcur
      exact h.dconv hcur hc hs
    · rename_i hcur
      exact h.danorm hcur hs
    · rename_i hcur
      exact h.autoconv hcur hs
    · rename_i hcur
      exact h.aconv hcur hc hs
    · rename_i hcur
      exact h.soxr hcur hs
    · rename_i hcur
      split at hs
      · rename_i hask
        obtain rfl := Option.some.inj hs
        exact .inr (h.request hcur hask.2 hask.1 _ _)
      · cases hs
    · rename_i hcur
      split at hs
      · rename_i hready
        obtain rfl := Option.some.inj hs
        exact .inr (h.set_up hcur hready.2 hc)
      · cases hs
    · rename_i hcur
      obtain ⟨f,hf,rfl⟩ := Option.map_eq_some_iff.mp hs
      exact .inr (h.consume hcur hf)
    · rename_i hcur
      split at hs
      · rename_i hdata
        obtain rfl := Option.some.inj hs
        exact h.back hdata (h.not_added (by simp [hcur]))
          (h.not_fresh (by simp [hcur]) (by simp [hcur])) (fun _ => rfl) fun _ _ => rfl
      · cases hs
    · obtain rfl := Option.some.inj hs
      exact .inr ⟨h.format,h.front,h.early,h.added,h.talk,h.convs,h.skip,h.flight,h.agree,h.once⟩
    · obtain rfl := Option.some.inj hs
      exact fail_ok w
    · cases hs

theorem inv_init {src : Af} (hsrc : src.format ≠ 0) (conf : Af) (danorm : Bool) :
    Inv (init src conf danorm) := by
  refine ⟨hsrc,⟨rfl,rfl,fun _ => rfl,nofun,nofun,fun fmt ho => ?_,fun hd => ?_⟩,
    fun _ => ⟨rfl,.inl rfl⟩,nofun,
    ⟨fun _ => ⟨rfl,rfl,rfl,rfl,rfl,rfl⟩,nofun,nofun,fun hne => (hne rfl).elim,nofun⟩,
    ⟨fun _ => ⟨rfl,rfl⟩,nofun,nofun,nofun,nofun,nofun,nofun,nofun⟩,nofun,
    ⟨nofun,.inl rfl,fun _ => rfl,nofun,nofun,nofun⟩,nofun,fun p => rfl⟩
  · cases danorm <;> cases ho
  · cases danorm <;> cases hd

/-- The user wants one channel, and the consumer float32 at 48kHz: the converter mixes the channels,
and the resampler does the rest. -/
def mixed : List Act :=
  [.decode 6000 false,.autoconv true,.request ⟨PHI_PCM_FLOAT32,0,48000,false⟩ (some false),.more,
    .autoconv true,.convert true,.resample true 800,.set_up,.consume,.more,.resample true 0,
    .convert true,.decode 6000 true,.convert true,.resample true 800,.consume]

/-- The same data for a consumer of interleaved float32 at 48kHz. -/
def interleaved : List Act :=
  [.decode 6000 false,.autoconv true,.request ⟨PHI_PCM_FLOAT32,2,48000,false⟩ (some true),.more,
    .autoconv true,.convert true,.resample true 800]

end Phiola.Formats
