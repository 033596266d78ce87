import Phiola.Cue.Tiling
import Phiola.Framework.Machine

/-!
# Seeking in a track of a cue sheet

The user's position is relative to the track. It is put into `audio.seek` by the UI filter and must
reach the format reader on the way back through the chain, where the cue hook adds the start of the
track; it stays there until the UI filter gets the first data after it. The chain is
reader, decoder, hook, UI, output.
-/

namespace Phiola

/-- The filter that is called next. -/
inductive SeekFilter
  | reader
  | decoder
  | hook
  | ui
  | out
  deriving DecidableEq, Repr

/-- What `audio.seek` was set for: the start of the track, or the position `p` of the user. -/
inductive SeekRequest
  | start
  | user (p : Int)
  deriving DecidableEq, Repr

/-- `seek` and `seekReq` are `audio.seek` and `audio.seek_req`, and `seekMsec` is the `seek_msec` of
the UI filter; -1 is unset. `known` says that the reader knows the sample rate, `ffwd` is PHI_FFWD and
`len` the length of the data. No fields of the source: the request that `seek` was set for, whether
the hook has added to it, the values that the reader consumed and those that a decoder saw. -/
structure SeekTrk where
  absSeekMs : Int
  seek : Int
  seekReq : Bool
  seekMsec : Int
  known : Bool
  cur : SeekFilter
  ffwd : Bool
  len : Nat
  request : Option SeekRequest
  shifted : Bool
  consumed : List (SeekRequest × Int)
  seen : List (SeekRequest × Int)
  deriving DecidableEq, Repr

namespace SeekTrk

/-- The request of `fdetcr_open()` for a track that starts at `frames`. -/
def startMsec (seekMsec frames : UInt64) : Int := seekMsec.toNat + (frames * 1000 / 75).toNat

/-- The chain is open and the reader is to be called. -/
def init (seekMsec frames : UInt64) : SeekTrk where
  absSeekMs := (cdframesToMsec frames).toNat
  seek := startMsec seekMsec frames
  seekReq := decide (startMsec seekMsec frames > 0)
  seekMsec := -1
  known := false
  cur := .reader
  ffwd := true
  len := 0
  request := some .start
  shifted := false
  consumed := []
  seen := []

/-- What `seek_req` is set for: a command that the UI filter hasn't seen yet, or what is in
`audio.seek`. -/
def pendingRequest (s : SeekTrk) : Option SeekRequest :=
  if s.seekMsec ≠ -1 then some (.user s.seekMsec) else s.request

/-- The check for a seek request in `mp3_process()` and in the other readers. -/
def readerSeek (s : SeekTrk) : SeekTrk :=
  if s.seekReq ∧ s.seek ≠ -1 ∧ s.known then
    { s with
      seekReq := false
      consumed := s.consumed ++ s.pendingRequest.toList.map (·,s.seek) }
  else s

/-- A decoder is called, and reads `audio.seek`. -/
def look (s : SeekTrk) : SeekTrk :=
  if s.seek ≠ -1 then { s with seen := s.seen ++ s.request.toList.map (·,s.seek) } else s

def back (s : SeekTrk) (f : SeekFilter) : SeekTrk := { s with cur := f, ffwd := false, len := 0 }

def forward (s : SeekTrk) (f : SeekFilter) (len : Nat) : SeekTrk :=
  { s with cur := f, ffwd := true, len := len }

/-- `cuehook_process()` -/
def cuehookProcess (s : SeekTrk) : SeekTrk :=
  if s.ffwd then s.forward .ui s.len
  else if s.seek ≠ -1 then
    { s with seek := s.seek + s.absSeekMs, shifted := true }.back .decoder
  else s.back .decoder

/-- `tuiplay_process()` -/
def tuiplayProcess (s : SeekTrk) : SeekTrk :=
  if s.seekMsec ≠ -1 then
    { s with
      seek := s.seekMsec
      seekMsec := -1
      request := some (.user s.seekMsec)
      shifted := false }.back .hook
  else if s.ffwd = false then s.back .hook
  else if s.len = 0 then s.back .hook
  else if s.seek ≠ -1 ∧ s.seekReq = false then
    { s with seek := -1, request := none, shifted := false }.forward .out s.len
  else s.forward .out s.len

/-- The user seeks to `p`; a filter is called. The reader, the decoder and the output do as they
like: `len` is the length of the data that they pass on, and `known` that the reader has found the
sample rate. -/
inductive Act
  | seek (p : Nat)
  | readMore (known : Bool)
  | read (len : Nat)
  | decodeMore
  | decode (len : Nat)
  | hook
  | ui
  | outMore
  deriving DecidableEq, Repr

def step (s : SeekTrk) : Act → Option SeekTrk
  | .seek p => some { s with seekMsec := p, seekReq := true }
  | .readMore known =>
    if s.cur = .reader then
      some ({ s with known := s.known || known }.readerSeek.forward .reader 0)
    else none
  | .read len =>
    if s.cur = .reader then some ({ s with known := true }.readerSeek.forward .decoder len) else none
  | .decodeMore => if s.cur = .decoder then some (s.look.back .reader) else none
  | .decode len => if s.cur = .decoder then some (s.look.forward .hook len) else none
  | .hook => if s.cur = .hook then some s.cuehookProcess else none
  | .ui => if s.cur = .ui then some s.tuiplayProcess else none
  | .outMore => if s.cur = .out then some (s.back .ui) else none

/-- The value that a request is to be consumed with. -/
def shiftedOnce (start abs : Int) : SeekRequest → Int
  | .start => start
  | .user p => p + abs

/-- The reader consumed each request with the start of the track added to the user's position, and
decoders saw no other value than this and the user's. -/
structure ShiftedOnce (start abs : Int) (s : SeekTrk) : Prop where
  consumed : ∀ x ∈ s.consumed, x.2 = shiftedOnce start abs x.1
  seen : ∀ x ∈ s.seen, x.2 = shiftedOnce start abs x.1 ∨ x.1 = .user x.2

/-- No pass back through the hook finds a request that was shifted before, or the one that the track
starts with; and the reader isn't called with a new command while an older request is in
`audio.seek`. -/
def Single (s : SeekTrk) : Act → Prop
  | .hook => s.ffwd = false → s.seek ≠ -1 → s.request ≠ some .start ∧ s.shifted = false
  | .readMore _ => s.seekMsec ≠ -1 → s.seek = -1
  | .read _ => s.seekMsec ≠ -1 → s.seek = -1
  | _ => True

instance (s : SeekTrk) : (a : Act) → Decidable (Single s a)
  | .hook => inferInstanceAs (Decidable (_ → _ → _))
  | .readMore _ => inferInstanceAs (Decidable (_ → _))
  | .read _ => inferInstanceAs (Decidable (_ → _))
  | .seek _ => inferInstanceAs (Decidable True)
  | .decodeMore => inferInstanceAs (Decidable True)
  | .decode _ => inferInstanceAs (Decidable True)
  | .ui => inferInstanceAs (Decidable True)
  | .outMore => inferInstanceAs (Decidable True)

/-- The request in progress: the one of the start is as it was set, one of the user is shifted
unless the hook is about to be called for it. -/
structure Inv (start abs : Int) (s : SeekTrk) : Prop where
  absSeek : s.absSeekMs = abs ∧ 0 ≤ abs
  msec : s.seekMsec = -1 ∨ 0 ≤ s.seekMsec
  unset : s.request = none → s.seek = -1
  atStart : s.request = some .start → s.seek = start
  byUser : ∀ p, s.request = some (.user p) →
    0 ≤ p ∧ s.seek = (if s.shifted then p + abs else p) ∧
      (s.shifted = false → s.cur = .hook ∧ s.ffwd = false)
  logs : ShiftedOnce start abs s

variable {start abs : Int} {s s' : SeekTrk} {a : Act}

/-- Away from the hook the value in `audio.seek` is the one that the request is consumed with. -/
theorem Inv.seek_eq (h : Inv start abs s) (hcur : s.cur ≠ .hook) {q : SeekRequest}
    (hq : s.request = some q) : s.seek = shiftedOnce start abs q := by
  cases q with
  | start => exact h.atStart hq
  | user p =>
    obtain ⟨_,hseek,hhook⟩ := h.byUser p hq
    cases hs : s.shifted with
    | false => exact absurd (hhook hs).1 hcur
    | true => simpa [hs,shiftedOnce] using hseek

theorem Inv.move (h : Inv start abs s) (hcur : s.cur ≠ .hook ∨ s.ffwd = true) (f : SeekFilter) (b : Bool)
    (n : Nat) : Inv start abs { s with cur := f, ffwd := b, len := n } := by
  refine ⟨h.absSeek,h.msec,h.unset,h.atStart,fun p hp => ?_,⟨h.logs.consumed,h.logs.seen⟩⟩
  obtain ⟨h0,hseek,hhook⟩ := h.byUser p hp
  refine ⟨h0,hseek,fun hs => ?_⟩
  obtain ⟨hc,hf⟩ := hhook hs
  rcases hcur with hcur | hcur
  · exact absurd hc hcur
  · exact absurd (hf.symm.trans hcur) Bool.false_ne_true

theorem Inv.readerSeek (h : Inv start abs s) (hcur : s.cur = .reader)
    (hc : s.seekMsec ≠ -1 → s.seek = -1) : Inv start abs s.readerSeek := by
  unfold SeekTrk.readerSeek
  split_ifs with hreq
  · have hmsec : s.seekMsec = -1 := by
      by_contra hne
      exact hreq.2.1 (hc hne)
    refine ⟨h.absSeek,h.msec,h.unset,h.atStart,h.byUser,⟨fun x hx => ?_,h.logs.seen⟩⟩
    rcases List.mem_append.mp hx with hx | hx
    · exact h.logs.consumed x hx
    · simp only [pendingRequest,hmsec,ne_eq,not_true_eq_false,if_false,List.mem_map,
        Option.mem_toList] at hx
      obtain ⟨q,hq,rfl⟩ := hx
      exact h.seek_eq (by rw [hcur]; decide) hq
  · exact h

theorem Inv.look (h : Inv start abs s) (hcur : s.cur = .decoder) : Inv start abs s.look := by
  unfold SeekTrk.look
  split_ifs
  · refine ⟨h.absSeek,h.msec,h.unset,h.atStart,h.byUser,⟨h.logs.consumed,fun x hx => ?_⟩⟩
    rcases List.mem_append.mp hx with hx | hx
    · exact h.logs.seen x hx
    · simp only [List.mem_map,Option.mem_toList] at hx
      obtain ⟨q,hq,rfl⟩ := hx
      exact .inl (h.seek_eq (by rw [hcur]; decide) hq)
  · exact h

/-- The hook shifts a request of the user that it hasn't shifted yet. -/
theorem Inv.hook (h : Inv start abs s) (hc : Single s .hook) : Inv start abs s.cuehookProcess := by
  unfold cuehookProcess
  split_ifs with hf hseek
  · exact h.move (.inr hf) .ui true s.len
  · obtain ⟨hstart,hs⟩ := hc (by simpa using hf) hseek
    refine ⟨h.absSeek,h.msec,?_,?_,fun p hp => ?_,⟨h.logs.consumed,h.logs.seen⟩⟩
    · intro hn
      exact absurd (h.unset hn) hseek
    · intro hq
      exact absurd hq hstart
    · obtain ⟨h0,hv,_⟩ := h.byUser p hp
      rw [if_neg (by simp [hs])] at hv
      refine ⟨h0,?_,fun ht => by cases ht⟩
      show s.seek + s.absSeekMs = p + abs
      rw [hv,h.absSeek.1]
  · refine ⟨h.absSeek,h.msec,h.unset,h.atStart,fun p hp => ?_,⟨h.logs.consumed,h.logs.seen⟩⟩
    obtain ⟨h0,hv,_⟩ := h.byUser p hp
    have habs := h.absSeek.2
    have hne : s.seek ≠ -1 := by
      rw [hv]
      split_ifs <;> omega
    exact absurd hne hseek

theorem Inv.ui (h : Inv start abs s) (hcur : s.cur = .ui) : Inv start abs s.tuiplayProcess := by
  have hne : s.cur ≠ .hook := by rw [hcur]; decide
  unfold tuiplayProcess
  split_ifs with hm hf hl hd
  · refine ⟨h.absSeek,.inl rfl,fun hq => by (cases hq),fun hq => by (cases hq),fun p hp => ?_,
      ⟨h.logs.consumed,h.logs.seen⟩⟩
    cases hp
    exact ⟨h.msec.resolve_left hm,rfl,fun _ => ⟨rfl,rfl⟩⟩
  · exact h.move (.inl hne) .hook false 0
  · exact h.move (.inl hne) .hook false 0
  · exact ⟨h.absSeek,h.msec,fun _ => rfl,fun hq => by (cases hq),fun p hp => by (cases hp),
      ⟨h.logs.consumed,h.logs.seen⟩⟩
  · exact h.move (.inl hne) .out true s.len

theorem readerSeek_cur (s : SeekTrk) : s.readerSeek.cur = s.cur := by
  unfold readerSeek
  split_ifs <;> rfl

theorem look_cur (s : SeekTrk) : s.look.cur = s.cur := by
  unfold look
  split_ifs <;> rfl

theorem Inv.read (h : Inv start abs s) (hcur : s.cur = .reader) (hc : s.seekMsec ≠ -1 → s.seek = -1)
    (known : Bool) (f : SeekFilter) (n : Nat) :
    Inv start abs ({ s with known := known }.readerSeek.forward f n) := by
  have hk : Inv start abs { s with known := known } :=
    ⟨h.absSeek,h.msec,h.unset,h.atStart,h.byUser,⟨h.logs.consumed,h.logs.seen⟩⟩
  refine (hk.readerSeek hcur hc).move (.inl ?_) f true n
  rw [readerSeek_cur,hcur]
  decide

theorem Inv.decode (h : Inv start abs s) (hcur : s.cur = .decoder) (f : SeekFilter) (b : Bool)
    (n : Nat) : Inv start abs { s.look with cur := f, ffwd := b, len := n } := by
  refine (h.look hcur).move (.inl ?_) f b n
  rw [look_cur,hcur]
  decide

theorem Inv.step (h : Inv start abs s) (hc : Single s a) (hstep : s.step a = some s') :
    Inv start abs s' := by
  cases a with
  | seek p =>
    cases hstep
    exact ⟨h.absSeek,.inr (Int.natCast_nonneg p),h.unset,h.atStart,h.byUser,
      ⟨h.logs.consumed,h.logs.seen⟩⟩
  | readMore known =>
    obtain ⟨hcur,⟨⟩⟩ := Option.ite_none_right_eq_some.mp hstep
    exact h.read hcur hc _ _ _
  | read len =>
    obtain ⟨hcur,⟨⟩⟩ := Option.ite_none_right_eq_some.mp hstep
    exact h.read hcur hc _ _ _
  | decodeMore =>
    obtain ⟨hcur,⟨⟩⟩ := Option.ite_none_right_eq_some.mp hstep
    exact h.decode hcur .reader false 0
  | decode len =>
    obtain ⟨hcur,⟨⟩⟩ := Option.ite_none_right_eq_some.mp hstep
    exact h.decode hcur .hook true len
  | hook =>
    obtain ⟨hcur,⟨⟩⟩ := Option.ite_none_right_eq_some.mp hstep
    exact h.hook hc
  | ui =>
    obtain ⟨hcur,⟨⟩⟩ := Option.ite_none_right_eq_some.mp hstep
    exact h.ui hcur
  | outMore =>
    obtain ⟨hcur,⟨⟩⟩ := Option.ite_none_right_eq_some.mp hstep
    exact h.move (.inl (by rw [hcur]; decide)) .ui false 0

/-- As long as only one request is in progress and the hook is passed back once for it, the reader
gets the user's position with the start of the track added, and the request of the start as it was
set. -/
theorem seek_shifted_once (seekMsec frames : UInt64)
    {as : List Act} (hrun : Machine.run SeekTrk.step (init seekMsec frames) as = some s)
    (hc : Machine.AllSteps SeekTrk.step Single (init seekMsec frames) as) :
    ShiftedOnce (startMsec seekMsec frames) (cdframesToMsec frames).toNat s := by
  have hinit : Inv (startMsec seekMsec frames) (cdframesToMsec frames).toNat
      (init seekMsec frames) := by
    refine ⟨⟨rfl,Int.natCast_nonneg _⟩,.inl rfl,fun h => by (cases h),fun _ => rfl,
      fun p hp => by (cases hp),⟨?_,?_⟩⟩
    · simp [init]
    · simp [init]
  exact (Machine.guarded_invariant (fun _ _ _ hi hc hs => hi.step hc hs) hc hrun hinit).logs

/-- A track that starts at 10 s; the user seeks to 5 s and the reader gets 15 s. -/
def seekOnce : List Act :=
  [.read 100,.decode 100,.hook,.ui,.seek 5000,.outMore,.ui,.hook,.decodeMore,.read 100,.decode 100,
    .hook,.ui]

def soughtOnce : SeekTrk := (Machine.run SeekTrk.step (init 0 750) seekOnce).getD (init 0 750)

theorem seek_shifted_once_10s :
    soughtOnce.consumed = [(.start, 10000),(.user 5000, 15000)] ∧
      ShiftedOnce (startMsec 0 750) (cdframesToMsec 750).toNat soughtOnce :=
  ⟨by decide +kernel,
    seek_shifted_once 0 750 (Machine.run_eq_getD (by decide +kernel)) (by decide +kernel)⟩

/-- The decoder passes on an empty chunk when it sees a new request, as the mp3 decoder does, and the
UI filter goes back once more. -/
def seekTwice : List Act :=
  [.read 100,.decode 100,.hook,.ui,.seek 5000,.outMore,.ui,.hook,.decode 0,.hook,.ui,.hook,
    .decodeMore,.read 100]

def soughtTwice : SeekTrk := (Machine.run SeekTrk.step (init 0 750) seekTwice).getD (init 0 750)

/-- The reader gets 25 s instead of 15 s. -/
theorem seek_shifted_twice :
    Machine.run SeekTrk.step (init 0 750) seekTwice = some soughtTwice ∧
      soughtTwice.consumed = [(.start, 10000),(.user 5000, 25000)] ∧
      ¬ ShiftedOnce (startMsec 0 750) (cdframesToMsec 750).toNat soughtTwice := by
  refine ⟨Machine.run_eq_getD (by decide +kernel),by decide +kernel,fun h => ?_⟩
  have hx := h.consumed (.user 5000, 25000) (by decide +kernel)
  exact absurd hx (by decide +kernel)

end SeekTrk

end Phiola
