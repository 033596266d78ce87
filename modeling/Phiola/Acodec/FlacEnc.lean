import Phiola.Afilter.Pcm
import Phiola.Track.Feed

/-!
# Feeding the FLAC encoder

`ffflac_encode()` gathers samples in a buffer, one more for the first block than for the others, because
libFLAC keeps one sample until the stream is finished.
-/

namespace Phiola.FlacEnc

open Feed (Call)

/-- A sample of all channels in the input format, and in 32 bits. -/
abbrev Raw := List Pcm.Bytes
abbrev Sample := List Int

/-- `pcm_to32()` -/
def pcm_to32 : Nat → Option (Pcm.Bytes → Int)
  | 8 => some (Pcm.get 1)
  | 16 => some (Pcm.get 2)
  | 24 => some Pcm.int_ltoh24s
  | _ => none

/-! ## libFLAC -/

/-- The bundled encoder: the samples it keeps; all that it was given, and how often it was finished. -/
structure Flac where
  kept : List Sample
  passed : List Sample
  finished : Nat

/-- `flac_encode()`: the encoder, the frame if there is one, and the number of samples. -/
def flac_encode (blocksize : Nat) (e : Flac) (xs : List Sample) : Flac × Option (List Sample) × Nat :=
  if xs = [] then
    (⟨[],e.passed,e.finished + 1⟩,if e.kept = [] then none else some e.kept,e.kept.length)
  else
    let ys := xs.take (blocksize + 1 - e.kept.length)
    let gathered := e.kept ++ ys
    if gathered.length = blocksize + 1 then
      (⟨gathered.drop blocksize,e.passed ++ ys,e.finished⟩,some (gathered.take blocksize),ys.length)
    else (⟨gathered,e.passed ++ ys,e.finished⟩,none,ys.length)

/-! ## The bridge -/

inductive State
  | frames
  | done
deriving DecidableEq

/-- `ffflac_enc`; `pcm32` is what the buffer holds, `off_pcm32` samples. -/
structure Enc where
  state : State
  flac : Flac
  pcm : List Raw
  off_pcm : Nat
  pcm32 : List Sample
  cap_pcm32 : Nat
  fin : Bool

/-- What `ffflac_encode()` returns: a frame is given with its samples and the number reported for it. -/
inductive Res
  | more
  | data (frame : List Sample) (frsamps : Nat)
  | done

/-- The end of `ffflac_encode()`, from the call of `flac_encode()` on. There is no result where an
assertion fails. -/
def encode_block (minblock : Nat) (f : Enc) : Option (Enc × Res) := do
  let (flac,frame,samples) := flac_encode minblock f.flac f.pcm32
  let f := {f with flac := flac, pcm32 := []}
  let (f,frame,samples,blksize) :=
    if frame = none ∧ f.fin then
      let (flac,frame,samples) := flac_encode minblock f.flac []
      ({f with flac := flac, state := .done},frame,samples,samples)
    else (f,frame,samples,minblock)
  let frame ← frame
  if samples = f.cap_pcm32 ∨ f.fin then
    let f := if f.cap_pcm32 = minblock + 1 then {f with cap_pcm32 := minblock} else f
    some (f,.data frame blksize)
  else none

/-- `ffflac_encode()`, once its buffer is allocated. -/
def ffflac_encode (minblock : Nat) (to32 : Pcm.Bytes → Int) (f : Enc) : Option (Enc × Res) :=
  match f.state with
  | .done => some (f,.done)
  | .frames =>
    let samples := min (f.pcm.length - f.off_pcm) (f.cap_pcm32 - f.pcm32.length)
    if samples = 0 ∧ ¬f.fin then some ({f with off_pcm := 0},.more)
    else
      let f := if samples = 0 then f else {f with
        off_pcm := f.off_pcm + samples
        pcm32 := f.pcm32 ++ ((f.pcm.drop f.off_pcm).take samples).map (List.map to32)}
      if samples ≠ 0 ∧ ¬(f.pcm32.length = f.cap_pcm32 ∨ f.fin) then some ({f with off_pcm := 0},.more)
      else encode_block minblock f

/-! ## The filter -/

/-- `struct flac_enc`; `info` says that the format has been passed on. -/
structure Filter where
  info : Bool
  fl : Enc

/-- What is passed on: the stream's information first and at the end. -/
inductive Out
  | info
  | nothing
  | frame (samples : List Sample) (frsamps : Nat)
  | fin_info

/-- `flac_enc_encode()`, once the format is planar and supported. -/
def flac_enc_encode (minblock : Nat) (to32 : Pcm.Bytes → Int) :
    Feed.Process Filter (List Raw) Out := fun f c => do
  let fl := if c.fwd then {f.fl with pcm := c.data.getD [], fin := f.fl.fin || c.first} else f.fl
  if f.info then
    let (fl,r) ← ffflac_encode minblock to32 fl
    match r with
    | .more => some (⟨true,fl⟩,.more,.nothing)
    | .data frame n => some (⟨true,fl⟩,.data,.frame frame n)
    | .done => some (⟨true,fl⟩,.done,.fin_info)
  else some (⟨true,fl⟩,.data,.info)

/-- The filter before its first region. -/
def init (minblock : Nat) : Filter := ⟨false,.frames,⟨[],[],0⟩,[],0,[],minblock + 1,false⟩

/-! ## What is fed -/

variable {mb : Nat} {to32 : Pcm.Bytes → Int}

/-- The samples of regions as the encoder gets them. -/
def fed (to32 : Pcm.Bytes → Int) (given : List (List Raw)) : List Sample :=
  given.flatten.map (List.map to32)

/-- The frames that are passed on, with the numbers reported for them. -/
def frames (os : List Out) : List (List Sample × Nat) :=
  os.filterMap fun
    | .frame xs n => some (xs,n)
    | _ => none

/-- The samples of the region that are not in the buffer yet. -/
def Enc.rest (to32 : Pcm.Bytes → Int) (f : Enc) : List Sample := (f.pcm.drop f.off_pcm).map (List.map to32)

/-- Every sample is passed once and in order, the stream is finished once, and the frames hold all samples,
each frame as many as reported. -/
structure Fed (to32 : Pcm.Bytes → Int) (given : List (List Raw)) (e : Flac) (os : List Out) : Prop where
  passed : e.passed = fed to32 given
  finished : e.finished = 1
  frames : (frames os).flatMap Prod.fst = fed to32 given
  numbers : ∀ x ∈ FlacEnc.frames os, x.2 = x.1.length

/-- The number of samples does not end a block after the encoder has kept a sample. -/
def Ends (mb n : Nat) : Prop := n = 1 ∨ ¬mb ∣ n - 1

instance (mb n : Nat) : Decidable (Ends mb n) := inferInstanceAs (Decidable (_ ∨ _))

/-- The invariant while samples are gathered, when `rest` is to come of the given regions. -/
structure Core (mb : Nat) (to32 : Pcm.Bytes → Int) (given : List (List Raw)) (rest : List Sample) (f : Enc)
    (os : List Out) : Prop where
  state : f.state = .frames
  finished : f.flac.finished = 0
  all : f.flac.passed ++ f.pcm32 ++ rest = fed to32 given
  frames : (frames os).flatMap Prod.fst ++ f.flac.kept = f.flac.passed
  numbers : ∀ x ∈ FlacEnc.frames os, x.2 = x.1.length
  blocks : ∃ k, f.flac.passed.length = k * mb + f.flac.kept.length ∧
    f.flac.kept.length = if k = 0 then 0 else 1
  cap : f.flac.kept.length + f.cap_pcm32 = mb + 1
  room : f.pcm32.length < f.cap_pcm32

/-- The stream was finished by a call that was to pass samples. -/
structure Doomed (mb : Nat) (to32 : Pcm.Bytes → Int) (given : List (List Raw)) (f : Enc) : Prop where
  state : f.state = .frames
  fin : f.fin = true
  kept : f.flac.kept = []
  pcm32 : f.pcm32 = []
  rest : f.pcm.length ≤ f.off_pcm
  ends : ¬Ends mb (fed to32 given).length

theorem frames_snoc (os : List Out) (xs : List Sample) (n : Nat) :
    frames (os ++ [Out.frame xs n]) = frames os ++ [(xs,n)] := by simp [frames]

theorem frames_quiet {os : List Out} {o : Out} (h : ∀ xs n, o ≠ .frame xs n) :
    frames (os ++ [o]) = frames os := by
  cases o with
  | frame xs n => exact absurd rfl (h xs n)
  | _ => simp [frames]

theorem flac_encode_full {e : Flac} {xs : List Sample} (hxs : xs ≠ [])
    (h : e.kept.length + xs.length = mb + 1) : flac_encode mb e xs =
      (⟨(e.kept ++ xs).drop mb,e.passed ++ xs,e.finished⟩,some ((e.kept ++ xs).take mb),xs.length) := by
  have htake : xs.take (mb + 1 - e.kept.length) = xs := List.take_of_length_le (by omega)
  rw [flac_encode,if_neg hxs,htake]
  exact if_pos (by rw [List.length_append,h])

theorem flac_encode_part {e : Flac} {xs : List Sample} (hxs : xs ≠ [])
    (h : e.kept.length + xs.length < mb + 1) : flac_encode mb e xs =
      (⟨e.kept ++ xs,e.passed ++ xs,e.finished⟩,none,xs.length) := by
  have htake : xs.take (mb + 1 - e.kept.length) = xs := List.take_of_length_le (by omega)
  rw [flac_encode,if_neg hxs,htake]
  exact if_neg (by rw [List.length_append]; omega)

theorem flac_encode_finish (e : Flac) : flac_encode mb e [] =
    (⟨[],e.passed,e.finished + 1⟩,if e.kept = [] then none else some e.kept,e.kept.length) := if_pos rfl

/-- What is left to do when the filter is called again. -/
def left (f : Enc) : Nat :=
  2 * (f.pcm.length - f.off_pcm) + f.flac.kept.length + if f.state = .done then 0 else 1

/-- How a call of the bridge leaves the invariant, if it returns data. -/
inductive Next (mb : Nat) (to32 : Pcm.Bytes → Int) (given : List (List Raw)) (os : List Out) (fin : Bool)
    (f : Enc) : Prop
  | core (h : Core mb to32 given (f.rest to32) f os) (hfin : f.fin = fin)
  | finished (h : Fed to32 given f.flac os) (hstate : f.state = .done) (hlast : fin = true)
      (hends : Ends mb (fed to32 given).length)
  | doomed (h : Doomed mb to32 given f) (hlast : fin = true)

variable {given : List (List Raw)} {rest : List Sample} {f : Enc} {os : List Out}

theorem encode_block_full (hmb : 1 ≤ mb) (h : Core mb to32 given rest {f with pcm32 := []} os)
    {xs : List Sample} (hxs : xs.length = f.cap_pcm32) :
    ∃ f' frame, encode_block mb {f with pcm32 := xs} = some (f',.data frame mb) ∧
      f' = {f with flac := f'.flac, pcm32 := [], cap_pcm32 := mb} ∧ f'.flac.kept.length = 1 ∧
      ∀ rest', xs ++ rest' = rest → Core mb to32 given rest' f' (os ++ [Out.frame frame mb]) := by
  obtain ⟨hstate,hfinished,hall,hframes,hnum,⟨k,hk,hkept⟩,hcap,hroom⟩ := h
  dsimp only at *
  have hlen : f.flac.kept.length + xs.length = mb + 1 := by omega
  have hne : xs ≠ [] := fun hnil => by
    rw [hnil] at hlen
    have : f.flac.kept.length ≤ 1 := by rw [hkept]; split <;> omega
    simp only [List.length_nil] at hlen
    omega
  have hgath : (f.flac.kept ++ xs).length = mb + 1 := by rw [List.length_append,hlen]
  refine ⟨{f with
    flac := ⟨(f.flac.kept ++ xs).drop mb,f.flac.passed ++ xs,f.flac.finished⟩
    pcm32 := []
    cap_pcm32 := mb},(f.flac.kept ++ xs).take mb,?_,rfl,?_,fun rest' hrest => ?_⟩
  · unfold encode_block
    dsimp only
    rw [flac_encode_full hne hlen]
    dsimp only
    rw [if_neg nofun]
    dsimp only [Option.bind_eq_bind,Option.bind_some]
    rw [if_pos (.inl hxs)]
    have hcap' : f.cap_pcm32 = mb + 1 ∨ f.cap_pcm32 = mb := by
      rw [hkept] at hcap
      split at hcap <;> omega
    rcases hcap' with hc | hc
    · rw [if_pos hc]
    · rw [if_neg (by omega)]
      simp [hc]
  · simp [hgath]
  · refine ⟨hstate,hfinished,?_,?_,?_,⟨k + 1,?_,?_⟩,?_,?_⟩
    · simpa [hrest] using hall
    · rw [frames_snoc]
      simp only [List.flatMap_append,List.flatMap_cons,List.flatMap_nil,List.append_nil]
      rw [List.append_assoc,List.take_append_drop,← List.append_assoc,hframes]
    · rw [frames_snoc]
      intro x hx
      rcases List.mem_append.mp hx with hx | hx
      · exact hnum x hx
      · obtain rfl := List.mem_singleton.mp hx
        simp only [List.length_take,hgath]
        omega
    · simp only [List.length_append,List.length_drop,hk]
      rw [Nat.succ_mul]
      omega
    · simp only [List.length_drop,hgath,Nat.succ_ne_zero,if_false]
      omega
    · simp only [List.length_drop,hgath]
      omega
    · exact hmb

/-- The last block: its samples are passed, and the stream is finished. -/
theorem encode_block_finish (h : Core mb to32 given [] f os) (hfin : f.fin = true)
    (hpcm : f.pcm32 ≠ []) :
    ∃ f' frame n, encode_block mb f = some (f',.data frame n) ∧
      Fed to32 given f'.flac (os ++ [Out.frame frame n]) ∧ f'.flac.kept = [] ∧ f'.state = .done ∧
      f'.pcm = f.pcm ∧ f'.off_pcm = f.off_pcm ∧ Ends mb (fed to32 given).length := by
  obtain ⟨hstate,hfinished,hall,hframes,hnum,⟨k,hk,hkept⟩,hcap,hroom⟩ := h
  have hpos := List.length_pos_iff.mpr hpcm
  have hgath : f.flac.kept ++ f.pcm32 ≠ [] := by simp [hpcm]
  rw [List.append_nil] at hall
  have hN : (fed to32 given).length = k * mb + f.flac.kept.length + f.pcm32.length := by
    rw [← hall,List.length_append,hk]
  refine ⟨{f with
    flac := ⟨[],f.flac.passed ++ f.pcm32,f.flac.finished + 1⟩
    pcm32 := []
    state := .done
    cap_pcm32 := if f.cap_pcm32 = mb + 1 then mb else f.cap_pcm32},f.flac.kept ++ f.pcm32,
    (f.flac.kept ++ f.pcm32).length,?_,⟨hall,by simp [hfinished],?_,?_⟩,rfl,rfl,rfl,rfl,?_⟩
  · unfold encode_block
    dsimp only
    rw [flac_encode_part hpcm (by omega)]
    dsimp only
    rw [if_pos ⟨rfl,hfin⟩,flac_encode_finish]
    dsimp only [Option.bind_eq_bind]
    rw [if_neg hgath]
    dsimp only [Option.bind_some]
    rw [if_pos (.inr hfin)]
    split <;> rfl
  · rw [frames_snoc]
    simp only [List.flatMap_append,List.flatMap_cons,List.flatMap_nil,List.append_nil]
    rw [← List.append_assoc,hframes,hall]
  · rw [frames_snoc]
    intro x hx
    rcases List.mem_append.mp hx with hx | hx
    · exact hnum x hx
    · obtain rfl := List.mem_singleton.mp hx
      rfl
  · rw [Ends,hN]
    rcases Nat.eq_zero_or_pos k with rfl | hpos'
    · rw [if_pos rfl] at hkept
      by_cases h1 : f.pcm32.length = 1
      · exact .inl (by omega)
      · refine .inr fun hdvd => ?_
        have := Nat.le_of_dvd (by omega) hdvd
        omega
    · rw [if_neg (by omega)] at hkept
      refine .inr fun hdvd => ?_
      have heq : k * mb + f.flac.kept.length + f.pcm32.length - 1 = k * mb + f.pcm32.length := by omega
      rw [heq,Nat.dvd_add_right (Nat.dvd_mul_left mb k)] at hdvd
      have := Nat.le_of_dvd hpos hdvd
      omega

/-- Where no sample is in the buffer at the end, the stream is finished by the call that was to pass
samples, and the state stays. -/
theorem encode_block_empty (hmb : 1 ≤ mb) (h : Core mb to32 given [] f os) (hfin : f.fin = true)
    (hpcm : f.pcm32 = []) (hrest : f.pcm.length ≤ f.off_pcm) (hN : fed to32 given ≠ []) :
    ∃ f' frame, encode_block mb f = some (f',.data frame mb) ∧ Doomed mb to32 given f' ∧
      left f' < left f := by
  obtain ⟨hstate,hfinished,hall,hframes,hnum,⟨k,hk,hkept⟩,hcap,hroom⟩ := h
  rw [hpcm,List.append_nil,List.append_nil] at hall
  have hlen := List.length_pos_iff.mpr hN
  rw [← hall] at hlen
  have hk0 : k ≠ 0 := by
    rintro rfl
    rw [if_pos rfl] at hkept
    omega
  rw [if_neg hk0] at hkept
  have hne : f.flac.kept ≠ [] := fun hnil => by simp [hnil] at hkept
  refine ⟨{f with
    flac := ⟨[],f.flac.passed,f.flac.finished + 1⟩
    pcm32 := []
    cap_pcm32 := if f.cap_pcm32 = mb + 1 then mb else f.cap_pcm32},f.flac.kept,?_,
    ⟨hstate,hfin,rfl,rfl,hrest,?_⟩,?_⟩
  · unfold encode_block
    dsimp only
    rw [hpcm,flac_encode_finish]
    dsimp only
    rw [if_neg hne,if_neg (fun h => nomatch h.1)]
    dsimp only [Option.bind_eq_bind,Option.bind_some]
    rw [if_pos (.inr hfin)]
    split <;> rfl
  · rw [← hall,hk,hkept,Ends]
    rintro (h1 | h1)
    · have : 1 ≤ k * mb := Nat.mul_pos (by omega) hmb
      omega
    · exact h1 (by simp)
  · simp only [left,hstate,hkept,List.length_nil]
    omega

theorem encode_doomed (h : Doomed mb to32 given f) : ffflac_encode mb to32 f = none := by
  obtain ⟨hstate,hfin,hkept,hpcm,hrest,_⟩ := h
  have hzero : f.pcm.length - f.off_pcm = 0 := by omega
  unfold ffflac_encode
  rw [hstate]
  simp only [hzero,Nat.zero_min,hfin,not_true_eq_false,and_false,if_false,if_true,ne_eq,
    not_true_eq_false,false_and]
  unfold encode_block
  simp [hpcm,hfin,flac_encode_finish,hkept]

theorem encode_core (hmb : 1 ≤ mb) (h : Core mb to32 given (f.rest to32) f os) :
    (f.fin = false ∧ ∃ f', ffflac_encode mb to32 f = some (f',.more) ∧ Core mb to32 given [] f' os ∧
      f'.fin = false ∧ f'.off_pcm = 0) ∨
    (∃ f' frame n, ffflac_encode mb to32 f = some (f',.data frame n) ∧ left f' < left f ∧
      Next mb to32 given (os ++ [Out.frame frame n]) f.fin f') ∨
    (f.fin = true ∧ fed to32 given = [] ∧ ffflac_encode mb to32 f = none) := by
  have hstate := h.state
  have hroom := h.room
  by_cases hsamples : min (f.pcm.length - f.off_pcm) (f.cap_pcm32 - f.pcm32.length) = 0
  · have hlen : f.pcm.length ≤ f.off_pcm := by omega
    have hrest : f.rest to32 = [] := by simp [Enc.rest,List.drop_eq_nil_of_le hlen]
    rw [hrest] at h
    cases hfin : f.fin with
    | false =>
      refine .inl ⟨rfl,{f with off_pcm := 0},?_,⟨h.1,h.2,h.3,h.4,h.5,h.6,h.7,h.8⟩,hfin,rfl⟩
      unfold ffflac_encode
      simp [hstate,hsamples,hfin]
    | true =>
      have heq : ffflac_encode mb to32 f = encode_block mb f := by
        unfold ffflac_encode
        simp [hstate,hsamples,hfin]
      rw [heq]
      by_cases hpcm : f.pcm32 = []
      · by_cases hN : fed to32 given = []
        · refine .inr (.inr ⟨rfl,hN,?_⟩)
          have hkept : f.flac.kept = [] := by
            have hall := h.all
            rw [hN] at hall
            have hframes := h.frames
            simp only [List.append_eq_nil_iff] at hall
            rw [hall.1.1] at hframes
            exact (List.append_eq_nil_iff.mp hframes).2
          unfold encode_block
          simp [hpcm,hfin,flac_encode_finish,hkept]
        · obtain ⟨f',frame,hf',hdoomed,hless⟩ := encode_block_empty hmb h hfin hpcm hlen hN
          exact .inr (.inl ⟨f',frame,mb,hf',hless,.doomed hdoomed rfl⟩)
      · obtain ⟨f',frame,n,hf',hfed,hkept,hdone,hp,ho,hends⟩ := encode_block_finish h hfin hpcm
        refine .inr (.inl ⟨f',frame,n,hf',?_,.finished hfed hdone rfl hends⟩)
        simp only [left,hp,ho,hkept,hdone,hstate]
        simp only [List.length_nil,reduceCtorEq,if_true,if_false]
        omega
  · -- the samples that are put into the buffer
    generalize hn : min (f.pcm.length - f.off_pcm) (f.cap_pcm32 - f.pcm32.length) = n at hsamples
    have hsplit : ((f.pcm.drop f.off_pcm).take n).map (List.map to32) ++
        Enc.rest to32 {f with off_pcm := f.off_pcm + n} = f.rest to32 := by
      rw [Enc.rest,Enc.rest,← List.map_append,← List.drop_drop,List.take_append_drop]
    generalize hxs : ((f.pcm.drop f.off_pcm).take n).map (List.map to32) = xs at hsplit
    have hlen : xs.length = n := by
      rw [← hxs,List.length_map,List.length_take,List.length_drop]
      omega
    have hall := h.all
    by_cases hfull : (f.pcm32 ++ xs).length = f.cap_pcm32
    · have hempty : Core mb to32 given (f.pcm32 ++ f.rest to32) {f with off_pcm := f.off_pcm + n, pcm32 := []} os :=
        ⟨hstate,h.finished,by simpa using hall,h.frames,h.numbers,h.blocks,h.cap,
          Nat.lt_of_le_of_lt (Nat.zero_le _) hroom⟩
      obtain ⟨f',frame,hf',heq,hkept,hcore⟩ :=
        encode_block_full (f := {f with off_pcm := f.off_pcm + n}) hmb hempty hfull
      refine .inr (.inl ⟨f',frame,mb,?_,?_,?_⟩)
      · unfold ffflac_encode
        simp only [hstate,hn,hsamples,hxs,hfull,true_or,false_and,if_false,not_true_eq_false,
          and_false]
        simpa only [hstate] using hf'
      · rw [heq]
        simp only [left,hstate,hkept]
        simp only [reduceCtorEq,if_false]
        omega
      · refine .core ?_ (by rw [heq])
        refine hcore _ ?_
        rw [List.append_assoc,← hsplit,heq]
        rfl
    · have hnlt : n < f.cap_pcm32 - f.pcm32.length := by
        rw [List.length_append] at hfull
        omega
      have hrest : Enc.rest to32 {f with off_pcm := f.off_pcm + n} = [] := by
        rw [Enc.rest,List.drop_eq_nil_of_le (by dsimp only; omega)]
        rfl
      rw [hrest,List.append_nil] at hsplit
      -- all samples of the region are in the buffer, which is not full
      have hcore (f' : Enc) (hf' : f' = {f with off_pcm := f'.off_pcm, pcm32 := f.pcm32 ++ xs}) :
          Core mb to32 given [] f' os := by
        rw [hf']
        refine ⟨hstate,h.finished,?_,h.frames,h.numbers,h.blocks,h.cap,?_⟩
        · simpa [hsplit] using hall
        · rw [List.length_append] at hfull ⊢
          dsimp only
          omega
      cases hfin : f.fin with
      | false =>
        refine .inl ⟨rfl,{f with off_pcm := 0, pcm32 := f.pcm32 ++ xs},?_,hcore _ rfl,hfin,rfl⟩
        unfold ffflac_encode
        simp only [hstate,hn,hsamples,hxs,hfull,hfin,if_false,false_and,ne_eq,not_false_eq_true,
          Bool.false_eq_true,or_self,and_self,if_true]
      | true =>
        obtain ⟨f',frame,m,hf',hfed,hkept,hdone,hp,ho,hends⟩ := encode_block_finish
          (hcore {f with off_pcm := f.off_pcm + n, pcm32 := f.pcm32 ++ xs} rfl) hfin
          (fun hnil => hsamples (by simp [← hlen,(List.append_eq_nil_iff.mp hnil).2]))
        refine .inr (.inl ⟨f',frame,m,?_,?_,.finished hfed hdone rfl hends⟩)
        · unfold ffflac_encode
          simp only [hstate,hn,hsamples,hxs,hfin,if_false,or_true,not_true_eq_false,and_false]
          simpa only [hstate,hfin] using hf'
        · simp only [left,hp,ho,hkept,hdone,hstate]
          simp only [List.length_nil,reduceCtorEq,if_true,if_false]
          omega

/-! ## The whole run -/

theorem fed_snoc (to32 : Pcm.Bytes → Int) (given : List (List Raw)) (d : List Raw) :
    fed to32 (given ++ [d]) = fed to32 given ++ d.map (List.map to32) := by simp [fed]

theorem core_congr {os' : List Out} (h : Core mb to32 given rest f os) (hos : frames os' = frames os) :
    Core mb to32 given rest f os' :=
  ⟨h.state,h.finished,h.all,hos ▸ h.frames,hos ▸ h.numbers,h.blocks,h.cap,h.room⟩

def Idle (mb : Nat) (to32 : Pcm.Bytes → Int) (given : List (List Raw)) (s : Filter) (os : List Out) : Prop :=
  (s.info = true ∨ given = []) ∧ s.fl.fin = false ∧ s.fl.off_pcm = 0 ∧ Core mb to32 given [] s.fl os

def Busy (mb : Nat) (to32 : Pcm.Bytes → Int) (given : List (List Raw)) (first : Bool) (s : Filter)
    (os : List Out) : Prop :=
  s.info = true ∧ Next mb to32 given os first s.fl

def Over (mb : Nat) (to32 : Pcm.Bytes → Int) (given : List (List Raw)) (first : Bool) (s : Filter)
    (os : List Out) : Prop :=
  first = true ∧ Fed to32 given s.fl.flac os ∧ os.getLast? = some .fin_info ∧
    Ends mb (fed to32 given).length

/-- How a call ends that the bridge answers. -/
abbrev Step (mb : Nat) (to32 : Pcm.Bytes → Int) (given : List (List Raw)) (first : Bool) :=
  Feed.Ends (Idle mb to32 given) (Busy mb to32 given first) (Over mb to32 given first)
    (fun s => left s.fl) first

theorem filter_core (hmb : 1 ≤ mb) {s : Filter} {c : Call (List Raw)} (hinfo : s.info = true)
    (hf : f = if c.fwd then {s.fl with pcm := c.data.getD [], fin := s.fl.fin || c.first} else s.fl)
    (h : Core mb to32 given (f.rest to32) f os) :
    (∃ x, flac_enc_encode mb to32 s c = some x ∧ Step mb to32 given f.fin os (left f) x) ∨
      f.fin = true ∧ fed to32 given = [] ∧ flac_enc_encode mb to32 s c = none := by
  unfold flac_enc_encode
  rw [← hf,hinfo]
  rcases encode_core hmb h with ⟨hfin,f',hf',hcore,hfin',hoff⟩ | ⟨f',frame,n,hf',hless,hnext⟩ |
    ⟨hfin,hN,hf'⟩
  · refine .inl ⟨(⟨true,f'⟩,.more,.nothing),by simp [hf'],.more hfin ⟨.inl rfl,hfin',hoff,?_⟩⟩
    exact core_congr hcore (frames_quiet (by nofun))
  · exact .inl ⟨(⟨true,f'⟩,.data,.frame frame n),by simp [hf'],.data ⟨rfl,hnext⟩ hless⟩
  · exact .inr ⟨hfin,hN,by simp [hf']⟩

theorem filter_busy (hmb : 1 ≤ mb) {s : Filter} {first : Bool} (h : Busy mb to32 given first s os) :
    (∃ x, flac_enc_encode mb to32 s ⟨false,first,none⟩ = some x ∧
      Step mb to32 given first os (left s.fl) x) ∨
      (first = true ∧ (fed to32 given = [] ∨ ¬Ends mb (fed to32 given).length)) ∧
        flac_enc_encode mb to32 s ⟨false,first,none⟩ = none := by
  obtain ⟨hinfo,hnext⟩ := h
  cases hnext with
  | core hcore hfin =>
    have h := filter_core hmb (f := s.fl) (c := ⟨false,first,none⟩) hinfo rfl hcore
    rw [hfin] at h
    exact h.imp_right fun h => ⟨⟨h.1,.inl h.2.1⟩,h.2.2⟩
  | finished hfed hstate hlast hends =>
    have hframes : frames (os ++ [Out.fin_info]) = frames os := frames_quiet (by nofun)
    refine .inl ⟨(s,.done,.fin_info),?_,.done ⟨hlast,?_,by simp,hends⟩⟩
    · unfold flac_enc_encode ffflac_encode
      simp [hinfo,hstate]
      rw [← hinfo]
    · exact ⟨hfed.passed,hfed.finished,hframes ▸ hfed.frames,hframes ▸ hfed.numbers⟩
  | doomed hdoomed hlast =>
    refine .inr ⟨⟨hlast,.inr hdoomed.ends⟩,?_⟩
    unfold flac_enc_encode
    simp [hinfo,encode_doomed hdoomed]

theorem filter_idle (hmb : 1 ≤ mb) {s : Filter} {d : List Raw} {first : Bool}
    (h : Idle mb to32 given s os) :
    (∃ x bound, flac_enc_encode mb to32 s ⟨true,first,some d⟩ = some x ∧
      Step mb to32 (given ++ [d]) first os bound x) ∨
      first = true ∧ fed to32 (given ++ [d]) = [] ∧
        flac_enc_encode mb to32 s ⟨true,first,some d⟩ = none := by
  obtain ⟨hinfo,hfin,hoff,hcore⟩ := h
  generalize hf : {s.fl with pcm := d, fin := s.fl.fin || first} = f
  have hcore' : Core mb to32 (given ++ [d]) (f.rest to32) f os := by
    subst hf
    refine ⟨hcore.state,hcore.finished,?_,hcore.frames,hcore.numbers,hcore.blocks,hcore.cap,hcore.room⟩
    rw [fed_snoc,← hcore.all]
    simp [Enc.rest,hoff]
  have hfin' : f.fin = first := by
    rw [← hf]
    simp [hfin]
  rcases hinfo with hinfo | rfl
  · have h := filter_core hmb (c := ⟨true,first,some d⟩) hinfo hf.symm hcore'
    rw [hfin'] at h
    exact h.imp_left fun ⟨x,hx,hends⟩ => ⟨x,_,hx,hends⟩
  · cases hinfo : s.info with
    | true =>
      have h := filter_core hmb (c := ⟨true,first,some d⟩) hinfo hf.symm hcore'
      rw [hfin'] at h
      exact h.imp_left fun ⟨x,hx,hends⟩ => ⟨x,_,hx,hends⟩
    | false =>
      refine .inl ⟨(⟨true,f⟩,.data,.info),_,?_,
        .data ⟨rfl,.core (core_congr hcore' (frames_quiet (by nofun))) hfin'⟩
          (Nat.lt_succ_self _)⟩
      unfold flac_enc_encode
      simp [hinfo,← hf]

theorem idle_init (mb : Nat) (to32 : Pcm.Bytes → Int) : Idle mb to32 [] (init mb) [] :=
  ⟨.inr rfl,rfl,rfl,rfl,rfl,rfl,rfl,nofun,⟨0,by simp [init],rfl⟩,Nat.zero_add _,Nat.succ_pos _⟩

/-- A run that ends has passed all samples, and the end was no end of a block. -/
theorem ends_of_drive (hmb : 1 ≤ mb) {cs : List (List Raw)} {n : Nat} {s : Filter}
    (h : Feed.drive (flac_enc_encode mb to32) n (init mb) cs = some (s,true,os)) :
    Over mb to32 cs true s os := by
  have hgive : ∀ given d first s os x, Idle mb to32 given s os →
      flac_enc_encode mb to32 s ⟨true,first,some d⟩ = some x →
      ∃ bound, Step mb to32 (given ++ [d]) first os bound x := by
    intro given d first s os x hi hx
    rcases filter_idle (d := d) hmb hi with ⟨y,bound,hy,hends⟩ | ⟨_,_,hy⟩
    · obtain rfl := Option.some.inj (hx.symm.trans hy)
      exact ⟨bound,hends⟩
    · exact absurd (hx.symm.trans hy) nofun
  have hbusy : ∀ given first s os x, Busy mb to32 given first s os →
      flac_enc_encode mb to32 s ⟨false,first,none⟩ = some x →
      ∃ bound, Step mb to32 given first os bound x := by
    intro given first s os x hb hx
    rcases filter_busy hmb hb with ⟨y,hy,hends⟩ | ⟨_,hy⟩
    · obtain rfl := Option.some.inj (hx.symm.trans hy)
      exact ⟨_,hends⟩
    · exact absurd (hx.symm.trans hy) nofun
  obtain ⟨pre,post,rfl,hover⟩ := Feed.drive_partial hgive hbusy (idle_init mb to32) h
  obtain rfl := List.isEmpty_iff.mp hover.1
  simpa using hover

theorem drive_of_ends (hmb : 1 ≤ mb) {cs : List (List Raw)} (hcs : cs ≠ []) (hN : fed to32 cs ≠ [])
    (hends : Ends mb (fed to32 cs).length) :
    ∃ n s os, Feed.drive (flac_enc_encode mb to32) n (init mb) cs = some (s,true,os) ∧
      Over mb to32 cs true s os := by
  -- at the last region all are given
  let Busy' given first s os := Busy mb to32 given first s os ∧ (first = true → given = cs)
  have hgive : ∀ given d first s os, (first = true → given ++ [d] = cs) → Idle mb to32 given s os →
      ∃ x bound, flac_enc_encode mb to32 s ⟨true,first,some d⟩ = some x ∧
        Feed.Ends (Idle mb to32 (given ++ [d])) (Busy' (given ++ [d]) first)
          (Over mb to32 (given ++ [d]) first) (fun s => left s.fl) first os bound x := by
    intro given d first s os hok hi
    rcases filter_idle (d := d) hmb hi with ⟨x,bound,hx,hstep⟩ | ⟨hlast,hnil,hx⟩
    · exact ⟨x,bound,hx,hstep.imp fun _ _ hb => ⟨hb,hok⟩⟩
    · exact absurd (hok hlast ▸ hnil) hN
  have hbusy : ∀ given first s os, Busy' given first s os →
      ∃ x, flac_enc_encode mb to32 s ⟨false,first,none⟩ = some x ∧
        Feed.Ends (Idle mb to32 given) (Busy' given first) (Over mb to32 given first)
          (fun s => left s.fl) first os (left s.fl) x := by
    intro given first s os hb
    rcases filter_busy hmb hb.1 with ⟨x,hx,hstep⟩ | ⟨⟨hlast,hbad⟩,_⟩
    · exact ⟨x,hx,hstep.imp fun _ _ h => ⟨h,hb.2⟩⟩
    · rw [hb.2 hlast] at hbad
      exact absurd hends (hbad.resolve_left hN)
  obtain ⟨n,s,os,pre,post,hdrive,rfl,hover⟩ := Feed.drive_rule hgive hbusy hcs (idle_init mb to32)
    fun pre d post hsplit hlast => by
      rw [hsplit,List.isEmpty_iff.mp hlast]
      rfl
  obtain rfl := List.isEmpty_iff.mp hover.1
  exact ⟨n,s,os,hdrive,by simpa using hover⟩

/-- With at least one sample, the encoder is fed as it has to be, and the run ends, if and only if the last
sample is the first of all or does not come right after a full block. -/
theorem flac_encode_iff (hmb : 1 ≤ mb) {cs : List (List Raw)} (hN : cs.flatten ≠ []) :
    (∃ n s os, Feed.drive (flac_enc_encode mb to32) n (init mb) cs = some (s,true,os) ∧
      Fed to32 cs s.fl.flac os ∧ os.getLast? = some .fin_info) ↔ Ends mb cs.flatten.length := by
  have hlen : (fed to32 cs).length = cs.flatten.length := by rw [fed,List.length_map]
  constructor
  · rintro ⟨n,s,os,hdrive,_⟩
    exact hlen ▸ (ends_of_drive hmb hdrive).2.2.2
  · intro hends
    have hcs : cs ≠ [] := fun hnil => hN (by rw [hnil]; rfl)
    have hfed : fed to32 cs ≠ [] := by simpa [fed] using hN
    obtain ⟨n,s,os,hdrive,hover⟩ := drive_of_ends hmb hcs hfed (by rwa [hlen])
    exact ⟨n,s,os,hdrive,hover.2.1,hover.2.2.1⟩

/-- Samples of one channel with two bytes. -/
def mono (n : Nat) : List Raw := List.replicate n [[1,0]]

theorem encode_six : pcm_to32 16 = some (Pcm.get 2) ∧ ((∃ n s os,
    Feed.drive (flac_enc_encode 4 (Pcm.get 2)) n (init 4) [mono 3,mono 3] = some (s,true,os) ∧
      Fed (Pcm.get 2) [mono 3,mono 3] s.fl.flac os ∧ os.getLast? = some .fin_info) ↔
    Ends 4 [mono 3,mono 3].flatten.length) :=
  ⟨rfl,flac_encode_iff (by decide) (by decide)⟩

theorem block_and_one_fails : ¬∃ n s os,
    Feed.drive (flac_enc_encode 4 (Pcm.get 2)) n (init 4) [mono 5] = some (s,true,os) ∧
      Fed (Pcm.get 2) [mono 5] s.fl.flac os ∧ os.getLast? = some .fin_info := by
  rintro ⟨n,s,os,hdrive,_⟩
  exact absurd (ends_of_drive (by decide) hdrive).2.2.2 (by simp [fed,mono,Ends])

end Phiola.FlacEnc
