import Phiola.Acodec.FlacEnc

/-!
# The samples of the FLAC decoder

libFLAC gives each channel as a row of 32-bit numbers, and `ffflac_decode()` narrows the rows in place: the
sample that is written ends where the next one that is read begins, or before.
-/

namespace Phiola.FlacDec

open Memory (Ptr Mem Apart)
open Pcm (get put)

abbrev Rows := Nat → Ptr

/-! ## The conversions -/

/-- The bytes of a sample in the cases of the `switch` -/
def width : Nat → Option Nat
  | 8 => some 1
  | 16 => some 2
  | 24 => some 3
  | _ => none

/-- Where a sample is in its row. The index `i * 3` is an `uint`. -/
def place (w i : Nat) : Nat := if w = 3 then i * 3 % 2 ^ 32 else i * w

/-- The loop of `pcm_from32()` over the samples of a row -/
def narrow (w : Nat) (src dst : Ptr) : Nat → Mem UInt8 → Mem UInt8
  | 0,m => m
  | i + 1,m =>
    let m := narrow w src dst i m
    m.store (dst.add (place w i)) (put w (get 4 (m.load (src.add (4 * i)) 4)))

def narrow_rows (w : Nat) (src dst : Rows) (samples : Nat) : Nat → Mem UInt8 → Mem UInt8
  | 0,m => m
  | ic + 1,m => narrow w (src ic) (dst ic) samples (narrow_rows w src dst samples ic m)

/-- `pcm_from32()`; none for -1. -/
def pcm_from32 (src dst : Rows) (dstbits channels samples : Nat) (m : Mem UInt8) : Option (Mem UInt8) :=
  (width dstbits).map fun w => narrow_rows w src dst samples channels m

/-- The loop of `pcm_to32()` over the samples of a row, with the conversion of a sample -/
def widen (w : Nat) (conv : Pcm.Bytes → Int) (dst src : Ptr) : Nat → Mem UInt8 → Mem UInt8
  | 0,m => m
  | i + 1,m =>
    let m := widen w conv dst src i m
    m.store (dst.add (4 * i)) (put 4 (conv (m.load (src.add (place w i)) w)))

def widen_rows (w : Nat) (conv : Pcm.Bytes → Int) (dst src : Rows) (samples : Nat) :
    Nat → Mem UInt8 → Mem UInt8
  | 0,m => m
  | ic + 1,m => widen w conv (dst ic) (src ic) samples (widen_rows w conv dst src samples ic m)

/-- `pcm_to32()`; none for -1. -/
def pcm_to32 (dst src : Rows) (srcbits channels samples : Nat) (m : Mem UInt8) : Option (Mem UInt8) :=
  (FlacEnc.pcm_to32 srcbits).bind fun conv =>
    (width srcbits).map fun w => widen_rows w conv dst src samples channels m

/-! ## The decoder -/

/-- `struct ffflac_dec`: `bits` and `channels` are those of `info`, and `pcm` is set to `out`. -/
structure Dec where
  err : Int
  bits : Nat
  channels : Nat
  frsample : Nat
  seeksample : Nat
  pcmlen : Nat
  out : Rows

inductive Ret
  | RDATA
  | RWARN
  deriving DecidableEq

/-- `ffflac_dec_input()`, where `frame_samples` is an `uint`. -/
def ffflac_dec_input (f : Dec) (frame_samples frame_pos : Nat) : Dec :=
  { f with frsample := frame_pos,pcmlen := frame_samples % 2 ^ 32 }

/-- The offset that is asked for is inside the block. -/
def Inside (f : Dec) : Prop :=
  f.seeksample ≠ 0 ∧ f.frsample < f.seeksample ∧ f.seeksample < (f.frsample + f.pcmlen) % 2 ^ 64

instance (f : Dec) : Decidable (Inside f) :=
  inferInstanceAs (Decidable (f.seeksample ≠ 0 ∧ f.frsample < f.seeksample ∧
    f.seeksample < (f.frsample + f.pcmlen) % 2 ^ 64))

/-- `isrc` -/
def isrc (f : Dec) : Nat := if Inside f then (f.seeksample - f.frsample) % 2 ^ 32 else 0

/-- `ffflac_decode()` after `flac_decode()` returned `r` and the rows -/
def ffflac_decode (f : Dec) (r : Int) (out : Rows) (m : Mem UInt8) : Ret × Dec × Mem UInt8 :=
  if r ≠ 0 then (.RWARN,{ f with err := r },m)
  else
    let i := isrc f
    let pcmlen := f.pcmlen - i
    let frsample := if Inside f then f.seeksample else f.frsample
    let out2 : Rows := fun ich => (out ich).add (4 * i)
    let m := (pcm_from32 out2 out f.bits f.channels (pcmlen % 2 ^ 32) m).getD m
    (.RDATA,⟨f.err,f.bits,f.channels,frsample,0,pcmlen * (f.bits / 8 * f.channels),out⟩,m)

/-! ## Parts of memory -/

theorem apart_part {p q : Ptr} {n k : Nat} (h : Apart p n q k) (i j a b : Nat) (hi : i + a ≤ n)
    (hj : j + b ≤ k) : Apart (p.add i) a (q.add j) b := h.part hi hj

theorem load_stored {k : Nat} (m : Mem UInt8) (p : Ptr) {bs : Pcm.Bytes} (h : bs.length = k) :
    (m.store p bs).load p k = bs := by
  subst h
  have hpart := Memory.load_store_part (m := m) (p := p) (Nat.le_of_eq (Nat.zero_add bs.length))
  rwa [Memory.Ptr.add_zero,List.drop_zero,List.take_length] at hpart

/-! ## One row -/

variable {w n channels : Nat} {src dst : Ptr} {p q : Rows} {m : Mem UInt8} {conv : Pcm.Bytes → Int}

/-- The samples are where they would be with an index that doesn't wrap. -/
def Placed (w n : Nat) : Prop := ∀ i < n, place w i = i * w

theorem place_le (w i : Nat) : place w i ≤ i * w := by
  unfold place
  split
  · rename_i h
    rw [h]
    exact Nat.mod_le _ _
  · exact Nat.le_refl _

theorem placed_of_le (h : w = 3 → n ≤ 1431655766) : Placed w n := by
  intro i hi
  unfold place
  split
  · rename_i hw
    have := h hw
    rw [hw]
    exact Nat.mod_eq_of_lt (by omega)
  · rfl

/-- What was written doesn't touch what is still to be read. -/
def Ahead (w n : Nat) (src dst : Ptr) : Prop :=
  ∀ i j, i ≤ j → j < n → Apart dst (i * w) (src.add (4 * j)) 4

theorem place_end {i k : Nat} (h : i < k) : place w i + w ≤ k * w := by
  have := place_le w i
  have := Memory.mul_add_le h w
  omega

/-- What doesn't overlap with the samples that are written is left as it is. -/
theorem narrow_apart {r : Ptr} {k : Nat} (h : Apart dst (n * w) r k) :
    (narrow w src dst n m).load r k = m.load r k := by
  induction n with
  | zero => rfl
  | succ n ih =>
    have hlast : Apart (dst.add (place w n)) w r k := by
      exact apart_part h (place w n) 0 w k (place_end (Nat.lt_succ_self n)) (by omega)
    have hbefore : Apart dst (n * w) r k := by
      exact apart_part h 0 0 (n * w) k (by rw [Nat.succ_mul]; omega) (by omega)
    rw [narrow,Memory.load_store_apart (by rwa [Pcm.put_length]),ih hbefore]

theorem Ahead.mono {k : Nat} (h : Ahead w n src dst) (hk : k ≤ n) : Ahead w k src dst :=
  fun i j hij hj => h i j hij (by omega)

/-- Each sample that is written has the low bytes of the sample in the memory before. -/
theorem narrow_load (ha : Ahead w n src dst) (hp : Placed w n) {i : Nat} (hi : i < n) :
    (narrow w src dst n m).load (dst.add (i * w)) w = put w (get 4 (m.load (src.add (4 * i)) 4)) := by
  induction n with
  | zero => omega
  | succ n ih =>
    have hn := hp n (Nat.lt_succ_self n)
    rw [narrow,hn]
    rcases Nat.eq_or_lt_of_le (Nat.le_of_lt_succ hi) with rfl | hlt
    · have hread : (narrow w src dst i m).load (src.add (4 * i)) 4 = m.load (src.add (4 * i)) 4 :=
        narrow_apart (ha i i (Nat.le_refl _) hi)
      rw [hread]
      exact load_stored _ _ (Pcm.put_length ..)
    · rw [Memory.load_store_apart]
      · exact ih (ha.mono (Nat.le_succ n)) (fun k hk => hp k (by omega)) hlt
      · rw [Pcm.put_length]
        exact Memory.apart_add (.inr (Memory.mul_add_le hlt w))

theorem ahead_in_place (hw : w ≤ 4) (p : Ptr) (isrc n : Nat) : Ahead w n (p.add (4 * isrc)) p := by
  intro i j hij _ _
  left
  have := Nat.mul_le_mul hij hw
  dsimp only [Ptr.add]
  omega

theorem ahead_apart (h : Apart dst (n * w) src (4 * n)) : Ahead w n src dst := by
  intro i j hij hj
  have hle : i * w ≤ n * w := Nat.mul_le_mul_right w (by omega)
  exact apart_part h 0 (4 * j) (i * w) 4 (by omega) (by omega)

/-! ## All rows -/

/-- The rows: in each, what was written doesn't touch what is to be read, and no row that is written overlaps
with another row. -/
structure Fine (w n channels : Nat) (src dst : Rows) : Prop where
  ahead : ∀ c < channels, Ahead w n (src c) (dst c)
  src : ∀ c < channels, ∀ d < channels, c ≠ d → Apart (dst c) (n * w) (src d) (4 * n)
  dst : ∀ c < channels, ∀ d < channels, c ≠ d → Apart (dst c) (n * w) (dst d) (n * w)

theorem narrow_rows_apart {r : Ptr} {k : Nat} (h : ∀ c < channels, Apart (q c) (n * w) r k) :
    (narrow_rows w p q n channels m).load r k = m.load r k := by
  induction channels with
  | zero => rfl
  | succ c ih =>
    rw [narrow_rows,narrow_apart (h c (Nat.lt_succ_self c)),ih fun d hd => h d (Nat.lt_succ_of_lt hd)]

theorem Fine.of_succ {c : Nat} (h : Fine w n (c + 1) p q) : Fine w n c p q :=
  ⟨fun d hd => h.ahead d (by omega),fun d hd e he => h.src d (by omega) e (by omega),
    fun d hd e he => h.dst d (by omega) e (by omega)⟩

theorem narrow_rows_load (hf : Fine w n channels p q) (hp : Placed w n) {c i : Nat} (hc : c < channels)
    (hi : i < n) :
    (narrow_rows w p q n channels m).load ((q c).add (i * w)) w =
      put w (get 4 (m.load ((p c).add (4 * i)) 4)) := by
  induction channels with
  | zero => omega
  | succ k ih =>
    rw [narrow_rows]
    rcases Nat.eq_or_lt_of_le (Nat.le_of_lt_succ hc) with rfl | hlt
    · have hread : (narrow_rows w p q n c m).load ((p c).add (4 * i)) 4 = m.load ((p c).add (4 * i)) 4 := by
        apply narrow_rows_apart
        intro d hd
        exact apart_part (hf.src d (by omega) c hc (by omega)) 0 (4 * i) (n * w) 4 (by omega) (by omega)
      rw [narrow_load (hf.ahead c hc) hp hi,hread]
    · have hend := Memory.mul_add_le hi w
      have hkeep : Apart (q k) (n * w) ((q c).add (i * w)) w := by
        exact apart_part (hf.dst k (by omega) c hc (by omega)) 0 (i * w) (n * w) w (by omega) hend
      rw [narrow_apart hkeep]
      exact ih hf.of_succ hlt

/-- The rows of the decoder do not overlap. -/
def RowsApart (channels n : Nat) (p : Rows) : Prop :=
  ∀ c < channels, ∀ d < channels, c ≠ d → Apart (p c) (4 * n) (p d) (4 * n)

theorem fine_in_place (hw : w ≤ 4) (isrc : Nat) (h : RowsApart channels (isrc + n) p) :
    Fine w n channels (fun c => (p c).add (4 * isrc)) p := by
  have hle : n * w ≤ 4 * (isrc + n) := by
    have := Nat.mul_le_mul_left n hw
    omega
  refine ⟨fun c _ => ahead_in_place hw (p c) isrc n,fun c hc d hd hcd => ?_,fun c hc d hd hcd => ?_⟩
  · exact apart_part (h c hc d hd hcd) 0 (4 * isrc) (n * w) (4 * n) (by omega) (by omega)
  · exact apart_part (h c hc d hd hcd) 0 0 (n * w) (n * w) (by omega) (by omega)

/-- Other buffers: they overlap neither with the rows nor with each other. -/
structure Separate (w n isrc channels : Nat) (p q : Rows) : Prop where
  src : ∀ c < channels, ∀ d < channels, Apart (q c) (n * w) (p d) (4 * (isrc + n))
  dst : ∀ c < channels, ∀ d < channels, c ≠ d → Apart (q c) (n * w) (q d) (n * w)

theorem Separate.fine {isrc : Nat} (h : Separate w n isrc channels p q) :
    Fine w n channels (fun c => (p c).add (4 * isrc)) q := by
  have hpart : ∀ c < channels, ∀ d < channels, Apart (q c) (n * w) ((p d).add (4 * isrc)) (4 * n) := by
    intro c hc d hd
    exact apart_part (h.src c hc d hd) 0 (4 * isrc) (n * w) (4 * n) (by omega) (by omega)
  exact ⟨fun c hc => ahead_apart (hpart c hc c hc),fun c hc d hd _ => hpart c hc d hd,h.dst⟩

/-! ## The other way -/

theorem widen_apart {r : Ptr} {k : Nat} (h : Apart dst (4 * n) r k) :
    (widen w conv dst src n m).load r k = m.load r k := by
  induction n with
  | zero => rfl
  | succ n ih =>
    have hlast : Apart (dst.add (4 * n)) 4 r k := by
      exact apart_part h (4 * n) 0 4 k (by omega) (by omega)
    have hbefore : Apart dst (4 * n) r k := by
      exact apart_part h 0 0 (4 * n) k (by omega) (by omega)
    rw [widen,Memory.load_store_apart (by rwa [Pcm.put_length]),ih hbefore]

theorem widen_load (hs : Apart dst (4 * n) src (n * w)) (hp : Placed w n) {i : Nat} (hi : i < n) :
    (widen w conv dst src n m).load (dst.add (4 * i)) 4 = put 4 (conv (m.load (src.add (i * w)) w)) := by
  induction n with
  | zero => omega
  | succ n ih =>
    have hn := hp n (Nat.lt_succ_self n)
    have hle : n * w ≤ (n + 1) * w := Nat.mul_le_mul_right w (Nat.le_succ n)
    have hbefore : Apart dst (4 * n) src (n * w) := by
      exact apart_part hs 0 0 (4 * n) (n * w) (by omega) (by omega)
    rw [widen,hn]
    rcases Nat.eq_or_lt_of_le (Nat.le_of_lt_succ hi) with rfl | hlt
    · have hread : (widen w conv dst src i m).load (src.add (i * w)) w = m.load (src.add (i * w)) w := by
        apply widen_apart
        exact apart_part hs 0 (i * w) (4 * i) w (by omega) (Nat.le_of_eq (Nat.succ_mul i w).symm)
      rw [hread]
      exact load_stored _ _ (Pcm.put_length ..)
    · rw [Memory.load_store_apart]
      · exact ih hbefore (fun k hk => hp k (by omega)) hlt
      · rw [Pcm.put_length]
        exact Memory.apart_add (.inr (by omega))

theorem widen_rows_apart {r : Ptr} {k : Nat} (h : ∀ c < channels, Apart (p c) (4 * n) r k) :
    (widen_rows w conv p q n channels m).load r k = m.load r k := by
  induction channels with
  | zero => rfl
  | succ c ih =>
    rw [widen_rows,widen_apart (h c (Nat.lt_succ_self c)),ih fun d hd => h d (Nat.lt_succ_of_lt hd)]

theorem widen_rows_load (hs : ∀ c < channels, ∀ d < channels, Apart (p c) (4 * n) (q d) (n * w))
    (hd : RowsApart channels n p) (hp : Placed w n) {c i : Nat} (hc : c < channels) (hi : i < n) :
    (widen_rows w conv p q n channels m).load ((p c).add (4 * i)) 4 =
      put 4 (conv (m.load ((q c).add (i * w)) w)) := by
  induction channels with
  | zero => omega
  | succ k ih =>
    rw [widen_rows]
    rcases Nat.eq_or_lt_of_le (Nat.le_of_lt_succ hc) with rfl | hlt
    · have hread : (widen_rows w conv p q n c m).load ((q c).add (i * w)) w = m.load ((q c).add (i * w)) w := by
        apply widen_rows_apart
        intro d hd'
        exact apart_part (hs d (by omega) c hc) 0 (i * w) (4 * n) w (by omega) (Memory.mul_add_le hi w)
      rw [widen_load (hs c hc c hc) hp hi,hread]
    · have hkeep : Apart (p k) (4 * n) ((p c).add (4 * i)) 4 := by
        exact apart_part (hd k (by omega) c hc (by omega)) 0 (4 * i) (4 * n) 4 (by omega) (by omega)
      rw [widen_apart hkeep]
      exact ih (fun c hc d hd => hs c (by omega) d (by omega)) (fun c hc d hd' => hd c (by omega) d (by omega))
        hlt

/-! ## The decoder -/

theorem width_le {bits : Nat} (h : width bits = some w) : w ≤ 4 ∧ (w = 3 → bits = 24) := by
  unfold width at h
  split at h <;> cases h <;> decide

theorem isrc_le (f : Dec) (h : f.pcmlen < 2 ^ 32) : isrc f ≤ f.pcmlen := by
  unfold isrc
  split
  · rename_i hin
    obtain ⟨-,hlt,hend⟩ := hin
    have := Nat.mod_le (f.frsample + f.pcmlen) (2 ^ 64)
    rw [Nat.mod_eq_of_lt (by omega)]
    omega
  · exact Nat.zero_le _

theorem put_conv {bits : Nat} (hc : FlacEnc.pcm_to32 bits = some conv) (hw : width bits = some w)
    {b : Pcm.Bytes} (hb : b.length = w) : put w (get 4 (put 4 (conv b))) = b := by
  have hget : conv b = get w b ∧ w ≤ 3 := by
    unfold width at hw
    split at hw
    · obtain rfl := Option.some.inj hw
      obtain rfl := Option.some.inj hc
      exact ⟨rfl,by decide⟩
    · obtain rfl := Option.some.inj hw
      obtain rfl := Option.some.inj hc
      exact ⟨rfl,by decide⟩
    · obtain rfl := Option.some.inj hw
      obtain rfl := Option.some.inj hc
      exact ⟨Pcm.int_ltoh24s_eq hb,by decide⟩
    · cases hw
  obtain ⟨hget,hw3⟩ := hget
  have hrange := Pcm.get_range w b
  have hpow : 256 ^ w ≤ 256 ^ 4 := Nat.pow_le_pow_right (by decide) (by omega)
  have hlo : -(((256 ^ 4 : Nat) : Int) / 2) ≤ get w b := by
    generalize 256 ^ w = x at hrange hpow
    generalize 256 ^ 4 = y at hpow
    omega
  have hhi : get w b < (((256 ^ 4 : Nat) : Int) + 1) / 2 := by
    generalize 256 ^ w = x at hrange hpow
    generalize 256 ^ 4 = y at hpow
    omega
  rw [hget,Pcm.get_put_of_range hlo hhi,Pcm.put_get hb]

theorem from32_to32 {bits : Nat} (hw : width bits = some w) (hn : bits = 24 → n ≤ 1431655766) {a : Rows}
    (hs : ∀ c < channels, ∀ d < channels, Apart (p c) (4 * n) (a d) (n * w)) (hd : RowsApart channels n p)
    (hf : Fine w n channels p q) :
    ∃ m' m'', pcm_to32 p a bits channels n m = some m' ∧ pcm_from32 p q bits channels n m' = some m'' ∧
      ∀ c < channels, ∀ i < n, m''.load ((q c).add (i * w)) w = m.load ((a c).add (i * w)) w := by
  obtain ⟨conv,hc⟩ : ∃ conv, FlacEnc.pcm_to32 bits = some conv := by
    unfold width at hw
    split at hw <;> cases hw <;> exact ⟨_,rfl⟩
  have hp : Placed w n := placed_of_le fun h => hn ((width_le hw).2 h)
  have h1 : pcm_to32 p a bits channels n m = some (widen_rows w conv p a n channels m) := by
    simp [pcm_to32,hc,hw]
  refine ⟨_,_,h1,by rw [pcm_from32,hw]; rfl,fun c hc' i hi => ?_⟩
  rw [narrow_rows_load hf hp hc' hi,widen_rows_load hs hd hp hc' hi]
  exact put_conv hc hw (Memory.load_length ..)

/-- The sample `i` of a row of `w` bytes a sample has the low bytes of the sample in the row of numbers. -/
def Low (w n isrc channels : Nat) (p q : Rows) (m m' : Mem UInt8) : Prop :=
  ∀ c < channels, ∀ i < n,
    m'.load ((q c).add (i * w)) w = put w (get 4 (m.load ((p c).add (4 * (isrc + i))) 4))

theorem from32_low {bits : Nat} (hw : width bits = some w) (hn : bits = 24 → n ≤ 1431655766) {i : Nat}
    (hf : Fine w n channels (fun c => (p c).add (4 * i)) q) :
    ∃ m', pcm_from32 (fun c => (p c).add (4 * i)) q bits channels n m = some m' ∧
      Low w n i channels p q m m' := by
  have hp : Placed w n := placed_of_le fun h => hn ((width_le hw).2 h)
  refine ⟨_,by rw [pcm_from32,hw]; rfl,fun c hc j hj => ?_⟩
  rw [narrow_rows_load hf hp hc hj,Memory.Ptr.add_add,Nat.mul_add]

/-- A block with 24 bits has at most 1431655766 samples from the offset on. Then the rows that are narrowed in
place have the low bytes of the samples from the offset on, as separate buffers would have, and a conversion
to 32 bits and back changes nothing. -/
theorem narrowed_in_place (g : Dec) (frame_samples frame_pos w : Nat) (p : Rows) (m : Mem UInt8)
    (hw : width g.bits = some w) :
    let f := ffflac_dec_input g frame_samples frame_pos
    let i := isrc f
    let n := f.pcmlen - i
    (g.bits = 24 → n ≤ 1431655766) → RowsApart g.channels f.pcmlen p →
      (∃ f' m', ffflac_decode f 0 p m = (.RDATA,f',m') ∧ f'.out = p ∧
          f'.pcmlen = n * (g.bits / 8 * g.channels) ∧ Low w n i g.channels p p m m' ∧
          ∀ q, Separate w n i g.channels p q → ∃ m'',
            pcm_from32 (fun c => (p c).add (4 * i)) q g.bits g.channels n m = some m'' ∧
              ∀ c < g.channels, ∀ j < n,
                m'.load ((p c).add (j * w)) w = m''.load ((q c).add (j * w)) w) ∧
        ∀ a b q : Rows, (∀ c < g.channels, ∀ d < g.channels, Apart (b c) (4 * n) (a d) (n * w)) →
          RowsApart g.channels n b → Fine w n g.channels b q →
            ∃ m' m'', pcm_to32 b a g.bits g.channels n m = some m' ∧
              pcm_from32 b q g.bits g.channels n m' = some m'' ∧
              ∀ c < g.channels, ∀ j < n,
                m''.load ((q c).add (j * w)) w = m.load ((a c).add (j * w)) w := by
  intro f i n hn hrows
  have hlt : f.pcmlen < 2 ^ 32 := Nat.mod_lt _ (by decide)
  have hle : i ≤ f.pcmlen := isrc_le f hlt
  have hsum : i + n = f.pcmlen := Nat.add_sub_cancel' hle
  have hmod : n % 2 ^ 32 = n := Nat.mod_eq_of_lt (by omega)
  refine ⟨?_,fun a b q hs hd hf => from32_to32 hw hn hs hd hf⟩
  obtain ⟨m',hm',hlow⟩ := from32_low (m := m) hw hn
    (fine_in_place (width_le hw).1 i (hsum.symm ▸ hrows))
  refine ⟨⟨f.err,f.bits,f.channels,if Inside f then f.seeksample else f.frsample,0,
    n * (g.bits / 8 * g.channels),p⟩,m',?_,rfl,rfl,hlow,fun q hq => ?_⟩
  · have hcall : pcm_from32 (fun ich => (p ich).add (4 * isrc f)) p f.bits f.channels
        ((f.pcmlen - isrc f) % 2 ^ 32) m = some m' := (congrArg (fun k => pcm_from32 _ p _ _ k m) hmod).trans hm'
    simp only [ffflac_decode,hcall]
    rfl
  · obtain ⟨m'',hm'',hlow'⟩ := from32_low (m := m) hw hn hq.fine
    exact ⟨m'',hm'',fun c hc j hj => (hlow c hc j hj).trans (hlow' c hc j hj).symm⟩

/-- Rows in memory of their own. -/
def rows : Rows := fun c => ⟨c,0⟩

theorem rows_apart (channels n : Nat) : RowsApart channels n rows :=
  fun _ _ _ _ hcd hb => absurd hb hcd

theorem narrowed_in_place_16 :
    ∃ f' m', ffflac_decode (ffflac_dec_input ⟨0,16,2,0,101,0,rows⟩ 3 100) 0 rows (fun _ o => UInt8.ofNat o) =
        (.RDATA,f',m') ∧ Low 2 2 1 2 rows rows (fun _ o => UInt8.ofNat o) m' := by
  obtain ⟨⟨f',m',h,-,-,hl,-⟩,-⟩ := narrowed_in_place ⟨0,16,2,0,101,0,rows⟩ 3 100 2 rows
    (fun _ o => UInt8.ofNat o) rfl (fun h => absurd h (by decide)) (rows_apart 2 3)
  exact ⟨f',m',h,hl⟩

/-- The sample behind the last one that has an index of its own is written over the first. -/
theorem narrow_wraps {k : Nat} (hk : place 3 k = 2) (p : Ptr) :
    (narrow 3 p p (k + 1) m) p.block (p.off + 2) =
      UInt8.ofNat (get 4 (m.load (p.add (4 * k)) 4) % 256).toNat := by
  have hread : (narrow 3 p p k m).load (p.add (4 * k)) 4 = m.load (p.add (4 * k)) 4 := by
    apply narrow_apart
    intro _
    dsimp only [Ptr.add]
    omega
  rw [narrow,hk,hread]
  simp [Mem.store,Ptr.add,put]

theorem decode_wraps {k : Nat} (hk : place 3 k = 2) (hlt : k + 1 < 2 ^ 32) {f' : Dec} {m' : Mem UInt8}
    (h : ffflac_decode (ffflac_dec_input ⟨0,24,1,0,0,0,rows⟩ (k + 1) 0) 0 rows m = (.RDATA,f',m')) :
    m' 0 2 = UInt8.ofNat (get 4 (m.load ⟨0,4 * k⟩ 4) % 256).toNat := by
  have hmod : (k + 1) % 2 ^ 32 = k + 1 := Nat.mod_eq_of_lt hlt
  have hf : ffflac_dec_input ⟨0,24,1,0,0,0,rows⟩ (k + 1) 0 = ⟨0,24,1,0,0,k + 1,rows⟩ := by
    rw [ffflac_dec_input,hmod]
  have hin : ¬ Inside ⟨0,24,1,0,0,k + 1,rows⟩ := fun h => h.1 rfl
  have hi : isrc ⟨0,24,1,0,0,k + 1,rows⟩ = 0 := if_neg hin
  rw [hf] at h
  simp only [ffflac_decode,hi,hmod,pcm_from32,width,Nat.sub_zero,Option.map_some,Option.getD_some,
    narrow_rows] at h
  have hm : m' = narrow 3 (rows 0) (rows 0) (k + 1) m := by
    simp only [ne_eq,not_true_eq_false,if_false,Prod.mk.injEq] at h
    exact h.2.2.symm
  have := narrow_wraps (m := m) hk (rows 0)
  rw [hm]
  simpa [rows,Ptr.add] using this

/-- 1 in the sample 1431655766, and 0 in the others -/
def one : Mem UInt8 := fun _ o => if o = 4 * 1431655766 then 1 else 0

theorem long_block_wraps :
    ¬ ∀ (g : Dec) (frame_samples frame_pos w : Nat) (p : Rows) (m : Mem UInt8), width g.bits = some w →
      let f := ffflac_dec_input g frame_samples frame_pos
      RowsApart g.channels f.pcmlen p → ∃ f' m', ffflac_decode f 0 p m = (.RDATA,f',m') ∧
        Low w (f.pcmlen - isrc f) (isrc f) g.channels p p m m' := by
  intro h
  obtain ⟨f',m',hd,hl⟩ := h ⟨0,24,1,0,0,0,rows⟩ (1431655766 + 1) 0 3 rows one rfl (rows_apart 1 _)
  have hlow : m'.load (rows 0) 3 = put 3 (get 4 (one.load (rows 0) 4)) := hl 0 (by decide) 0 (by decide)
  have hzero : one.load (rows 0) 4 = [0,0,0,0] := by decide
  have hone : one.load ⟨0,4 * 1431655766⟩ 4 = [1,0,0,0] := by decide
  have hbyte : (m'.load (rows 0) 3)[2]? = some (m' 0 2) := Memory.load_getElem? m' (rows 0) (by decide)
  have hwrap := decode_wraps (by decide) (by decide) hd
  rw [hone] at hwrap
  rw [hlow,hzero,hwrap] at hbyte
  exact absurd hbyte (by decide)

end Phiola.FlacDec
