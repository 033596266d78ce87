import Mathlib.Algebra.Group.Int.Defs
import Mathlib.Algebra.Group.Nat.Defs
import Mathlib.Algebra.Order.Ring.Abs
import Mathlib.Algebra.Order.Ring.Int
import Mathlib.Data.Nat.Bitwise
import Mathlib.Tactic.Linarith
import Mathlib.Tactic.Ring
import Phiola.Framework.Memory

/-!
# PCM samples

The formats of a sample, its integer value, and how the value of one format is written in another.
Floating point is a parameter: the operations that the code uses on it.
-/

namespace Phiola.Pcm

open Memory (Ptr Mem Store)

/-- `enum PHI_PCM` -/
inductive Fmt
  | pcm8
  | pcm16
  | pcm24
  | pcm32
  | pcm24_4
  | float32
  | float64
deriving DecidableEq, Repr

def Fmt.code : Fmt → Nat
  | .pcm8 => 8
  | .pcm16 => 16
  | .pcm24 => 24
  | .pcm32 => 32
  | .pcm24_4 => 0x0120
  | .float32 => 0x0220
  | .float64 => 0x0240

def pcm_bits (fmt : Fmt) : Nat := fmt.code % 256

def pcm_size (fmt : Fmt) (channels : Nat) : Nat := pcm_bits fmt / 8 * channels

/-- `struct phi_af` -/
structure Af where
  format : Fmt
  channels : Nat
  rate : Nat
  interleaved : Bool
deriving DecidableEq, Repr

/-- The bytes of a sample. -/
def Fmt.size (f : Fmt) : Nat := pcm_bits f / 8

/-! ## Samples in memory -/

/-- `union pcmdata`: samples of alternating channels, or an array with the place of each channel. -/
inductive Data
  | b (p : Ptr)
  | pb (a : Nat → Ptr)

def Data.ptr : Data → Option Ptr
  | .b p => some p
  | .pb _ => none

def Data.planes : Data → Option (Nat → Ptr)
  | .b _ => none
  | .pb a => some a

/-- The places of the channels in interleaved data; the array had `ni` in it before. -/
def pcm_setni (ni : Nat → Ptr) (b : Ptr) (fmt : Fmt) (nch : Nat) : Nat → Ptr := fun i =>
  if i < nch then b.add (i * pcm_bits fmt / 8) else ni i

/-- The places of the channels of data in either layout, and the samples between two of a channel. -/
def Data.channels (ni : Nat → Ptr) (fmt : Fmt) (nch : Nat) (interleaved : Bool) (d : Data) :
    Option (Nat → Ptr) :=
  if interleaved then d.ptr.map fun p => pcm_setni ni p fmt nch else d.planes

def stepOf (interleaved : Bool) (nch : Nat) : Nat := if interleaved then nch else 1

/-- The data is laid out as the format says. -/
def Data.Fits : Data → Bool → Prop
  | .b _,il => il = true
  | .pb _,il => il = false

/-- The place of the `i`-th sample of channel `c`. -/
def Data.sample (size nch : Nat) : Data → Nat → Nat → Ptr
  | .b p,c,i => p.add ((i * nch + c) * size)
  | .pb a,c,i => (a c).add (i * size)

theorem bits_bytes (fmt : Fmt) (c : Nat) : c * pcm_bits fmt / 8 = c * fmt.size :=
  Nat.mul_div_assoc c (by cases fmt <;> decide)

theorem setni_sample {ni : Nat → Ptr} {p : Ptr} {fmt : Fmt} {nch c : Nat} (hc : c < nch) (i : Nat) :
    (pcm_setni ni p fmt nch c).add (i * nch * fmt.size) =
      (Data.b p).sample fmt.size nch c i := by
  rw [pcm_setni,if_pos hc,bits_bytes,Memory.Ptr.add_add,Data.sample,Nat.add_mul,Nat.add_comm]

theorem channels_place {d : Data} {il : Bool} (h : d.Fits il) (ni : Nat → Ptr) (fmt : Fmt)
    (nch : Nat) : ∃ a, d.channels ni fmt nch il = some a ∧ ∀ c < nch, ∀ i,
      (a c).add (i * stepOf il nch * fmt.size) = d.sample fmt.size nch c i := by
  cases d with
  | b p =>
    rw [show il = true from h]
    exact ⟨_,rfl,fun c hc i => setni_sample hc i⟩
  | pb a =>
    rw [show il = false from h]
    exact ⟨a,rfl,fun c _ i => congrArg (fun j => (a c).add (j * fmt.size)) (Nat.mul_one i)⟩

/-! ## Integers in memory -/

abbrev Bytes := List UInt8

/-- The unsigned number in little-endian bytes. -/
def le : Bytes → Nat
  | [] => 0
  | b :: bs => b.toNat + 256 * le bs

/-- The signed number in `k` bytes: a `char`, a `short`, an `int`. -/
def get (k : Nat) (bs : Bytes) : Int := (le bs : Int).bmod (256 ^ k)

/-- The low `k` bytes of a number. -/
def put : Nat → Int → Bytes
  | 0, _ => []
  | k + 1, x => UInt8.ofNat (x % 256).toNat :: put k (x / 256)

def int_htol24 (n : Int) : Bytes := put 3 n

/-- The sign is extended by the upper byte of an `uint`, which is read as an `int`. -/
def int_ltoh24s (b : Bytes) : Int :=
  let n := le b
  (((if n &&& 0x00800000 ≠ 0 then n ||| 0xff000000 else n : Nat) : Int)).bmod (2 ^ 32)

@[simp] theorem put_length (k : Nat) (x : Int) : (put k x).length = k := by
  induction k generalizing x with
  | zero => rfl
  | succ k ih => rw [put,List.length_cons,ih]

theorem le_lt (bs : Bytes) : le bs < 256 ^ bs.length := by
  induction bs with
  | nil => exact Nat.one_pos
  | cons b bs ih =>
    have hb := b.toNat_lt
    rw [le,List.length_cons,Nat.pow_succ]
    omega

theorem put_le (bs : Bytes) : put bs.length (le bs) = bs := by
  induction bs with
  | nil => rfl
  | cons b bs ih =>
    have hb := b.toNat_lt
    have hmod : ((le (b :: bs) : Int) % 256).toNat = b.toNat := by
      rw [le]
      omega
    have hdiv : (le (b :: bs) : Int) / 256 = le bs := by
      rw [le]
      omega
    rw [List.length_cons,put,hmod,hdiv,ih,UInt8.ofNat_toNat]

theorem emod_mul (x b : Int) : x % (256 * b) = x % 256 + 256 * (x / 256 % b) := by
  have hdiv : x / 256 / b = x / (256 * b) := Int.ediv_ediv_of_nonneg (by decide)
  rw [Int.emod_def x (256 * b),Int.emod_def (x / 256) b,hdiv,Int.emod_def x 256]
  ring

theorem le_put (k : Nat) (x : Int) : (le (put k x) : Int) = x % 256 ^ k := by
  induction k generalizing x with
  | zero => simp [put,le]
  | succ k ih =>
    have hlo : (UInt8.ofNat (x % 256).toNat).toNat = (x % 256).toNat := by
      rw [UInt8.toNat_ofNat']
      omega
    rw [put,le,hlo,pow_succ',emod_mul,← ih]
    omega

theorem put_congr {k : Nat} {x y : Int} (h : x % 256 ^ k = y % 256 ^ k) : put k x = put k y := by
  have hle : le (put k x) = le (put k y) := by
    have := (le_put k x).trans (h.trans (le_put k y).symm)
    exact Int.ofNat.inj this
  have hx := put_le (put k x)
  have hy := put_le (put k y)
  rw [put_length] at hx hy
  rw [← hx,← hy,hle]

theorem get_put (k : Nat) (x : Int) : get k (put k x) = x.bmod (256 ^ k) := by
  have h := le_put k x
  rw [get,h]
  exact_mod_cast Int.emod_bmod x (256 ^ k)

theorem put_get {k : Nat} {bs : Bytes} (h : bs.length = k) : put k (get k bs) = bs := by
  subst h
  refine (put_congr ?_).trans (put_le bs)
  unfold get
  exact_mod_cast Int.bmod_emod

theorem get_range (k : Nat) (bs : Bytes) :
    -(((256 ^ k : Nat) : Int) / 2) ≤ get k bs ∧ get k bs < (((256 ^ k : Nat) : Int) + 1) / 2 :=
  ⟨Int.le_bmod (Nat.pow_pos (by decide)),Int.bmod_lt (Nat.pow_pos (by decide))⟩

theorem get_put_of_range {k : Nat} {x : Int} (hlo : -(((256 ^ k : Nat) : Int) / 2) ≤ x)
    (hhi : x < (((256 ^ k : Nat) : Int) + 1) / 2) : get k (put k x) = x := by
  rw [get_put]
  have hpos : 0 < 256 ^ k := Nat.pow_pos (by decide)
  exact (Int.bmod_eq_iff hpos).mpr ⟨by omega,by omega,by simp⟩

theorem int_ltoh24s_eq {b : Bytes} (h : b.length = 3) : int_ltoh24s b = get 3 b := by
  have hlt : le b < 2 ^ 24 := by
    have := le_lt b
    rw [h] at this
    omega
  unfold int_ltoh24s get
  generalize le b = n at hlt
  have hbit : n &&& 0x00800000 ≠ 0 ↔ 2 ^ 23 ≤ n := by
    rw [show 0x00800000 = 2 ^ 23 from rfl,Nat.and_two_pow,Nat.testBit_eq_decide_div_mod_eq]
    constructor
    · intro hs
      by_contra hn
      exact hs (by rw [decide_eq_false (by omega)]; rfl)
    · intro hn
      rw [decide_eq_true (by omega)]
      decide
  have hor : n ||| 0xff000000 = n + 0xff000000 := by
    rw [Nat.or_comm,Nat.add_comm]
    exact (Nat.two_pow_add_eq_or_of_lt hlt 255).symm
  dsimp only
  split
  · rename_i hs
    have := hbit.mp hs
    rw [hor,Int.bmod_def,Int.bmod_def]
    split <;> split <;> omega
  · rename_i hs
    have := mt hbit.mpr hs
    rw [Int.bmod_def,Int.bmod_def]
    split <;> split <;> omega

/-! ## Floating point -/

/-- The operations on `double` that the code uses. -/
structure Arith (D : Type) where
  ofInt : Int → D
  lit : Rat → D
  add : D → D → D
  mul : D → D → D
  div : D → D → D
  lt : D → D → Bool
  isZero : D → Bool

/-- What the code takes from the compiler and from the C library: `float` and `double` in memory,
`int_ftoi()`, and `ffint_le_cpu24_ptr()`, which reads 24 bits with their sign or without. -/
structure Lib (D : Type) extends Arith D where
  ldf : Bytes → D
  ldd : Bytes → D
  stf : D → Bytes
  std : D → Bytes
  stf_length : ∀ x, (stf x).length = 4
  std_length : ∀ x, (std x).length = 8
  int_ftoi : D → Int
  cpu24 : Bytes → Int
  cpu24_eq : ∀ b, cpu24 b = le b ∨ cpu24 b = get 3 b

variable {D : Type} (A : Arith D) (L : Lib D)

def pcm_16le_flt (sh : Int) : D := A.mul (A.ofInt sh) (A.lit (1 / 32768))

def pcm_24_flt (n : Int) : D := A.mul (A.ofInt n) (A.lit (1 / 8388608))

def pcm_32_flt (n : Int) : D := A.mul (A.ofInt n) (A.lit (1 / 2147483648))

/-- A fraction of the full scale `max`, limited to it. -/
def pcm_flt (max : Rat) (lo hi : Int) (f : D) : Int :=
  let d := L.mul f (L.lit max)
  if L.lt d (L.lit (-max)) then lo
  else if L.lt (L.lit (max - 1)) d then hi
  else L.int_ftoi d

def pcm_flt_16le (f : D) : Int := pcm_flt L 32768 (-0x8000) 0x7fff f

def pcm_flt_24 (f : D) : Int := pcm_flt L 8388608 (-0x800000) 0x7fffff f

def pcm_flt_32 (d : D) : Int := pcm_flt L 2147483648 (-0x80000000) 0x7fffffff d

def pcm_limf (d : D) : D :=
  if A.lt (A.lit 1) d then A.lit 1
  else if A.lt d (A.lit (-1)) then A.lit (-1)
  else d

/-! ## The conversion of a sample -/

/-- A case of the switch: the bytes from a sample to the next one of the channel, on both sides, and
what is written for a sample. -/
structure Case where
  isz : Nat
  osz : Nat
  f : Bytes → Bytes

/-- The switch of `pcm_convert()`. A `float` that is assigned to a `float` keeps its bits. -/
def switch : Fmt → Fmt → Option Case
  | .pcm8,.pcm8 => some ⟨1,1,id⟩
  | .pcm8,.pcm16 => some ⟨1,2,fun b => put 2 (get 1 b * 0x100)⟩
  | .pcm16,.pcm8 => some ⟨2,1,fun b => put 1 ((get 2 b).tdiv 0x100)⟩
  | .pcm16,.pcm16 => some ⟨2,2,fun b => put 2 (get 2 b)⟩
  | .pcm16,.pcm24 => some ⟨2,3,fun b => int_htol24 (get 2 b * 0x100)⟩
  | .pcm16,.pcm24_4 => some ⟨2,4,fun b => 0 :: int_htol24 (get 2 b * 0x100)⟩
  | .pcm16,.pcm32 => some ⟨2,4,fun b => put 4 (get 2 b * 0x10000)⟩
  | .pcm16,.float32 => some ⟨2,4,fun b => L.stf (pcm_16le_flt L.toArith (get 2 b))⟩
  | .pcm16,.float64 => some ⟨2,8,fun b => L.std (pcm_16le_flt L.toArith (get 2 b))⟩
  | .pcm24,.pcm16 => some ⟨3,2,fun b => put 2 ((L.cpu24 b).tdiv 0x100)⟩
  | .pcm24,.pcm24 => some ⟨3,3,id⟩
  | .pcm24,.pcm24_4 => some ⟨3,4,fun b => 0 :: b⟩
  | .pcm24,.pcm32 => some ⟨3,4,fun b => put 4 (L.cpu24 b * 0x100)⟩
  | .pcm24,.float32 => some ⟨3,4,fun b => L.stf (pcm_24_flt L.toArith (int_ltoh24s b))⟩
  | .pcm24,.float64 => some ⟨3,8,fun b => L.std (pcm_24_flt L.toArith (int_ltoh24s b))⟩
  | .pcm32,.pcm16 => some ⟨4,2,fun b => put 2 (get 4 b)⟩
  | .pcm32,.pcm24 => some ⟨4,3,fun b => int_htol24 ((get 4 b).tdiv 0x100)⟩
  | .pcm32,.pcm24_4 => some ⟨4,4,fun b => 0 :: int_htol24 ((get 4 b).tdiv 0x100)⟩
  | .pcm32,.pcm32 => some ⟨4,4,fun b => put 4 (get 4 b)⟩
  | .pcm32,.float32 => some ⟨4,4,fun b => L.stf (pcm_32_flt L.toArith (get 4 b))⟩
  | .float32,.pcm16 => some ⟨4,2,fun b => put 2 (pcm_flt_16le L (L.ldf b))⟩
  | .float32,.pcm24 => some ⟨4,3,fun b => int_htol24 (pcm_flt_24 L (L.ldf b))⟩
  | .float32,.pcm24_4 => some ⟨4,4,fun b => 0 :: int_htol24 (pcm_flt_24 L (L.ldf b))⟩
  | .float32,.pcm32 => some ⟨4,4,fun b => put 4 (pcm_flt_32 L (L.ldf b))⟩
  | .float32,.float32 => some ⟨4,4,id⟩
  | .float32,.float64 => some ⟨4,8,fun b => L.std (L.ldf b)⟩
  | .float64,.pcm16 => some ⟨8,2,fun b => put 2 (pcm_flt_16le L (L.ldd b))⟩
  | .float64,.pcm24 => some ⟨8,3,fun b => int_htol24 (pcm_flt_24 L (L.ldd b))⟩
  | .float64,.pcm32 => some ⟨8,4,fun b => put 4 (pcm_flt_32 L (L.ldd b))⟩
  | .float64,.float32 => some ⟨8,4,fun b => L.stf (L.ldd b)⟩
  | .float64,.float64 => some ⟨8,8,id⟩
  | _,_ => none

variable {L} {ifmt ofmt : Fmt} {c : Case}

/-- The strides are the sizes of the formats, and a sample of the output's size is written. -/
theorem switch_size (h : switch L ifmt ofmt = some c) :
    c.isz = ifmt.size ∧ c.osz = ofmt.size ∧ ∀ b, b.length = ifmt.size → (c.f b).length = ofmt.size := by
  have hstf := L.stf_length
  have hstd := L.std_length
  cases ifmt <;> cases ofmt <;> first
  | (cases h; done)
  | (obtain rfl := Option.some.inj h
     refine ⟨rfl,rfl,fun b hb => ?_⟩
     simp_all [Fmt.size,pcm_bits,Fmt.code,int_htol24])

theorem switch_same (h : switch L ifmt ifmt = some c) {b : Bytes} (hb : b.length = ifmt.size) :
    c.f b = b := by
  cases ifmt <;> first
  | (cases h; done)
  | (obtain rfl := Option.some.inj h
     first | rfl | exact put_get hb)

/-! ## Integer values -/

def Fmt.isInt : Fmt → Bool
  | .pcm8 | .pcm16 | .pcm24 | .pcm32 | .pcm24_4 => true
  | .float32 | .float64 => false

/-- The bits of an integer sample. -/
def Fmt.width : Fmt → Nat
  | .pcm8 => 8
  | .pcm16 => 16
  | .pcm24 | .pcm24_4 => 24
  | .pcm32 => 32
  | .float32 | .float64 => 0

/-- The value of an integer sample; of a 24-bit sample in 4 bytes the first byte is no part. -/
def Fmt.value : Fmt → Bytes → Int
  | .pcm8 => get 1
  | .pcm16 => get 2
  | .pcm24 => get 3
  | .pcm32 => get 4
  | .pcm24_4 => fun b => get 3 b.tail
  | .float32 | .float64 => fun _ => 0

/-- `y`, of `b` bits, differs by less than one unit from `x`, of `a` bits, times 2^(b-a). -/
def Scaled (a b : Nat) (x y : Int) : Prop := |y * 2 ^ a - x * 2 ^ b| < 2 ^ a

/-- The sample is the one that the conversion from 32 to 16 bits leaves right: the low half, as a signed
number, is the high half, or it is the next number and not 0. -/
def Halves (x : Int) : Prop :=
  x.bmod (2 ^ 16) = x / 2 ^ 16 ∨ x.bmod (2 ^ 16) = x / 2 ^ 16 + 1 ∧ x.bmod (2 ^ 16) ≠ 0

instance (x : Int) : Decidable (Halves x) := inferInstanceAs (Decidable (_ ∨ _))

theorem tdiv_bounds (x : Int) : x - 256 < 256 * x.tdiv 256 ∧ 256 * x.tdiv 256 < x + 256 ∧
    (0 ≤ x → 256 * x.tdiv 256 ≤ x) ∧ (x ≤ 0 → x ≤ 256 * x.tdiv 256) := by
  rcases Int.le_total 0 x with hx | hx
  · rw [Int.tdiv_eq_ediv_of_nonneg hx]
    omega
  · have hneg : x.tdiv 256 = -(-x / 256) := by
      rw [← Int.tdiv_eq_ediv_of_nonneg (by omega : 0 ≤ -x),Int.neg_tdiv,Int.neg_neg]
    rw [hneg]
    omega

theorem scaled_iff {a b : Nat} {x y : Int} :
    Scaled a b x y ↔ x * 2 ^ b - 2 ^ a < y * 2 ^ a ∧ y * 2 ^ a < x * 2 ^ b + 2 ^ a := by
  unfold Scaled
  rw [abs_lt]
  constructor <;> rintro ⟨h₁,h₂⟩ <;> constructor <;> linarith

theorem cpu24_div (b : Bytes) (hb : b.length = 3) :
    get 3 b - 256 < 256 * ((L.cpu24 b).tdiv 256).bmod (256 ^ 2) ∧
      256 * ((L.cpu24 b).tdiv 256).bmod (256 ^ 2) < get 3 b + 256 := by
  have hlt := le_lt b
  rw [hb] at hlt
  rcases L.cpu24_eq b with h | h <;> rw [h]
  · rw [Int.tdiv_eq_ediv_of_nonneg (by omega)]
    unfold get
    rw [Int.bmod_def,Int.bmod_def]
    split <;> split <;> omega
  · have hr := get_range 3 b
    have ht := tdiv_bounds (get 3 b)
    rw [Int.bmod_def]
    split <;> omega

theorem cpu24_mul (b : Bytes) : put 4 (L.cpu24 b * 0x100) = put 4 (get 3 b * 0x100) := by
  rcases L.cpu24_eq b with h | h <;> rw [h]
  refine put_congr ?_
  unfold get
  rw [Int.bmod_def]
  split <;> omega

theorem scaled_up {a b : Nat} {x y : Int} (d : Nat) (hb : b = a + d) (hy : y = x * 2 ^ d) :
    Scaled a b x y := by
  subst hb hy
  unfold Scaled
  rw [show x * 2 ^ d * 2 ^ a - x * 2 ^ (a + d) = 0 by ring,abs_zero]
  exact pow_pos (by decide) a

theorem scaled_down {x y : Int} (b : Nat) (h : x - 256 < 256 * y ∧ 256 * y < x + 256) :
    Scaled (b + 8) b x y := by
  have hpos : (0 : Int) < 2 ^ b := pow_pos (by decide) b
  unfold Scaled
  rw [show y * 2 ^ (b + 8) - x * 2 ^ b = (256 * y - x) * 2 ^ b by ring,abs_mul,abs_of_pos hpos,
    pow_add,mul_comm _ (2 ^ 8)]
  exact mul_lt_mul_of_pos_right (abs_lt.mpr (by omega)) hpos

theorem scaled_low (x : Int) : Scaled 32 16 x (x.bmod (256 ^ 2)) ↔ Halves x := by
  rw [scaled_iff,Halves]
  have hmod := Int.bmod_def x (256 ^ 2)
  rw [show (256 ^ 2 : Nat) = 2 ^ 16 from rfl] at hmod ⊢
  split at hmod <;> omega

/-- Every supported pair of integer formats scales, but for the conversion from 32 to 16 bits, which
leaves the low half. -/
theorem switch_scaled (h : switch L ifmt ofmt = some c) (hi : ifmt.isInt) (ho : ofmt.isInt)
    {b : Bytes} (hb : b.length = ifmt.size) :
    Scaled ifmt.width ofmt.width (ifmt.value b) (ofmt.value (c.f b)) ↔
      (ifmt = .pcm32 → ofmt = .pcm16 → Halves (ifmt.value b)) := by
  have h1 := get_range 1 b
  have h2 := get_range 2 b
  have h3 := get_range 3 b
  have h4 := get_range 4 b
  have d2 := tdiv_bounds (get 2 b)
  have d4 := tdiv_bounds (get 4 b)
  cases ifmt with
  | float32 => cases hi
  | float64 => cases hi
  | pcm24_4 => cases ofmt <;> cases h
  | pcm8 =>
    refine iff_of_true ?_ nofun
    cases ofmt <;> first | (cases h; done) | obtain rfl := Option.some.inj h
    · exact scaled_up 0 rfl (Int.mul_one _).symm
    · exact scaled_up 8 rfl (get_put_of_range (by omega) (by omega))
  | pcm16 =>
    refine iff_of_true ?_ nofun
    cases ofmt <;> first | (cases h; done) | (cases ho; done) | obtain rfl := Option.some.inj h
    · refine scaled_down 8 ?_
      dsimp only [Fmt.value]
      rw [get_put_of_range (by omega) (by omega)]
      exact ⟨d2.1,d2.2.1⟩
    · exact scaled_up 0 rfl ((get_put_of_range h2.1 h2.2).trans (Int.mul_one _).symm)
    · exact scaled_up 8 rfl (get_put_of_range (by omega) (by omega))
    · exact scaled_up 16 rfl (get_put_of_range (by omega) (by omega))
    · exact scaled_up 8 rfl (get_put_of_range (by omega) (by omega))
  | pcm24 =>
    refine iff_of_true ?_ nofun
    cases ofmt <;> first | (cases h; done) | (cases ho; done) | obtain rfl := Option.some.inj h
    · refine scaled_down 16 ?_
      dsimp only [Fmt.value]
      rw [get_put]
      exact cpu24_div b hb
    · exact scaled_up 0 rfl (Int.mul_one _).symm
    · refine scaled_up 8 rfl ?_
      dsimp only [Fmt.value]
      rw [cpu24_mul]
      exact get_put_of_range (by omega) (by omega)
    · exact scaled_up 0 rfl (Int.mul_one _).symm
  | pcm32 =>
    cases ofmt <;> first | (cases h; done) | (cases ho; done) | obtain rfl := Option.some.inj h
    · dsimp only [Fmt.value,Fmt.width]
      rw [get_put]
      exact (scaled_low _).trans ⟨fun hx _ _ => hx,fun hx => hx rfl rfl⟩
    all_goals refine iff_of_true ?_ nofun
    · refine scaled_down 24 ?_
      dsimp only [Fmt.value,int_htol24]
      rw [get_put_of_range (by omega) (by omega)]
      exact ⟨d4.1,d4.2.1⟩
    · exact scaled_up 0 rfl ((get_put_of_range h4.1 h4.2).trans (Int.mul_one _).symm)
    · refine scaled_down 24 ?_
      dsimp only [Fmt.value,int_htol24,List.tail_cons]
      rw [get_put_of_range (by omega) (by omega)]
      exact ⟨d4.1,d4.2.1⟩

theorem cpu24_back (x : Int) (hlo : -(2 ^ 15) ≤ x) (hhi : x < 2 ^ 15) :
    put 2 ((L.cpu24 (int_htol24 (x * 0x100))).tdiv 0x100) = put 2 x := by
  unfold int_htol24
  rcases L.cpu24_eq (put 3 (x * 0x100)) with h | h <;> rw [h]
  · have hle := le_put 3 (x * 0x100)
    rw [Int.tdiv_eq_ediv_of_nonneg (by omega)]
    refine put_congr ?_
    omega
  · rw [get_put_of_range (by omega) (by omega),Int.mul_tdiv_cancel _ (by decide)]

variable {gfmt : Fmt} {c' : Case}

/-- A sample that is converted to a wider format and back is the same sample; by 32 bits, a sample of 16
bits becomes 0. -/
theorem switch_back (h : switch L ifmt gfmt = some c) (h' : switch L gfmt ifmt = some c')
    (hi : ifmt.isInt) (hg : gfmt.isInt) (hw : ifmt.width < gfmt.width) {b : Bytes}
    (hb : b.length = ifmt.size) :
    c'.f (c.f b) = b ↔ (ifmt = .pcm16 → gfmt = .pcm32 → ifmt.value b = 0) := by
  have h1 := get_range 1 b
  have h2 := get_range 2 b
  have h3 := get_range 3 b
  cases ifmt with
  | float32 => cases hi
  | float64 => cases hi
  | pcm24_4 => cases gfmt <;> cases h
  | pcm32 => cases gfmt <;> first | (cases hg; done) | (exact absurd hw (by decide))
  | pcm8 =>
    refine iff_of_true ?_ nofun
    cases gfmt <;> first | (cases h; done) | (exact absurd hw (by decide)) |
      (obtain rfl := Option.some.inj h; obtain rfl := Option.some.inj h')
    dsimp only
    rw [get_put_of_range (by omega) (by omega),Int.mul_tdiv_cancel _ (by decide)]
    exact put_get hb
  | pcm16 =>
    cases gfmt <;> first | (cases h; done) | (cases h'; done) | (cases hg; done) |
      (exact absurd hw (by decide)) |
      (obtain rfl := Option.some.inj h; obtain rfl := Option.some.inj h')
    · refine iff_of_true ?_ nofun
      exact (cpu24_back _ (by omega) (by omega)).trans (put_get hb)
    · dsimp only [Fmt.value]
      rw [get_put_of_range (by omega) (by omega)]
      have hzero : put 2 (get 2 b * 0x10000) = put 2 0 := put_congr (by omega)
      rw [hzero]
      have hback : put 2 (get 2 b) = b := put_get hb
      constructor
      · intro heq _ _
        rw [← heq,get_put_of_range (by decide) (by decide)]
      · intro hx
        rw [← hback,hx rfl rfl]
  | pcm24 =>
    refine iff_of_true ?_ nofun
    cases gfmt <;> first | (cases h; done) | (cases h'; done) | (cases hg; done) |
      (exact absurd hw (by decide)) |
      (obtain rfl := Option.some.inj h; obtain rfl := Option.some.inj h')
    dsimp only
    rw [cpu24_mul,get_put_of_range (by omega) (by omega),Int.mul_tdiv_cancel _ (by decide)]
    exact put_get hb

end Phiola.Pcm
