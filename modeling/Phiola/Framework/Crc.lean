import Mathlib.Data.BitVec
import Mathlib.Data.List.Basic

/-!
# Cyclic redundancy checks

A register of `w` bits moves down bit by bit, and a bit that leaves it brings in the polynomial. The bits
of a byte come from the lowest on. The register is linear in what is put into it, so that several bytes can
be looked up in tables at once.
-/

namespace Phiola.Crc

variable {w : Nat} (poly : BitVec w)

/-- One bit leaves the register. -/
def bit (c : BitVec w) : BitVec w :=
  if c.getLsbD 0 then (c >>> 1) ^^^ poly else c >>> 1

def bits : Nat → BitVec w → BitVec w
  | 0,c => c
  | n + 1,c => bits n (bit poly c)

def byte (c : BitVec w) (b : BitVec 8) : BitVec w := bits poly 8 (c ^^^ b.setWidth w)

def bytes (c : BitVec w) (bs : List (BitVec 8)) : BitVec w := bs.foldl (byte poly) c

/-- The bytes as a number, the first one lowest. -/
def pack (w : Nat) : List (BitVec 8) → BitVec w
  | [] => 0
  | b :: bs => b.setWidth w ||| pack w bs <<< 8

@[simp] theorem bits_zero (c : BitVec w) : bits poly 0 c = c := rfl

@[simp] theorem bytes_nil (c : BitVec w) : bytes poly c [] = c := rfl

@[simp] theorem bytes_cons (c : BitVec w) (b : BitVec 8) (bs : List (BitVec 8)) :
    bytes poly c (b :: bs) = bytes poly (byte poly c b) bs := rfl

theorem bytes_append (c : BitVec w) (bs cs : List (BitVec 8)) :
    bytes poly c (bs ++ cs) = bytes poly (bytes poly c bs) cs := List.foldl_append

theorem bits_add (m n : Nat) (c : BitVec w) : bits poly (m + n) c = bits poly n (bits poly m c) := by
  induction m generalizing c with
  | zero => rw [Nat.zero_add,bits_zero]
  | succ m ih =>
    rw [Nat.succ_add]
    exact ih (bit poly c)

/-! ## Linearity -/

theorem xor_twice (a b p : BitVec w) : (a ^^^ p) ^^^ (b ^^^ p) = a ^^^ b := by
  rw [BitVec.xor_assoc a,BitVec.xor_comm b p,← BitVec.xor_assoc p,BitVec.xor_self,BitVec.zero_xor]

theorem bit_xor (a b : BitVec w) : bit poly (a ^^^ b) = bit poly a ^^^ bit poly b := by
  simp only [bit,BitVec.getLsbD_xor,BitVec.ushiftRight_xor_distrib]
  cases a.getLsbD 0 <;> cases b.getLsbD 0
  · simp
  · simp [BitVec.xor_assoc]
  · simp only [Bool.xor_false,if_true,Bool.false_eq_true,if_false]
    rw [BitVec.xor_assoc,BitVec.xor_assoc,BitVec.xor_comm poly]
  · simp [xor_twice]

theorem bits_xor (n : Nat) (a b : BitVec w) : bits poly n (a ^^^ b) = bits poly n a ^^^ bits poly n b := by
  induction n generalizing a b with
  | zero => rfl
  | succ n ih => simp only [bits,bit_xor,ih]

@[simp] theorem bit_zero : bit poly 0#w = 0#w := by simp [bit]

@[simp] theorem bits_zero_right (n : Nat) : bits poly n 0#w = 0#w := by
  induction n with
  | zero => rfl
  | succ n ih => rw [bits,bit_zero,ih]

/-- Bits that are zero only move the others down. -/
theorem bits_shift {n : Nat} {c : BitVec w} (h : ∀ i < n,c.getLsbD i = false) : bits poly n c = c >>> n := by
  induction n generalizing c with
  | zero => simp
  | succ n ih =>
    have h0 : bit poly c = c >>> 1 := by simp [bit,h 0 (Nat.succ_pos n)]
    have hn : ∀ i < n,(c >>> 1).getLsbD i = false := by
      intro i hi
      rw [BitVec.getLsbD_ushiftRight]
      exact h (1 + i) (by omega)
    rw [bits,h0,ih hn,Nat.add_comm,BitVec.shiftRight_add]

/-- The lowest byte of a register. -/
def low (c : BitVec w) : BitVec 8 := c.setWidth 8

theorem split_low (c : BitVec w) : c = (low c).setWidth w ^^^ ((c >>> 8) <<< 8) := by
  apply BitVec.eq_of_getLsbD_eq
  intro i hi
  simp only [low,BitVec.getLsbD_xor,BitVec.getLsbD_setWidth,BitVec.getLsbD_shiftLeft,
    BitVec.getLsbD_ushiftRight,hi,decide_true,Bool.true_and]
  by_cases h8 : i < 8
  · simp [h8]
  · simp [h8,show 8 + (i - 8) = i by omega]

/-- Eight bits and `n` more: those of the lowest byte, and `n` for the bytes above it. -/
theorem bits_split (n : Nat) (c : BitVec w) :
    bits poly (8 + n) c = bits poly (8 + n) ((low c).setWidth w) ^^^ bits poly n (c >>> 8) := by
  have hz : bits poly 8 ((c >>> 8) <<< 8) = c >>> 8 := by
    rw [bits_shift poly (fun i hi => by simp [BitVec.getLsbD_shiftLeft,hi])]
    apply BitVec.eq_of_getLsbD_eq
    intro i hi
    simp only [BitVec.getLsbD_ushiftRight,BitVec.getLsbD_shiftLeft]
    by_cases hb : 8 + i < w
    · simp [hb]
    · simp [hb,BitVec.getLsbD_of_ge c (8 + i) (by omega)]
  calc bits poly (8 + n) c
    _ = bits poly (8 + n) ((low c).setWidth w ^^^ ((c >>> 8) <<< 8)) := by rw [← split_low]
    _ = bits poly (8 + n) ((low c).setWidth w) ^^^ bits poly n (bits poly 8 ((c >>> 8) <<< 8)) := by
      rw [bits_xor,bits_add poly 8 n ((c >>> 8) <<< 8)]
    _ = _ := by rw [hz]

/-- A byte from the table of the bytes, and the register that moved down. -/
theorem byte_table (c : BitVec w) (b : BitVec 8) :
    byte poly c b = bits poly 8 ((low (c ^^^ b.setWidth w)).setWidth w) ^^^ ((c ^^^ b.setWidth w) >>> 8) :=
  bits_split poly 0 (c ^^^ b.setWidth w)

/-! ## Words -/

theorem low_xor (c d : BitVec w) : low (c ^^^ d) = low c ^^^ low d := BitVec.setWidth_xor

/-- The four bytes of a word, each with the bits that follow it. -/
theorem bits_word (poly x : BitVec 32) (n : Nat) :
    bits poly (32 + n) x = bits poly (32 + n) ((low x).setWidth 32) ^^^
      (bits poly (24 + n) ((low (x >>> 8)).setWidth 32) ^^^
        (bits poly (16 + n) ((low (x >>> 16)).setWidth 32) ^^^
          bits poly (8 + n) ((low (x >>> 24)).setWidth 32))) := by
  have h1 := bits_split poly (24 + n) x
  have h2 := bits_split poly (16 + n) (x >>> 8)
  have h3 := bits_split poly (8 + n) (x >>> 16)
  have h4 := bits_split poly n (x >>> 24)
  have h0 : x >>> 32 = 0#32 := BitVec.ushiftRight_eq_zero (Nat.le_refl 32)
  simp only [← Nat.add_assoc,← BitVec.shiftRight_add,Nat.reduceAdd,h0,bits_zero_right,BitVec.xor_zero]
    at h1 h2 h3 h4
  rw [h1,h2,h3,h4]

theorem pack_cons (b : BitVec 8) (bs : List (BitVec 8)) :
    pack w (b :: bs) = b.setWidth w ^^^ pack w bs <<< 8 := by
  apply BitVec.eq_of_getLsbD_eq
  intro i hi
  simp only [pack,BitVec.getLsbD_or,BitVec.getLsbD_xor,BitVec.getLsbD_setWidth,BitVec.getLsbD_shiftLeft]
  by_cases h8 : i < 8
  · simp [h8]
  · simp [BitVec.getLsbD_of_ge b i (by omega)]

theorem pack_above (bs : List (BitVec 8)) {i : Nat} (h : 8 * bs.length ≤ i) :
    (pack w bs).getLsbD i = false := by
  induction bs generalizing i with
  | nil => simp [pack]
  | cons b bs ih =>
    simp only [List.length_cons] at h
    simp only [pack,BitVec.getLsbD_or,BitVec.getLsbD_setWidth,BitVec.getLsbD_shiftLeft,
      BitVec.getLsbD_of_ge b i (by omega),ih (show 8 * bs.length ≤ i - 8 by omega)]
    simp

/-- Bytes that fit into the register can be put into it at once. -/
theorem bytes_pack {bs : List (BitVec 8)} (h : 8 * bs.length ≤ w) (c : BitVec w) :
    bytes poly c bs = bits poly (8 * bs.length) (c ^^^ pack w bs) := by
  induction bs generalizing c with
  | nil => simp [pack]
  | cons b bs ih =>
    simp only [List.length_cons] at h
    have hz : bits poly 8 (pack w bs <<< 8) = pack w bs := by
      rw [bits_shift poly (fun i hi => by simp [BitVec.getLsbD_shiftLeft,hi])]
      apply BitVec.eq_of_getLsbD_eq
      intro i hi
      simp only [BitVec.getLsbD_ushiftRight,BitVec.getLsbD_shiftLeft]
      by_cases hb : 8 + i < w
      · simp [hb]
      · simp [hb,pack_above bs (show 8 * bs.length ≤ i by omega)]
    calc bytes poly c (b :: bs)
      _ = bits poly (8 * bs.length) (byte poly c b ^^^ pack w bs) := by rw [bytes_cons,ih (by omega)]
      _ = bits poly (8 * bs.length) (bits poly 8 ((c ^^^ b.setWidth w) ^^^ pack w bs <<< 8)) := by
        rw [bits_xor poly 8,hz,byte]
      _ = bits poly (8 * (b :: bs).length) (c ^^^ pack w (b :: bs)) := by
        rw [← bits_add,pack_cons,BitVec.xor_assoc,List.length_cons,Nat.mul_succ,Nat.add_comm 8]

/-! ## Nothing is lost -/

theorem pack_inj {bs cs : List (BitVec 8)} (hl : bs.length = cs.length) (hw : 8 * bs.length ≤ w)
    (h : pack w bs = pack w cs) : bs = cs := by
  induction bs generalizing cs with
  | nil => exact (List.length_eq_zero_iff.mp hl.symm).symm
  | cons b bs ih =>
    cases cs with
    | nil => simp at hl
    | cons d cs =>
      simp only [List.length_cons,Nat.add_right_cancel_iff] at hl hw
      have hbit : ∀ i,(pack w (b :: bs)).getLsbD i = (pack w (d :: cs)).getLsbD i := fun i => by rw [h]
      simp only [pack,BitVec.getLsbD_or,BitVec.getLsbD_setWidth,BitVec.getLsbD_shiftLeft] at hbit
      have hb : b = d := by
        apply BitVec.eq_of_getLsbD_eq
        intro i hi
        simpa [hi,show i < w by omega] using hbit i
      have hp : pack w bs = pack w cs := by
        apply BitVec.eq_of_getLsbD_eq
        intro i hi
        by_cases hi8 : 8 + i < w
        · simpa [hi8,show ¬ 8 + i < 8 by omega,BitVec.getLsbD_of_ge b (8 + i) (by omega),
            BitVec.getLsbD_of_ge d (8 + i) (by omega)] using hbit (8 + i)
        · rw [pack_above bs (by omega),pack_above cs (by omega)]
      rw [hb,ih hl (by omega) hp]

variable {poly}

/-- The polynomial has its highest coefficient, so the highest bit tells whether it was brought in. -/
theorem bit_inj (hp : poly.getLsbD (w - 1) = true) {a b : BitVec w} (h : bit poly a = bit poly b) :
    a = b := by
  have htop : ∀ c : BitVec w,(bit poly c).getLsbD (w - 1) = c.getLsbD 0 := by
    intro c
    have hz : (c >>> 1).getLsbD (w - 1) = false := by
      rw [BitVec.getLsbD_ushiftRight]
      exact BitVec.getLsbD_of_ge c _ (by omega)
    by_cases h0 : c.getLsbD 0 = true
    · simp only [bit,h0,if_true,BitVec.getLsbD_xor,hz,hp,Bool.false_xor]
    · simp only [bit,h0,Bool.false_eq_true,if_false,hz]
  have h0 : a.getLsbD 0 = b.getLsbD 0 := by rw [← htop a,← htop b,h]
  have hs : a >>> 1 = b >>> 1 := by
    by_cases ha : a.getLsbD 0 = true
    · have he : (a >>> 1) ^^^ poly = (b >>> 1) ^^^ poly := by simpa [bit,ha,h0 ▸ ha] using h
      simpa using he
    · simpa [bit,ha,h0 ▸ ha] using h
  apply BitVec.eq_of_getLsbD_eq
  intro i hi
  cases i with
  | zero => exact h0
  | succ i =>
    have hi' : (a >>> 1).getLsbD i = (b >>> 1).getLsbD i := by rw [hs]
    simpa [BitVec.getLsbD_ushiftRight,Nat.add_comm] using hi'

theorem bits_inj (hp : poly.getLsbD (w - 1) = true) {n : Nat} {a b : BitVec w}
    (h : bits poly n a = bits poly n b) : a = b := by
  induction n generalizing a b with
  | zero => exact h
  | succ n ih => exact bit_inj hp (ih h)

theorem bytes_inj (hp : poly.getLsbD (w - 1) = true) {bs : List (BitVec 8)} {a b : BitVec w}
    (h : bytes poly a bs = bytes poly b bs) : a = b := by
  induction bs generalizing a b with
  | nil => exact h
  | cons d bs ih =>
    have hx := bits_inj hp (ih h)
    simpa using hx

/-- Bytes that fit into the register are told apart, whatever stands before and after them. -/
theorem burst_inj (hp : poly.getLsbD (w - 1) = true) {pre bs cs post : List (BitVec 8)} {c : BitVec w}
    (hl : bs.length = cs.length) (hw : 8 * bs.length ≤ w)
    (h : bytes poly c (pre ++ bs ++ post) = bytes poly c (pre ++ cs ++ post)) : bs = cs := by
  simp only [bytes_append] at h
  have hm := bytes_inj hp h
  generalize bytes poly c pre = d at hm
  rw [bytes_pack poly hw,bytes_pack poly (by omega),hl] at hm
  have hx := bits_inj hp hm
  exact pack_inj hl hw (by simpa using hx)

end Phiola.Crc
