import Phiola.Afilter.Pcm
import Phiola.Framework.Crc

/-!
# The names of sample formats

A name is searched in a table by words: the bytes behind the name that are read with it are masked, and the
byte behind the part of the entry that was compared must be zero.
-/

namespace Phiola.FormatNames

open Crc Pcm

abbrev Chars := List (BitVec 8)

def chars (s : String) : Chars := s.toList.map fun c => BitVec.ofNat 8 c.toNat

/-! ## The search -/

def ff_intmasks : List (BitVec 64) :=
  [0,0xff,0xffff,0xffffff,0xffffffff,0xffffffffff,0xffffffffffff,0xffffffffffffff,0xffffffffffffffff]

/-- A word of `n` bytes, or none where these are not there. -/
def load (n : Nat) (mem : Chars) : Option (BitVec (8 * n)) :=
  if n ≤ mem.length then some (pack (8 * n) (mem.take n)) else none

/-- A loop of `ffs_findarr()` from entry `i` on, with the entries that are left; none for a read outside of the
table. -/
def find_loop {n : Nat} (elsz len : Nat) (imask left : BitVec (8 * n)) : Nat → Nat → Chars → Option (Option Nat)
  | 0,_,_ => some none
  | k + 1,i,ar =>
    match load n ar with
    | none => none
    | some right =>
      if left = right &&& imask then
        match ar[len]? with
        | none => none
        | some c => if c = 0 then some (some i) else find_loop elsz len imask left k (i + 1) (ar.drop elsz)
      else find_loop elsz len imask left k (i + 1) (ar.drop elsz)

/-- One of the two branches of `ffs_findarr()`, for a word of `n` bytes. -/
def find_word (n : Nat) (ar : Chars) (count elsz : Nat) (s : Chars) (len : Nat) : Option (Option Nat) :=
  let imask := (ff_intmasks.getD len 0).setWidth (8 * n)
  match load n s with
  | none => none
  | some left => find_loop elsz len imask (left &&& imask) count 0 ar

/-- `ffs_findarr()`, where `s` is the memory from there: the index, or none for -1. -/
def ffs_findarr (ar : Chars) (count elsz : Nat) (s : Chars) (len : Nat) : Option (Option Nat) :=
  if len ≤ 4 then find_word 4 ar count elsz s len
  else if len ≤ 8 then find_word 8 ar count elsz s len
  else some none

/-- A name in an array of `elsz` characters -/
def field (elsz : Nat) (name : Chars) : Chars := name ++ List.replicate (elsz - name.length) 0

def pcm_fmtstr : List Chars :=
  [chars "float32",chars "float64",chars "int16",chars "int24",chars "int24-4",chars "int32",chars "int8"]

def pcm_fmt : List Fmt := [.float32,.float64,.pcm16,.pcm24,.pcm24_4,.pcm32,.pcm8]

/-- `pcm_str_fmt()`: the format, or none for -1. -/
def pcm_str_fmt (sfmt : Chars) (len : Nat) : Option (Option Fmt) :=
  (ffs_findarr (pcm_fmtstr.flatMap (field 8)) 7 8 sfmt len).map fun r => r.bind fun i => pcm_fmt[i]?

/-! ## Words -/

theorem pack_getLsbD (w : Nat) (bs : Chars) (i : Nat) :
    (pack w bs).getLsbD i = (decide (i < w) && (bs.getD (i / 8) 0).getLsbD (i % 8)) := by
  induction bs generalizing i with
  | nil => simp [pack]
  | cons b bs ih =>
    rw [pack,BitVec.getLsbD_or,BitVec.getLsbD_setWidth,BitVec.getLsbD_shiftLeft,ih]
    by_cases h8 : i < 8
    · simp [h8,Nat.div_eq_of_lt h8,Nat.mod_eq_of_lt h8]
    · obtain ⟨j,rfl⟩ : ∃ j,i = j + 8 := ⟨i - 8,by omega⟩
      have hdiv : (j + 8) / 8 = j / 8 + 1 := by omega
      have hmod : (j + 8) % 8 = j % 8 := by omega
      rw [hdiv,hmod,List.getD_cons_succ,BitVec.getLsbD_of_ge b (j + 8) (by omega)]
      by_cases hj : j + 8 < w
      · simp [hj,show j < w by omega]
      · simp [hj]

theorem ff_intmasks_bit {len : Nat} (h : len ≤ 8) (i : Nat) :
    (ff_intmasks.getD len 0).getLsbD i = decide (i < 8 * len) := by
  have hmask : ∀ len < 9,ff_intmasks.getD len 0 = BitVec.ofNat 64 (2 ^ (8 * len) - 1) := by decide
  rw [hmask len (by omega),BitVec.getLsbD_ofNat,Nat.testBit_two_pow_sub_one]
  by_cases hi : i < 8 * len
  · simp [hi,show i < 64 by omega]
  · simp [hi]

theorem pack_mask {n len : Nat} (bs : Chars) (hn : n ≤ 8) (h : len ≤ n) :
    pack (8 * n) bs &&& (ff_intmasks.getD len 0).setWidth (8 * n) = pack (8 * n) (bs.take len) := by
  apply BitVec.eq_of_getLsbD_eq
  intro i hi
  rw [BitVec.getLsbD_and,BitVec.getLsbD_setWidth,ff_intmasks_bit (by omega),pack_getLsbD,pack_getLsbD]
  by_cases hlt : i < 8 * len
  · have hget : (bs.take len).getD (i / 8) 0 = bs.getD (i / 8) 0 := by
      rw [List.getD_eq_getElem?_getD,List.getD_eq_getElem?_getD,List.getElem?_take_of_lt (by omega)]
    rw [hget]
    simp [hi,hlt]
  · have hget : (bs.take len).getD (i / 8) 0 = 0 := by
      rw [List.getD_eq_getElem?_getD,List.getElem?_eq_none (by rw [List.length_take]; omega)]
      rfl
    rw [hget]
    simp [hlt]

/-! ## What is found -/

variable {n elsz len : Nat} {name rest : Chars} {es : List Chars}

theorem field_length {e : Chars} (h : e.length ≤ elsz) : (field elsz e).length = elsz := by
  rw [field,List.length_append,List.length_replicate]
  omega

theorem field_getElem? {e : Chars} {j : Nat} (hj : j < elsz) (he : e.length ≤ elsz) :
    (field elsz e)[j]? = some (e.getD j 0) := by
  rw [field,List.getD_eq_getElem?_getD]
  by_cases hlt : j < e.length
  · rw [List.getElem?_append_left hlt,List.getElem?_eq_getElem hlt]
    rfl
  · rw [List.getElem?_append_right (by omega),List.getElem?_replicate_of_lt (by omega),
      List.getElem?_eq_none (by omega)]
    rfl

theorem take_field {e : Chars} (hname : 0 ∉ name) (he : e.length < elsz)
    (h : (field elsz e).take name.length = name) : name.length ≤ e.length := by
  by_contra hlt
  have hget : name[e.length]? = some 0 := by
    rw [← h,List.getElem?_take_of_lt (by omega),field_getElem? he (Nat.le_of_lt he),
      List.getD_eq_getElem?_getD,List.getElem?_eq_none (Nat.le_refl _)]
    rfl
  exact hname (List.mem_of_getElem? hget)

/-- The bytes of the name with a zero behind them are the field of the name. -/
theorem field_agrees {e : Chars} (hname : 0 ∉ name) (hzero : 0 ∉ e) (he : e.length < elsz) :
    (field elsz e).take name.length = name ∧ e.getD name.length 0 = 0 ↔ e = name := by
  constructor
  · rintro ⟨htake,hend⟩
    have hle := take_field hname he htake
    have hlen : name.length = e.length := by
      by_contra hne
      rw [List.getD_eq_getElem _ _ (by omega)] at hend
      exact hzero (hend ▸ List.getElem_mem _)
    rw [field,hlen,List.take_left] at htake
    exact htake
  · rintro rfl
    rw [field,List.take_left,List.getD_eq_getElem?_getD,List.getElem?_eq_none (Nat.le_refl _)]
    exact ⟨rfl,rfl⟩

theorem find_loop_eq (hname : 0 ∉ name) (hn : n ≤ 8) (hlen : name.length ≤ n) (helsz : n ≤ elsz)
    (hes : ∀ e ∈ es,0 ∉ e ∧ e.length < elsz) (i : Nat) :
    find_loop elsz name.length ((ff_intmasks.getD name.length 0).setWidth (8 * n)) (pack (8 * n) name)
      es.length i (es.flatMap (field elsz)) = some ((es.idxOf? name).map (· + i)) := by
  induction es generalizing i with
  | nil => rfl
  | cons e es ih =>
    obtain ⟨hzero,he⟩ := hes e List.mem_cons_self
    have hfield := field_length (Nat.le_of_lt he)
    have hload : load n ((e :: es).flatMap (field elsz)) =
        some (pack (8 * n) (((e :: es).flatMap (field elsz)).take n)) := by
      rw [load,if_pos]
      rw [List.flatMap_cons,List.length_append]
      omega
    have hright : pack (8 * n) (((e :: es).flatMap (field elsz)).take n) &&&
        (ff_intmasks.getD name.length 0).setWidth (8 * n) = pack (8 * n) ((field elsz e).take name.length) := by
      rw [pack_mask _ hn hlen,List.take_take,Nat.min_eq_left hlen,List.flatMap_cons,
        List.take_append_of_le_length (by omega)]
    have hrest := ih (fun e' he' => hes e' (List.mem_cons_of_mem _ he')) (i + 1)
    have hdrop : ((e :: es).flatMap (field elsz)).drop elsz = es.flatMap (field elsz) := by
      rw [List.flatMap_cons,List.drop_left' hfield]
    have hnext (hne : e ≠ name) : some ((es.idxOf? name).map (· + (i + 1))) =
        some (((e :: es).idxOf? name).map (· + i)) := by
      rw [List.idxOf?_cons,if_neg (by simpa using hne),Option.map_map]
      congr 2
      funext j
      simp only [Function.comp_apply]
      omega
    rw [List.length_cons,find_loop,hload]
    dsimp only
    rw [hright,hdrop,hrest]
    by_cases htake : (field elsz e).take name.length = name
    · have hle := take_field hname he htake
      have hget : ((e :: es).flatMap (field elsz))[name.length]? = some (e.getD name.length 0) := by
        rw [List.flatMap_cons,List.getElem?_append_left (by omega),field_getElem? (by omega) (Nat.le_of_lt he)]
      rw [htake,if_pos rfl,hget]
      dsimp only
      by_cases hend : e.getD name.length 0 = 0
      · have hname' := (field_agrees hname hzero he).mp ⟨htake,hend⟩
        rw [if_pos hend,hname',List.idxOf?_cons,if_pos (by simp)]
        simp
      · rw [if_neg hend]
        exact hnext fun heq => hend ((field_agrees hname hzero he).mpr heq).2
    · have hword : pack (8 * n) name ≠ pack (8 * n) ((field elsz e).take name.length) := fun heq =>
        htake (pack_inj (by rw [List.length_take]; omega) (by omega) heq).symm
      rw [if_neg hword]
      exact hnext fun heq => htake ((field_agrees hname hzero he).mpr heq).1

/-- In a table of names that are shorter than their fields the search by words finds the first entry that is the
name, and nothing when there is none. It reads nothing outside of the table. -/
theorem ffs_findarr_finds (hes : ∀ e ∈ es,0 ∉ e ∧ e.length < 8) (hname : 0 ∉ name)
    (hrest : 8 ≤ (name ++ rest).length) :
    ffs_findarr (es.flatMap (field 8)) es.length 8 (name ++ rest) name.length = some (es.idxOf? name) := by
  have hword {n : Nat} (hn : n ≤ 8) (hlen : name.length ≤ n) :
      find_word n (es.flatMap (field 8)) es.length 8 (name ++ rest) name.length = some (es.idxOf? name) := by
    rw [find_word,load,if_pos (by omega)]
    dsimp only
    rw [pack_mask _ hn hlen,List.take_take,Nat.min_eq_left hlen,List.take_left,
      find_loop_eq hname hn hlen hn hes 0]
    simp
  rw [ffs_findarr]
  split
  · rename_i h
    exact hword (by omega) h
  · split
    · rename_i h
      exact hword (Nat.le_refl 8) h
    · rename_i h
      rw [List.idxOf?_eq_none_iff.mpr fun hmem => absurd (hes name hmem).2 (by omega)]

theorem ffs_findarr_int24 : ffs_findarr (pcm_fmtstr.flatMap (field 8)) pcm_fmtstr.length 8
    (chars "int24" ++ [0,45,114]) (chars "int24").length = some (pcm_fmtstr.idxOf? (chars "int24")) :=
  ffs_findarr_finds (by decide) (by decide) (by decide)

example : pcm_str_fmt (chars "int24-4" ++ [0]) 7 = some (some .pcm24_4) := by decide

end Phiola.FormatNames
