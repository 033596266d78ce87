import Mathlib.Algebra.Group.Int.Defs
import Mathlib.Algebra.Group.Nat.Defs
import Mathlib.Logic.Function.Basic
import Phiola.Framework.Overlay

/-!
# Files

What the file filters use of the system: a directory maps names to contents, writing behind
the end of a file leaves zeros in between, and each system call may fail.
-/

namespace Phiola

open Overlay

abbrev Bytes := List UInt8

/-- `uint64` arithmetic wraps. -/
def u64 (n : Nat) : Nat := n % 2 ^ 64

/-- A `uint64` returned as `ffint64`. -/
def i64 (n : Nat) : Int := if n < 2 ^ 63 then n else n - 2 ^ 64

theorem u64_of_lt {n : Nat} (h : n < 2 ^ 64) : u64 n = n := Nat.mod_eq_of_lt h

theorem i64_of_lt {n : Nat} (h : n < 2 ^ 63) : i64 n = n := if_pos h

/-- File offsets are signed: nothing can be written from here on. -/
def offMax : Nat := 2 ^ 63

/-- The byte of a file at an offset, zero behind its end. -/
def byteAt (b : Bytes) (x : Nat) : UInt8 := (b[x]?).getD 0

/-- The contents with zeros up to `n`. -/
def grow (c : Bytes) (n : Nat) : Bytes := c ++ List.replicate (n - c.length) 0

/-- The file after `fffile_writeat()` has written all bytes. -/
def writeat (c : Bytes) (off : Nat) (bs : Bytes) : Bytes :=
  if bs = [] then c else (grow c off).take off ++ bs ++ c.drop (off + bs.length)

/-- The file after `fffile_trunc()`. -/
def trunc (c : Bytes) (n : Nat) : Bytes := (grow c n).take n

/-- What `fffile_readat()` reads. -/
def readat (c : Bytes) (cap off : Nat) : Bytes := (c.drop off).take cap

def writeAll (c : Bytes) (ps : List (Nat × Bytes)) : Bytes :=
  ps.foldl (fun c p => writeat c p.1 p.2) c

theorem length_grow (c : Bytes) (n : Nat) : (grow c n).length = max c.length n := by
  simp only [grow, List.length_append, List.length_replicate]
  omega

theorem byteAt_grow (b : Bytes) (n x : Nat) : byteAt (grow b n) x = byteAt b x := by
  by_cases hx : x < b.length
  · rw [byteAt, grow, List.getElem?_append_left hx, byteAt]
  · have hnone : b[x]? = none := List.getElem?_eq_none (by omega)
    rw [byteAt, grow, List.getElem?_append_right (by omega), byteAt, hnone]
    by_cases hr : x - b.length < n - b.length
    · rw [List.getElem?_replicate_of_lt hr]; rfl
    · rw [List.getElem?_eq_none (by rw [List.length_replicate]; omega)]

theorem length_trunc (c : Bytes) (n : Nat) : (trunc c n).length = n := by
  rw [trunc, List.length_take, length_grow]
  omega

theorem byteAt_trunc {c : Bytes} {n x : Nat} (hx : x < n) : byteAt (trunc c n) x = byteAt c x := by
  rw [byteAt, trunc, List.getElem?_take_of_lt hx]
  exact byteAt_grow c n x

theorem byteAt_writeat (c : Bytes) (off : Nat) (bs : Bytes) (x : Nat) :
    byteAt (writeat c off bs) x = (lay blank off bs x).getD (byteAt c x) := by
  by_cases hbs : bs = []
  · simp [writeat,hbs,blank]
  rw [writeat, if_neg hbs]
  have hhead : ((grow c off).take off).length = off := by
    rw [List.length_take, length_grow]
    omega
  have hmid : ((grow c off).take off ++ bs).length = off + bs.length := by
    rw [List.length_append, hhead]
  by_cases hc : Covers off bs.length x
  · have hin : x - off < bs.length := by obtain ⟨_,_⟩ := hc; omega
    rw [lay_covered hc, byteAt, List.getElem?_append_left (by rw [hmid]; exact hc.2),
      List.getElem?_append_right (by rw [hhead]; exact hc.1), hhead,
      List.getElem?_eq_getElem hin, Option.getD_some, Option.getD_some]
  · rw [lay_outside hc, blank, Option.getD_none]
    by_cases hlow : x < off
    · rw [byteAt, List.getElem?_append_left (by omega), List.getElem?_append_left (by omega),
        List.getElem?_take_of_lt hlow]
      exact byteAt_grow c off x
    · have hhigh : off + bs.length ≤ x := by
        by_contra hlt
        exact hc ⟨by omega, by omega⟩
      rw [byteAt, List.getElem?_append_right (by rw [hmid]; exact hhigh), hmid,
        List.getElem?_drop, byteAt]
      congr 2; omega

/-- A byte of the file after all writes is what is seen there of them, if anything is. -/
theorem byteAt_writeAll (c : Bytes) (ps : List (Nat × Bytes)) (x : Nat) :
    byteAt (writeAll c ps) x = (layAll blank ps x).getD (byteAt c x) := by
  induction ps using List.reverseRecOn with
  | nil => rfl
  | append_singleton ps p ih =>
    have hsnoc : writeAll c (ps ++ [p]) = writeat (writeAll c ps) p.1 p.2 := by simp [writeAll]
    rw [hsnoc, byteAt_writeat, ih, layAll_append, layAll_cons, layAll_nil]
    by_cases h : Covers p.1 p.2.length x
    · have hin : x - p.1 < p.2.length := by obtain ⟨_,_⟩ := h; omega
      rw [lay_covered h, lay_covered h, List.getElem?_eq_getElem hin]
      rfl
    · rw [lay_outside h, lay_outside h]
      rfl

/-- The files of a directory under their names. -/
abbrev Dir := String → Option Bytes

namespace Dir

def set (d : Dir) (name : String) (c : Option Bytes) : Dir := Function.update d name c

@[simp] theorem set_self (d : Dir) (name : String) (c : Option Bytes) :
    d.set name c name = c := by simp [set]

theorem set_other {d : Dir} {name n : String} {c : Option Bytes} (h : n ≠ name) :
    d.set name c n = d n := by simp [set,h]

end Dir

/-- Which system calls succeed as far as the directory does not decide it. Writes are
numbered in the order they are tried. -/
structure Sys where
  openOk : Bool
  writeOk : Nat → Bool
  truncOk : Bool
  closeOk : Bool
  removeOk : Bool
  renameOk : Bool

/-- `fffile_open()` for writing with `FFFILE_CREATE`, or with `FFFILE_CREATENEW` when `new`. -/
def fffileOpen (sys : Sys) (d : Dir) (name : String) (new : Bool) : Option Dir :=
  if !sys.openOk then none
  else match d name with
    | none => some (d.set name (some []))
    | some _ => if new then none else some d

def fffileRemove (sys : Sys) (d : Dir) (name : String) : Dir :=
  if sys.removeOk then d.set name none else d

/-- `fffile_rename()`: the directory and whether it succeeded. -/
def fffileRename (sys : Sys) (d : Dir) (src dst : String) : Dir × Bool :=
  if sys.renameOk ∧ (d src).isSome then ((d.set dst (d src)).set src none, true) else (d, false)

end Phiola
