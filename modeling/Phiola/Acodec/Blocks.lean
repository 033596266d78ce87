import Mathlib.Algebra.Group.Nat.Defs
import Phiola.Framework.Runs

/-!
# Seeking in streams of blocks

The decoders of FLAC, WavPack, ALAC and Musepack after a seek request to sample `s`, with their filters.
`audio.seek` stays set until samples are passed on.
-/

namespace Phiola.Blocks

open Runs

/-- `audio.seek` after a chunk was passed on. -/
def seen (seek : Option Nat) (k : Chunk) : Option Nat := if k.len ≠ 0 then none else seek

/-! ## FLAC and WavPack -/

/-- The start of a block is cut off if the target is inside; `wrap` is what a position is put into. -/
def cut_start (wrap : Nat → Nat) (seek : Option Nat) (x : Nat × Nat) : Chunk :=
  let index := wrap x.1
  match seek with
  | some s =>
    if index < s ∧ s < wrap (index + x.2) then
      let isrc := s - index
      ⟨wrap (index + isrc),x.1 + isrc,x.2 - isrc⟩
    else ⟨index,x.1,x.2⟩
  | none => ⟨index,x.1,x.2⟩

/-- `flac_dec_decode()` with `ffflac_decode()`: positions have 64 bits. -/
def flac_dec_decode (seek : Option Nat) (x : Nat × Nat) : Option Nat × Option Chunk :=
  let k := cut_start (· % 2 ^ 64) seek x
  (seen seek k,some k)

/-- The samples that are cut off at the start of a block: `0` is no target, and the number has 32 bits. -/
def skip (seek_sample : Nat) (x : Nat × Nat) : Nat :=
  if seek_sample ≠ 0 then min ((seek_sample - x.1) % 2 ^ 32) x.2 else 0

/-- `struct mpc_dec` with its `ffmpc`; a `seek_sample` of `0` is no target. -/
structure Mpc where
  cursample : Nat
  seek_sample : Nat
  seek : Option Nat

variable {s q n p b : Nat} {ns : List Nat} {cs : List Chunk} {c : Chunk}

@[simp] theorem seen_none : seen none c = none := by
  rw [seen,ite_self]

theorem seen_pos {seek : Option Nat} (hlen : c.len ≠ 0) : seen seek c = none := by
  rw [seen,if_pos hlen]

/-! ## FLAC -/

/-- The start of the block with the target is cut off, if positions are what they are. -/
theorem cut_start_eq (wrap : Nat → Nat) (hq : q ≤ s) (hs : s < q + n) (hwrap : wrap q = q)
    (hstart : wrap s = s) (hend : q < s → wrap (q + n) = q + n) :
    cut_start wrap (some s) (q,n) = ⟨s,s,q + n - s⟩ := by
  simp only [cut_start,hwrap]
  by_cases hlt : q < s
  · rw [hend hlt,if_pos ⟨hlt,hs⟩,show q + (s - q) = s by omega,hstart]
    congr 1
    omega
  · rw [if_neg (fun h => hlt h.1),show q = s by omega,Nat.add_sub_cancel_left]

section Alac
variable {size total seek_sample : Nat}

theorem skip_eq (s : Nat) (x : Nat × Nat) : skip s x = min ((s - x.1) % 2 ^ 32) x.2 := by
  by_cases h : s = 0
  · rw [skip,if_neg (not_not.mpr h),h]
    simp
  · rw [skip,if_pos h]

/-- The cuts at the start and at the end of a block leave nothing, or the start is cut to the target. -/
def Apart (s total : Nat) (x : Nat × Nat) : Prop :=
  skip s x = min x.2 (total - x.1) ∨ skip s x < min x.2 (total - x.1) ∧ skip s x = s - x.1

instance (s total : Nat) (x : Nat × Nat) : Decidable (Apart s total x) :=
  inferInstanceAs (Decidable (_ ∨ _))

end Alac

/-! ## Musepack -/

/-- The target is kept until a frame with it, and no frame is passed on before. -/
def Pending (s : Nat) (m : Mpc) : Prop :=
  m.seek = some s ∧ m.seek_sample = s ∨ m.seek = none ∧ m.seek_sample = 0 ∧ s ≤ m.cursample

end Phiola.Blocks
