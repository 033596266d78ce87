import Mathlib.Algebra.BigOperators.Group.Finset.Basic
import Mathlib.Algebra.Order.BigOperators.Group.Finset

/-!
# Counting over numbered cells

A store keeps its objects in numbered cells. What all cells together hold is a sum over the
numbers in use, and an operation changes one cell or adds one.
-/

namespace Cells

open Finset

/-- Two counts that agree outside of one cell differ by what that cell holds. -/
theorem sum_change {n i : Nat} (hi : i < n) {f g : Nat → Nat} (h : ∀ x, x ≠ i → g x = f x) :
    ∑ x ∈ range n, g x + f i = ∑ x ∈ range n, f x + g i := by
  have hrest : ∑ x ∈ (range n).erase i, g x = ∑ x ∈ (range n).erase i, f x :=
    sum_congr rfl fun x hx => h x (ne_of_mem_erase hx)
  have hf := add_sum_erase (range n) f (mem_range.mpr hi)
  have hg := add_sum_erase (range n) g (mem_range.mpr hi)
  omega

theorem le_sum {n i : Nat} (hi : i < n) (f : Nat → Nat) : f i ≤ ∑ x ∈ range n, f x :=
  single_le_sum (fun _ _ => Nat.zero_le _) (mem_range.mpr hi)

end Cells
