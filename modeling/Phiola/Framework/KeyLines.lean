import Mathlib.Data.List.Basic
import Mathlib.Data.List.Count

/-!
# Lines with a key and a value

A text has a line for each pair: the key, a separator, the value, and the end of the line. A key has neither
of the two marks, a value may have separators.
-/

namespace KeyLines

variable {α : Type*} [DecidableEq α]

/-- What is before the first `c`, and what is behind it. -/
def split (c : α) : List α → List α × List α
  | [] => ([],[])
  | a :: as => if a = c then ([],as) else (a :: (split c as).1,(split c as).2)

theorem split_length (c a : α) (as : List α) : (split c (a :: as)).2.length ≤ as.length := by
  induction as generalizing a with
  | nil => unfold split; split <;> simp [split]
  | cons b bs ih =>
    unfold split
    split
    · exact Nat.le_refl _
    · exact Nat.le_trans (ih b) (Nat.le_succ _)

/-- The pairs of the lines. -/
def rows (eol sep : α) : List α → List (List α × List α)
  | [] => []
  | a :: as => split sep (split eol (a :: as)).1 :: rows eol sep (split eol (a :: as)).2
termination_by text => text.length
decreasing_by exact Nat.lt_succ_of_le (split_length eol a as)

def line (eol sep : α) (r : List α × List α) : List α := r.1 ++ sep :: r.2 ++ [eol]

variable {eol sep : α}

theorem split_append {c : α} {l : List α} (h : c ∉ l) (rest : List α) : split c (l ++ c :: rest) = (l,rest) := by
  induction l with
  | nil => simp [split]
  | cons a l ih =>
    have ha : a ≠ c := fun e => h (e ▸ List.mem_cons_self)
    have hl : c ∉ l := fun m => h (List.mem_cons_of_mem a m)
    simp [split,ha,ih hl]

theorem rows_line (hne : eol ≠ sep) {r : List α × List α} (hsep : sep ∉ r.1) (hkey : eol ∉ r.1)
    (hval : eol ∉ r.2) (rest : List α) : rows eol sep (line eol sep r ++ rest) = r :: rows eol sep rest := by
  obtain ⟨k,v⟩ := r
  have hend : eol ∉ k ++ sep :: v := by simp [hne,hkey,hval]
  have hline : split eol (line eol sep (k,v) ++ rest) = (k ++ sep :: v,rest) := by
    simpa [line] using split_append hend rest
  obtain ⟨a,as,hs⟩ : ∃ a as, line eol sep (k,v) ++ rest = a :: as :=
    List.exists_cons_of_ne_nil (by simp [line])
  rw [hs] at hline ⊢
  rw [rows,hline,split_append hsep]

/-- The pairs that were written are read. -/
theorem rows_lines (hne : eol ≠ sep) (l : List (List α × List α)) (hsep : ∀ r ∈ l, sep ∉ r.1)
    (hkey : ∀ r ∈ l, eol ∉ r.1) (hval : ∀ r ∈ l, eol ∉ r.2) :
    rows eol sep (l.flatMap (line eol sep)) = l := by
  induction l with
  | nil => simp [rows]
  | cons r l ih =>
    rw [List.flatMap_cons,rows_line hne (hsep r List.mem_cons_self) (hkey r List.mem_cons_self)
      (hval r List.mem_cons_self)]
    rw [ih (fun x hx => hsep x (List.mem_cons_of_mem r hx)) (fun x hx => hkey x (List.mem_cons_of_mem r hx))
      (fun x hx => hval x (List.mem_cons_of_mem r hx))]

theorem count_lines (hne : eol ≠ sep) (l : List (List α × List α)) (hkey : ∀ r ∈ l, eol ∉ r.1)
    (hval : ∀ r ∈ l, eol ∉ r.2) : (l.flatMap (line eol sep)).count eol = l.length := by
  induction l with
  | nil => rfl
  | cons r l ih =>
    have hk := List.count_eq_zero_of_not_mem (hkey r List.mem_cons_self)
    have hv := List.count_eq_zero_of_not_mem (hval r List.mem_cons_self)
    have hl := ih (fun x hx => hkey x (List.mem_cons_of_mem r hx)) (fun x hx => hval x (List.mem_cons_of_mem r hx))
    simp only [List.flatMap_cons,List.count_append,line,List.count_cons,List.count_nil,hk,hv,hl,List.length_cons]
    simp [hne.symm]
    omega

end KeyLines
