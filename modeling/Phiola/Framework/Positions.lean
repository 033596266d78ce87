import Mathlib.Data.List.InsertIdx

/-!
# Positions in a list that is edited

Where an element stands after another one was inserted or removed.
-/

namespace Positions

variable {α : Type*} {l : List α} {i p' : Nat} {a x : α}

/-- An insertion moves what stands at its position and behind it. -/
theorem insertIdx_eq_some (hi : i ≤ l.length) (hx : x ≠ a) :
    (l.insertIdx i a)[p']? = some x ↔ ∃ p, l[p]? = some x ∧ p' = if p < i then p else p + 1 := by
  rw [List.getElem?_insertIdx]
  constructor
  · intro h
    split at h
    · rename_i hlt
      exact ⟨p',h,by rw [if_pos hlt]⟩
    · split at h
      · rw [if_pos (by omega)] at h
        exact absurd (Option.some.inj h).symm hx
      · exact ⟨p' - 1,h,by rw [if_neg (by omega)]; omega⟩
  · rintro ⟨p,hp,rfl⟩
    by_cases hlt : p < i
    · simp only [if_pos hlt]
      exact hp
    · rw [if_neg hlt,if_neg (by omega),if_neg (by omega)]
      exact hp

/-- A removal moves what stands behind its position. -/
theorem eraseIdx_eq_some :
    (l.eraseIdx i)[p']? = some x ↔
      ∃ p, p ≠ i ∧ l[p]? = some x ∧ p' = if p < i then p else p - 1 := by
  rw [List.getElem?_eraseIdx]
  constructor
  · intro h
    split at h
    · rename_i hlt
      exact ⟨p',by omega,h,by rw [if_pos hlt]⟩
    · exact ⟨p' + 1,by omega,h,by rw [if_neg (by omega)]; omega⟩
  · rintro ⟨p,hne,hp,rfl⟩
    by_cases hlt : p < i
    · simp only [if_pos hlt]
      exact hp
    · rw [if_neg hlt,if_neg (by omega),show p - 1 + 1 = p by omega]
      exact hp

end Positions
