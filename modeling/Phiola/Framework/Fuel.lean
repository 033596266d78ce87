import Mathlib.Tactic.TypeStar

/-!
# Loops

The body of a loop either goes on from another state or ends the loop with a result. A loop may
not end, so it is run for a number of rounds.
-/

namespace Fuel

variable {σ ρ : Type*} {step : σ → σ ⊕ ρ} {s s' s'' : σ} {r r' : ρ}

def loop (step : σ → σ ⊕ ρ) : Nat → σ → Option ρ
  | 0, _ => none
  | n + 1, s =>
    match step s with
    | .inl s' => loop step n s'
    | .inr r => some r

/-- The loop ends with the result. -/
def Returns (step : σ → σ ⊕ ρ) (s : σ) (r : ρ) : Prop := ∃ n, loop step n s = some r

theorem loop_goes {n : Nat} (h : step s = .inl s') : loop step (n + 1) s = loop step n s' := by
  rw [loop,h]

theorem loop_ends {n : Nat} (h : step s = .inr r) : loop step (n + 1) s = some r := by
  rw [loop,h]

theorem Returns.ends (h : step s = .inr r) : Returns step s r := ⟨1,loop_ends h⟩

theorem loop_succ {n : Nat} (h : loop step n s = some r) : loop step (n + 1) s = some r := by
  induction n generalizing s with
  | zero => cases h
  | succ n ih =>
    cases hs : step s with
    | inl m => exact (loop_goes hs).trans (ih ((loop_goes hs).symm.trans h))
    | inr q => exact (loop_ends hs).trans ((loop_ends hs).symm.trans h)

theorem Returns.next (h : Returns step s r) (hs : step s = .inl s') : Returns step s' r := by
  obtain ⟨n,hn⟩ := h
  cases n with
  | zero => cases hn
  | succ n => exact ⟨n,(loop_goes hs).symm.trans hn⟩

/-- The loop comes from one state to another. -/
def Reaches (step : σ → σ ⊕ ρ) (s s' : σ) : Prop := ∀ r, Returns step s' r → Returns step s r

theorem Reaches.refl (s : σ) : Reaches step s s := fun _ h => h

theorem Reaches.trans (h : Reaches step s s') (h' : Reaches step s' s'') : Reaches step s s'' :=
  fun r hr => h r (h' r hr)

theorem Reaches.goes (h : step s = .inl s') : Reaches step s s' :=
  fun _ ⟨n,hn⟩ => ⟨n + 1,(loop_goes h).trans hn⟩

/-- A state whose next round is the same. -/
theorem Reaches.same (h : step s = step s') : Reaches step s s' := by
  rintro r ⟨n,hn⟩
  cases n with
  | zero => cases hn
  | succ n => exact ⟨n + 1,by rw [← hn,loop,loop,h]⟩

/-- There is one result. -/
theorem Returns.unique (h : Returns step s r) (h' : Returns step s r') : r = r' := by
  obtain ⟨n,hn⟩ := h
  obtain ⟨n',hn'⟩ := h'
  induction n generalizing s n' with
  | zero => cases hn
  | succ n ih =>
    cases n' with
    | zero => cases hn'
    | succ n' =>
      cases hs : step s with
      | inl m => exact ih (loop_goes hs ▸ hn) n' (loop_goes hs ▸ hn')
      | inr q => exact Option.some.inj ((loop_ends hs ▸ hn).symm.trans (loop_ends hs ▸ hn'))

end Fuel
