import Mathlib.Logic.Basic

/-!
# Outcomes of functions that can fail

`Meets E P x` says that `x` either fails with an error that `E` allows or returns a value that
meets `P`. It goes through a sequence of calls with one rule.
-/

namespace Outcome

universe u

variable {ε : Type*} {α β : Type u} {E : ε → Prop} {P Q : α → Prop} {R : β → Prop}

def Meets (E : ε → Prop) (P : α → Prop) : Except ε α → Prop
  | .ok a => P a
  | .error e => E e

theorem Meets.pure {a : α} (h : P a) : Meets E P (Pure.pure a : Except ε α) := h

theorem Meets.bind {x : Except ε α} {f : α → Except ε β} (hx : Meets E P x)
    (hf : ∀ a, P a → Meets E R (f a)) : Meets E R (x >>= f) := by
  cases x with
  | ok a => exact hf a hx
  | error e => exact hx

theorem Meets.bind_pure {x : Except ε α} {f : α → β} (hx : Meets E P x)
    (hf : ∀ a, P a → R (f a)) : Meets E R (x >>= fun a => Pure.pure (f a)) :=
  hx.bind fun a ha => .pure (hf a ha)

theorem Meets.mono {x : Except ε α} (hx : Meets E P x) (h : ∀ a, P a → Q a) : Meets E Q x := by
  cases x with
  | ok a => exact h a hx
  | error e => exact hx

theorem Meets.of_ok {x : Except ε α} (h : Meets E P x) {a : α} (ha : x = .ok a) : P a := by
  subst ha
  exact h

theorem Meets.of_error {x : Except ε α} (h : Meets E P x) {e : ε} (he : x = .error e) : E e := by
  subst he
  exact h

end Outcome
