import Bixd.Lib.Except

-- Postconditions of computations that may throw: what holds of the value that is returned, and
-- which errors may be thrown.
namespace Except

variable {ε α β : Type}

def Yields (E : ε → Prop) (P : α → Prop) : Except ε α → Prop
  | .ok a    => P a
  | .error e => E e

@[simp]
theorem yields_ok : Yields E P (ok a) ↔ P a :=
  Iff.rfl

@[simp]
theorem yields_error : Yields E P (error e : Except ε α) ↔ E e :=
  Iff.rfl

theorem Yields.imp (h : Yields E P x) (hi : ∀ a, P a → Q a) : Yields E Q x := by
  cases x
  case ok a => exact hi a h
  case error e => exact h

theorem Yields.bind (h : Yields E P x) (hf : ∀ a, P a → Yields E R (f a)) :
    Yields E R (x >>= f) := by
  cases x
  case ok a => exact hf a h
  case error e => exact h

theorem Yields.of_eq_ok (h : Yields E P x) (hx : x = ok a) : P a := by
  subst hx
  exact h

theorem Yields.of_eq_error (h : Yields E P x) (hx : x = error e) : E e := by
  subst hx
  exact h

end Except
