import Mathlib

-- How computations that may throw compose.
namespace Except

variable {ε α β : Type} {x : Except ε α} {f : α → Except ε β} {a : α} {b : β}

@[simp]
theorem ok_bind : (ok a >>= f) = f a := rfl

@[simp]
theorem error_bind : ((error e : Except ε α) >>= f) = error e := rfl

@[simp]
theorem pure_eq_ok : (pure a : Except ε α) = ok a := rfl

@[simp]
theorem throw_eq_error : (throw e : Except ε α) = error e := rfl

theorem bind_eq_ok : (x >>= f) = ok b ↔ ∃ a, (x = ok a) ∧ (f a = ok b) := by
  cases x
  case error => simp
  case ok => simp

theorem ite_error_eq_ok {c : Prop} [Decidable c] :
    (if c then error e else x) = ok a ↔ ¬c ∧ x = ok a := by
  split
  case isTrue h => simp [h]
  case isFalse h => simp [h]

theorem bind_congr (h : ∀ a, x = ok a → f a = g a) : (x >>= f) = (x >>= g) := by
  cases x
  case error => rfl
  case ok a => exact h a rfl

end Except
