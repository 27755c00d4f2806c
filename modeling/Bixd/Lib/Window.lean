import Mathlib

open List

-- The values of a sequence at consecutive indices.

variable {α : Type*}

def window (H : Nat → α) (a c : Nat) : List α :=
  (List.range' a c).map H

namespace window

@[simp]
theorem zero : window H a 0 = [] :=
  rfl

@[simp]
theorem length : (window H a c).length = c := by
  rw [window, length_map, length_range']

theorem ne_nil (h : c ≠ 0) : window H a c ≠ [] := by
  rwa [ne_eq, ← length_eq_zero_iff, length]

theorem concat : window H a c ++ [H (a + c)] = window H a (c + 1) := by
  rw [window, window, range'_concat, Nat.one_mul, map_append, map_singleton]

theorem drop_one : (window H a (c + 1)).drop 1 = window H (a + 1) c := by
  rfl

theorem congr (h : ∀ i, a ≤ i → i < a + c → H i = H' i) : window H a c = window H' a c := by
  refine map_congr_left fun i hi => ?_
  have ⟨hle, hlt⟩ := mem_range'_1.mp hi
  exact h i hle hlt

theorem getElem?_sub (hd : d ≠ 0) (h : d ≤ c) : (window H a c)[c - d]? = some (H (a + c - d)) := by
  have hlt : c - d < c := by omega
  rw [window, getElem?_map, getElem?_range' hlt, Option.map_some, Nat.one_mul, Nat.add_sub_assoc h]

end window
