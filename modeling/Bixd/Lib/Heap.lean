import Mathlib

abbrev Addr := Nat

-- A heap of cells. The addresses below `next` are the allocated ones. What a cell at an address
-- from `next` on holds is of no interest, since no pointer leads there.
structure Heap (α : Type _) where
  cells : Addr → α
  next  : Addr

namespace Heap

variable {α : Type _} {h : Heap α}

def get (h : Heap α) (a : Addr) : α :=
  h.cells a

def set (h : Heap α) (a : Addr) (x : α) : Heap α :=
  { h with cells := Function.update h.cells a x }

def modify (h : Heap α) (a : Addr) (f : α → α) : Heap α :=
  h.set a (f (h.get a))

def alloc (h : Heap α) (x : α) : Heap α where
  cells := Function.update h.cells h.next x
  next  := h.next + 1

@[simp]
theorem get_set_self : (h.set a x).get a = x := by
  simp [get, set]

@[simp]
theorem get_set_ne (hn : b ≠ a) : (h.set a x).get b = h.get b := by
  simp [get, set, hn]

@[simp]
theorem next_set : (h.set a x).next = h.next :=
  rfl

@[simp]
theorem get_modify_self : (h.modify a f).get a = f (h.get a) := by
  simp [modify]

@[simp]
theorem get_modify_ne (hn : b ≠ a) : (h.modify a f).get b = h.get b := by
  simp [modify, hn]

@[simp]
theorem next_modify : (h.modify a f).next = h.next :=
  rfl

@[simp]
theorem get_alloc_self : (h.alloc x).get h.next = x := by
  simp [get, alloc]

@[simp]
theorem get_alloc_ne (hn : b ≠ h.next) : (h.alloc x).get b = h.get b := by
  simp [get, alloc, hn]

theorem get_alloc_lt (hl : b < h.next) : (h.alloc x).get b = h.get b :=
  get_alloc_ne (Nat.ne_of_lt hl)

@[simp]
theorem next_alloc : (h.alloc x).next = h.next + 1 :=
  rfl

-- `Frame W h₁ h₂` says that `h₂` comes from `h₁` by writing to `W` and by allocating.
structure Frame (W : Set Addr) (h₁ h₂ : Heap α) : Prop where
  next_le : h₁.next ≤ h₂.next
  get_eq  : ∀ a, (a < h₁.next) → (a ∉ W) → h₂.get a = h₁.get a

namespace Frame

theorem refl : Frame W h h where
  next_le     := le_rfl
  get_eq _ _ _ := rfl

theorem mono (f : Frame V h₁ h₂) (hs : V ⊆ W) : Frame W h₁ h₂ where
  next_le       := f.next_le
  get_eq a hl hn := f.get_eq a hl (fun hm => hn (hs hm))

theorem trans (f₁ : Frame W h₁ h₂) (f₂ : Frame V h₂ h₃) (hs : ∀ a ∈ V, a ∈ W ∨ h₁.next ≤ a) :
    Frame W h₁ h₃ where
  next_le := f₁.next_le.trans f₂.next_le
  get_eq a hl hn := by
    have hn₂ : a ∉ V := fun hm => (hs a hm).elim hn (Nat.not_le_of_lt hl)
    rw [f₂.get_eq a (hl.trans_le f₁.next_le) hn₂, f₁.get_eq a hl hn]

theorem trans' (f₁ : Frame W h₁ h₂) (f₂ : Frame W h₂ h₃) : Frame W h₁ h₃ :=
  f₁.trans f₂ (fun _ => .inl)

theorem set (hm : a ∈ W) : Frame W h (h.set a x) where
  next_le       := le_rfl
  get_eq _ _ hn := get_set_ne (fun he => hn (he ▸ hm))

theorem modify (hm : a ∈ W) : Frame W h (h.modify a f) :=
  set hm

theorem alloc : Frame W h (h.alloc x) where
  next_le       := Nat.le_succ _
  get_eq _ hl _ := get_alloc_lt hl

end Frame
end Heap
