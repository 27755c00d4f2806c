import Mathlib

open List

-- Iterators over a list without duplicates, as the elements that they point to.

namespace Position

variable {α : Type} [DecidableEq α] {l l' : List α}

def «from» (l : List α) (a : α) : List α :=
  l.dropWhile (· ≠ a)

-- What is left of a list from a position on, where no position is the end of the list.
def rest (l : List α) : Option α → List α
  | none   => []
  | some a => «from» l a

def next (l : List α) (a : α) : Option α :=
  («from» l a).tail.head?

theorem from_cons_self (a : α) (l : List α) : «from» (a :: l) a = a :: l := by
  simp [«from»]

theorem from_cons_of_ne (h : b ≠ a) (l : List α) : «from» (b :: l) a = «from» l a := by
  simp [«from», h]

theorem from_sublist (l : List α) (a : α) : («from» l a).Sublist l :=
  (dropWhile_suffix _).sublist

theorem rest_sublist (l : List α) (o : Option α) : (rest l o).Sublist l := by
  cases o
  case none => exact nil_sublist l
  case some a => exact from_sublist l a

theorem exists_from (h : a ∈ l) : ∃ t, «from» l a = a :: t := by
  induction l
  case nil => cases h
  case cons b l hi =>
    by_cases hb : b = a
    case pos => exact ⟨l, hb ▸ from_cons_self b l⟩
    case neg =>
      have ⟨t, ht⟩ := hi ((mem_cons.mp h).resolve_left (Ne.symm hb))
      exact ⟨t, (from_cons_of_ne hb l).trans ht⟩

theorem from_eq_nil (h : a ∉ l) : «from» l a = [] := by
  rw [«from», dropWhile_eq_nil_iff]
  intro b hb
  simpa using fun he : b = a => h (he ▸ hb)

theorem from_sublist_from (h : l'.Sublist l) (hn : l.Nodup) (ha : a ∈ l') :
    («from» l' a).Sublist («from» l a) := by
  induction h
  case slnil => cases ha
  case cons l' l b hs hi =>
    have hb : b ≠ a := by
      rintro rfl
      exact (nodup_cons.mp hn).1 (hs.subset ha)
    rw [from_cons_of_ne hb]
    exact hi (nodup_cons.mp hn).2 ha
  case cons_cons l' l b hs hi =>
    by_cases hb : b = a
    case pos =>
      subst hb
      rw [from_cons_self, from_cons_self]
      exact hs.cons_cons b
    case neg =>
      rw [from_cons_of_ne hb, from_cons_of_ne hb]
      exact hi (nodup_cons.mp hn).2 ((mem_cons.mp ha).resolve_left (Ne.symm hb))

theorem from_trans (hn : l.Nodup) (h : «from» l a = a :: t) (hb : b ∈ t) :
    «from» l b = «from» t b := by
  induction l
  case nil => cases h
  case cons c l hi =>
    have ⟨hc, hn⟩ := nodup_cons.mp hn
    by_cases hca : c = a
    case pos =>
      subst hca
      rw [from_cons_self] at h
      cases h
      have hcb : c ≠ b := by
        rintro rfl
        exact hc hb
      exact from_cons_of_ne hcb t
    case neg =>
      rw [from_cons_of_ne hca] at h
      have hcb : c ≠ b := by
        rintro rfl
        exact hc ((from_sublist l a).subset (h ▸ mem_cons_of_mem a hb))
      rw [from_cons_of_ne hcb]
      exact hi hn h

theorem rest_next (hn : l.Nodup) (a : α) : rest l (next l a) = («from» l a).tail := by
  unfold next
  by_cases ha : a ∈ l
  case pos =>
    have ⟨t, ht⟩ := exists_from ha
    rw [ht, tail_cons]
    cases t
    case nil => rfl
    case cons b t => rw [head?_cons, rest, from_trans hn ht mem_cons_self, from_cons_self]
  case neg =>
    rw [from_eq_nil ha]
    rfl

theorem mem_of_next (h : next l a = some b) : b ∈ l :=
  (from_sublist l a).subset (mem_of_mem_tail (mem_of_mem_head? h))

theorem next_ne (hn : l.Nodup) (h : next l a = some b) : b ≠ a := by
  have hb := mem_of_next h
  rintro rfl
  have ⟨t, ht⟩ := exists_from hb
  have hnt : (b :: t).Nodup := ht ▸ hn.sublist (from_sublist l b)
  rw [next, ht] at h
  exact (nodup_cons.mp hnt).1 (mem_of_mem_head? h)

theorem mem_from_next (hn : l.Nodup) (h : next l a = some b) (hc : c ∈ («from» l a).tail) :
    c ∈ «from» l b := by
  rw [← rest_next hn a, h] at hc
  exact hc

theorem self_notMem_tail (hn : l.Nodup) (a : α) : a ∉ («from» l a).tail := by
  intro h
  have ha : a ∈ l := (from_sublist l a).subset (mem_of_mem_tail h)
  have ⟨t, ht⟩ := exists_from ha
  have hnt : (a :: t).Nodup := ht ▸ hn.sublist (from_sublist l a)
  rw [ht] at h
  exact (nodup_cons.mp hnt).1 h

theorem mem_tail_of_ne (ha : a ∈ l) (h : b ∈ «from» l a) (hb : b ≠ a) :
    b ∈ («from» l a).tail := by
  have ⟨t, ht⟩ := exists_from ha
  rw [ht] at h ⊢
  exact (mem_cons.mp h).resolve_left hb

theorem mem_tail_or (ha : a ∈ l) (hb : b ∈ l) (hne : a ≠ b) :
    b ∈ («from» l a).tail ∨ a ∈ («from» l b).tail := by
  induction l
  case nil => cases ha
  case cons c l hi =>
    by_cases hca : c = a
    case pos =>
      subst hca
      rw [from_cons_self]
      exact .inl ((mem_cons.mp hb).resolve_left (Ne.symm hne))
    case neg =>
      by_cases hcb : c = b
      case pos =>
        subst hcb
        rw [from_cons_self c]
        exact .inr ((mem_cons.mp ha).resolve_left hne)
      case neg =>
        rw [from_cons_of_ne hca, from_cons_of_ne hcb]
        exact hi ((mem_cons.mp ha).resolve_left (Ne.symm hca))
          ((mem_cons.mp hb).resolve_left (Ne.symm hcb))

theorem rel_of_mem_tail (hR : l.Pairwise R) (h : b ∈ («from» l a).tail) : R a b := by
  have ha : a ∈ l := by
    by_contra ha
    rw [from_eq_nil ha] at h
    cases h
  have ⟨t, ht⟩ := exists_from ha
  have hs := hR.sublist (from_sublist l a)
  rw [ht] at h hs
  exact (pairwise_cons.mp hs).1 b h

end Position
