import Bixd.Basics.RangeSet

open List ClosedInterval

namespace RangeSet

variable {max : Nat} {l is : List ClosedInterval} {x i j : ClosedInterval}

-- The value is in one of the intervals.
def Contains (l : List ClosedInterval) (v : Nat) : Prop :=
  ∃ i ∈ l, i.first ≤ v ∧ v ≤ i.last

-- The values that the result is taken from.
def missing (rs : RangeSet max) (t minVal : Nat) : Set Nat :=
  {v | minVal ≤ v ∧ v < t ∧ ¬Contains rs.intervals v}

-- Nonempty intervals in their order.
structure Sorted (l : List ClosedInterval) : Prop where
  nonempty : ∀ i ∈ l, i.first ≤ i.last
  lt       : l.Pairwise fun i j => i.last < j.first

theorem contains_subtract :
    Contains (x.subtract i) v ↔ (x.first ≤ v ∧ v ≤ x.last) ∧ ¬(i.first ≤ v ∧ v ≤ i.last) := by
  simp only [Contains, subtract]
  split_ifs <;> simp <;> omega

theorem within_subtract (hx : x.first ≤ x.last) (hj : j ∈ x.subtract i) :
    x.first ≤ j.first ∧ j.first ≤ j.last ∧ j.last ≤ x.last := by
  simp only [subtract] at hj
  split_ifs at hj <;> simp at hj <;> grind

theorem contains_flatMap : Contains (l.flatMap (·.subtract i)) v ↔
    Contains l v ∧ ¬(i.first ≤ v ∧ v ≤ i.last) := by
  have he : Contains (l.flatMap (·.subtract i)) v ↔ ∃ x ∈ l, Contains (x.subtract i) v := by
    simp only [Contains, mem_flatMap]
    tauto
  simp only [he, contains_subtract, ← and_assoc, exists_and_right]
  simp only [Contains, and_assoc]

theorem Sorted.subtract (h : Sorted l) (hi : i.first ≤ i.last) :
    Sorted (l.flatMap (·.subtract i)) where
  nonempty j hj := by
    have ⟨x, hx, hj⟩ := mem_flatMap.mp hj
    exact (within_subtract (h.nonempty x hx) hj).2.1
  lt := by
    refine pairwise_flatMap.mpr ⟨fun x _ => ?_, h.lt.imp_of_mem fun hx hy hxy j hj k hk => ?_⟩
    · simp only [ClosedInterval.subtract]
      split_ifs <;> simp
      omega
    · have hj := within_subtract (h.nonempty _ hx) hj
      have hk := within_subtract (h.nonempty _ hy) hk
      omega

theorem foldl_subtract (hn : ∀ i ∈ is, i.first ≤ i.last) (h : Sorted l) :
    let tgt := is.foldl (fun tgt i => tgt.flatMap (·.subtract i)) l
    Sorted tgt ∧ ∀ v, Contains tgt v ↔ Contains l v ∧ ¬Contains is v := by
  induction is generalizing l
  case nil => exact ⟨h, by simp [Contains]⟩
  case cons i is hi =>
    have ⟨hf, hn⟩ := forall_mem_cons.mp hn
    have ⟨hs, hc⟩ := hi hn (h.subtract hf)
    refine ⟨hs, fun v => ?_⟩
    rw [foldl_cons, hc, contains_flatMap, and_assoc, ← not_or]
    simp [Contains]

theorem Sorted.getLast? (h : Sorted l) :
    (∀ v, l.getLast?.map last = some v → IsGreatest {v | Contains l v} v) ∧
      (l.getLast?.map last = none ↔ ∀ v, ¬Contains l v) := by
  obtain rfl | ⟨l, i, rfl⟩ := l.eq_nil_or_concat'
  case inl => simp [Contains]
  have hi : i.first ≤ i.last := h.nonempty i (by simp)
  have hc : Contains (l ++ [i]) i.last := ⟨i, by simp, hi, le_rfl⟩
  rw [getLast?_concat, Option.map_some]
  refine ⟨?_, by simpa using ⟨_, hc⟩⟩
  rintro _ ⟨⟩
  refine ⟨hc, fun v ⟨j, hj, hv⟩ => hv.2.trans ?_⟩
  obtain hj | hj := mem_append.mp hj
  · exact (((pairwise_append.mp h.lt).2.2 j hj i (by simp)).le.trans hi)
  · rw [mem_singleton.mp hj]

theorem getLast?_foldl (a b : Nat) (hn : ∀ i ∈ is, i.first ≤ i.last) :
    let tgt := is.foldl (fun tgt i => tgt.flatMap (·.subtract i))
      (if a ≤ b then [⟨a, b⟩] else [])
    (∀ v, tgt.getLast?.map last = some v →
      IsGreatest {v | a ≤ v ∧ v ≤ b ∧ ¬Contains is v} v) ∧
    (tgt.getLast?.map last = none ↔
      ∀ v, ¬(a ≤ v ∧ v ≤ b ∧ ¬Contains is v)) := by
  have hsort : Sorted (if a ≤ b then [⟨a, b⟩] else []) := by
    split_ifs with hm <;> constructor <;> simp [hm]
  have hv (v : Nat) : Contains (if a ≤ b then [⟨a, b⟩] else []) v ↔
      a ≤ v ∧ v ≤ b := by
    split_ifs <;> simp [Contains]
    omega
  have ⟨hs, hc⟩ := foldl_subtract hn hsort
  simpa only [hc, hv, and_assoc] using hs.getLast?

-- The set is empty, or the largest value is taken for the one before zero.
def Wrong (rs : RangeSet max) (t minVal : Nat) : Prop :=
  rs.intervals = [] ∧ minVal < t ∨ rs.intervals ≠ [] ∧ t = 0 ∧ 0 < minVal ∧
    ∃ v, minVal ≤ v ∧ v ≤ max ∧ ¬Contains rs.intervals v

theorem prevMissing_iff (rs : RangeSet max) (t minVal : Nat) :
    (∀ v, prevMissing rs t minVal = some v → IsGreatest (missing rs t minVal) v) ∧
      (prevMissing rs t minVal = none ↔ ∀ v, v ∉ missing rs t minVal) ↔ ¬Wrong rs t minVal := by
  unfold prevMissing Wrong missing
  by_cases he : rs.intervals = []
  case pos =>
    have hv : (∀ v, minVal ≤ v → ¬v < t) ↔ t ≤ minVal :=
      ⟨fun h => Nat.le_of_not_lt (h minVal le_rfl), fun h v hm => Nat.not_lt.mpr (h.trans hm)⟩
    simpa [he, Contains] using hv
  by_cases ht : t = minVal
  case pos =>
    have hv (v : Nat) : ¬(minVal ≤ v ∧ v < minVal ∧ ¬Contains rs.intervals v) := by omega
    simpa [he, ht, hv] using fun h0 hp => (hp.ne' h0).elim
  rw [if_neg (by simp [he, ht])]
  have ⟨hg, hn⟩ := getLast?_foldl minVal (if t = 0 then max else t - 1)
    fun i hi => (rs.nonempty i hi).1
  simp only [hn, he, ne_eq, not_false_eq_true, true_and, false_and, false_or]
  by_cases h0 : t = 0
  case neg =>
    have hlt (v : Nat) : v < t ↔ v ≤ t - 1 := by omega
    simpa [h0, hlt] using hg
  case pos =>
    subst h0
    have hp := Nat.pos_of_ne_zero (Ne.symm ht)
    have hw : (∃ v, minVal ≤ v ∧ v ≤ max ∧ ¬Contains rs.intervals v) ↔
        ¬∀ v, ¬(minVal ≤ v ∧ v ≤ max ∧ ¬Contains rs.intervals v) :=
      not_forall_not.symm
    simp only [Set.mem_ofPred_eq, Nat.not_lt_zero, false_and, and_false, not_false_eq_true,
      implies_true, iff_true, hp, true_and, hw, not_not]
    refine ⟨And.right, fun h => ⟨fun v hv => ?_, h⟩⟩
    cases (hn.mpr h).symm.trans hv

theorem prevMissing_empty : prevMissing (⟨[], nofun, .nil⟩ : RangeSet 10) 5 0 = none ∧
    IsGreatest (missing (⟨[], nofun, .nil⟩ : RangeSet 10) 5 0) 4 := by
  refine ⟨rfl, by simp [missing, Contains], fun v hv => ?_⟩
  exact Nat.le_of_lt_succ hv.2.1

end RangeSet
