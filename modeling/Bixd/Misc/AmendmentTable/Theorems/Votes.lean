import Bixd.Misc.AmendmentTable

open List

namespace AmendmentSet

variable {rules : Rules} {valSet : List STValidation} {a : UInt256}

-- How many trusted validations vote for an amendment, and how many there are.
def supporters (valSet : List STValidation) (a : UInt256) : Nat :=
  valSet.countP fun val => val.isTrusted ∧ a ∈ val.amendments.getD []

def trusted (valSet : List STValidation) : Nat :=
  valSet.countP (·.isTrusted)

-- No trusted validation lists the amendment more than once.
def ListedOnce (valSet : List STValidation) (a : UInt256) : Prop :=
  ∀ val ∈ valSet, val.isTrusted → (val.amendments.getD []).count a ≤ 1

theorem countVotes_getD (votes : UInt256 → Option Nat) (choices : List UInt256) (a : UInt256) :
    (countVotes votes choices a).getD 0 = (votes a).getD 0 + choices.count a := by
  induction choices generalizing votes
  case nil => rfl
  case cons b choices hi =>
    rw [countVotes, hi]
    by_cases h : a = b
    case pos =>
      subst h
      rw [Function.update_self, count_cons_self, Option.getD_some]
      omega
    case neg => rw [Function.update_of_ne h, count_cons_of_ne (Ne.symm h)]

theorem foldl_countValidation (valSet : List STValidation) (s : (UInt256 → Option Nat) × Nat)
    (a : UInt256) :
    ((valSet.foldl countValidation s).1 a).getD 0 = (s.1 a).getD 0 +
      (valSet.map fun val => if val.isTrusted then (val.amendments.getD []).count a else 0).sum ∧
    (valSet.foldl countValidation s).2 = s.2 + trusted valSet := by
  induction valSet generalizing s
  case nil => exact ⟨rfl, rfl⟩
  case cons val valSet hi =>
    have ⟨hv, ht⟩ := hi (countValidation s val)
    rw [foldl_cons, hv, ht, map_cons, sum_cons, trusted, trusted, countP_cons]
    by_cases h : val.isTrusted
    case pos =>
      simp only [countValidation, h, if_true, countVotes_getD]
      omega
    case neg =>
      simp only [countValidation, h]
      simp

theorem votes_make : (make rules valSet).votes a =
    (valSet.map fun val => if val.isTrusted then (val.amendments.getD []).count a else 0).sum := by
  have h := (foldl_countValidation valSet (fun _ => none, 0) a).left
  exact h.trans (Nat.zero_add _)

theorem trustedValidations_make : (make rules valSet).trustedValidations_ = trusted valSet :=
  (foldl_countValidation valSet (fun _ => none, 0) 0).right.trans (Nat.zero_add _)

theorem supporters_cons (val : STValidation) : supporters (val :: valSet) a =
    supporters valSet a + if val.isTrusted ∧ a ∈ val.amendments.getD [] then 1 else 0 := by
  simp only [supporters, countP_cons, decide_eq_true_eq]

theorem supporters_le_votes : supporters valSet a ≤ (make rules valSet).votes a := by
  rw [votes_make]
  induction valSet
  case nil => exact Nat.le_refl 0
  case cons val valSet hi =>
    rw [supporters_cons, map_cons, sum_cons]
    by_cases ht : val.isTrusted
    case neg => simpa [ht] using hi
    by_cases ha : a ∈ val.amendments.getD []
    case neg => simp only [ht, ha]; simp only [and_false, if_false]; omega
    have hc := count_pos_iff.mpr ha
    simp only [ht, ha, and_self, if_true]
    omega

theorem votes_eq_iff : (make rules valSet).votes a = supporters valSet a ↔ ListedOnce valSet a := by
  induction valSet
  case nil => exact ⟨fun _ => nofun, fun _ => rfl⟩
  case cons val valSet hi =>
    have hle : supporters valSet a ≤ (make rules valSet).votes a := supporters_le_votes
    simp only [votes_make] at hi hle ⊢
    rw [supporters_cons, map_cons, sum_cons, ListedOnce, forall_mem_cons]
    change _ ↔ _ ∧ ListedOnce valSet a
    rw [← hi]
    by_cases ht : val.isTrusted
    case neg => simp [ht]
    by_cases ha : a ∈ val.amendments.getD []
    case neg =>
      have hc := count_eq_zero.mpr ha
      simp only [ht, ha, hc]
      simp
    case pos =>
      have hc := count_pos_iff.mpr ha
      simp only [ht, ha, and_self, if_true, forall_const]
      omega

theorem threshold_lt_votes (hr : rules .fixAmendmentMajorityCalc = true)
    (hn : trusted valSet ≠ 1) (hp : (make rules valSet).passes a) :
    trusted valSet * 80 / 100 < (make rules valSet).votes a := by
  have ht : (make rules valSet).threshold_ = max 1 (trusted valSet * 4 / 5) := by
    have h : (make rules valSet).trustedValidations_ = trusted valSet := trustedValidations_make
    rw [← h]
    simp only [make, hr]
    rfl
  have hr' : (make rules valSet).rules_ = rules := rfl
  unfold passes at hp
  unfold votes
  split at hp
  case h_1 => cases hp
  case h_2 votes hv =>
    rw [hr', hr, trustedValidations_make] at hp
    simp only [hn, Bool.not_true, Bool.false_eq_true, or_self, if_false, ht] at hp
    have hlt := of_decide_eq_true hp
    rw [hv, Option.getD_some]
    omega

-- Validators have one vote each exactly if they list the amendment once. An amendment that passes
-- then has the support of more than four fifths of them.
theorem one_vote_each_iff : (((make rules valSet).votes a = supporters valSet a) ∧
    (rules .fixAmendmentMajorityCalc = true → 2 ≤ trusted valSet → (make rules valSet).passes a →
      trusted valSet * 80 / 100 < supporters valSet a)) ↔ ListedOnce valSet a := by
  constructor
  case mp => exact fun h => votes_eq_iff.mp h.left
  intro h
  have hv : (make rules valSet).votes a = supporters valSet a := votes_eq_iff.mpr h
  refine ⟨hv, fun hr hn hp => ?_⟩
  rw [← hv]
  exact threshold_lt_votes hr (by omega) hp

-- One of five validators lists an amendment five times, which passes.
theorem passes_of_repeated_votes :
    ∃ valSet a, (supporters valSet a = 1) ∧ (trusted valSet = 5) ∧
      ((make (fun _ => true) valSet).votes a = 5) ∧ (make (fun _ => true) valSet).passes a :=
  ⟨⟨true, some [1, 1, 1, 1, 1]⟩ :: replicate 4 ⟨true, none⟩, 1, by decide⟩

end AmendmentSet
