import Bixd.Misc.LoadFeeTrack

namespace LoadFeeTrack

theorem lowestTerms_spec (a : Nat) (hb : 0 < b) : let r := lowestTerms a b
    (0 < r.2) ∧ (0 < a → 0 < r.1) ∧ ∀ x, x * r.1 / r.2 = x * a / b := by
  have hg := Nat.gcd_pos_of_pos_right a hb
  have ⟨a', ha⟩ := Nat.gcd_dvd_left a b
  have ⟨b', hb'⟩ := Nat.gcd_dvd_right a b
  rw [lowestTerms, if_pos hg.ne']
  refine ⟨Nat.div_pos (Nat.gcd_le_right a hb) hg, fun h => Nat.div_pos (Nat.gcd_le_left b h) hg,
    fun x => ?_⟩
  generalize a.gcd b = g at hg ha hb'
  rw [ha, hb', Nat.mul_div_cancel_left _ hg, Nat.mul_div_cancel_left _ hg, mul_left_comm,
    Nat.mul_div_mul_left _ _ hg]

theorem reduce_spec (fee baseFee : Nat) (hf : 0 < factor) (hd : 0 < den) :
    let r := reduce fee baseFee factor den
    (0 < r.2.2.1) ∧ (0 < r.2.2.2) ∧
      (r.1 * r.2.1 * r.2.2.1 / r.2.2.2 = fee * baseFee * factor / den) := by
  have ⟨h₁, _, e₁⟩ := lowestTerms_spec fee hd
  have ⟨h₂, _, e₂⟩ := lowestTerms_spec baseFee h₁
  have ⟨h₃, p₃, e₃⟩ := lowestTerms_spec factor h₂
  refine ⟨p₃ hf, h₃, (e₃ _).trans ?_⟩
  rw [mul_right_comm]
  refine (e₂ _).trans ?_
  rw [mul_assoc, mul_comm]
  refine (e₁ _).trans ?_
  rw [mul_comm, mul_comm factor, mul_assoc]

theorem mulDiv_eq (value : Nat) (hm : mul ≤ maxAmount) (hd : 0 < div) :
    mulDiv value mul div =
      if value * mul / div > maxAmount then (false, maxAmount) else (true, value * mul / div) := by
  unfold mulDiv
  split
  case isTrue h => rw [h, Nat.mul_div_cancel_left _ hd, if_neg hm.not_gt]
  case isFalse =>
    split
    case isTrue h => rw [h, Nat.mul_div_cancel _ hd]
    case isFalse => rfl

theorem scale_eq (fee baseFee : Nat) (hf : 0 < factor) (hd : 0 < den) :
    scale fee baseFee factor den =
      let exact := fee * baseFee * factor / den
      if maxAmount < min fee baseFee * factor ∨ maxAmount < exact then none else some exact := by
  have hswap : (if fee < baseFee then (baseFee, fee) else (fee, baseFee)) =
      (max fee baseFee, min fee baseFee) := by
    split <;> simp_all [le_of_lt]
  simp only [scale, hswap, gt_iff_lt, Nat.div_lt_iff_lt_mul hf]
  by_cases hm : maxAmount < min fee baseFee * factor
  case pos => rw [if_pos hm, if_pos (.inl hm)]
  case neg =>
    rw [if_neg hm, mulDiv_eq _ (not_lt.mp hm) hd, ← mul_assoc, max_mul_min]
    split <;> simp_all

theorem feeFactor_pos (t : LoadFeeTrack) (bUnlimited : Bool) (h : 0 < t.localTxnLoadFee) :
    0 < (t.feeFactor bUnlimited).toNat := by
  have hmax : 0 < t.getScalingFactors.1.toNat := by
    have := UInt32.lt_iff_toNat_lt.mp h
    change 0 < (ite _ _ _ : UInt32).toNat
    split
    case isTrue hle => exact this.trans_le (UInt32.le_iff_toNat_le.mp hle)
    case isFalse => exact this
  unfold feeFactor
  generalize t.getScalingFactors = r at hmax
  dsimp only
  split
  case isTrue hc => simp [UInt32.lt_iff_toNat_lt] at hc; omega
  case isFalse => exact hmax

variable (fee : UInt64) (t : LoadFeeTrack) (fees : Fees) (bUnlimited : Bool)
  (hl : 0 < t.localTxnLoadFee) (hu : 0 < fees.units)

def exactFee : Nat :=
  fee.toNat * fees.base.toNat * (t.feeFactor bUnlimited).toNat / (fees.units.toNat * 256)

-- The smaller one of the fees in lowest terms, multiplied by the factor, is not an amount.
def Overflows : Prop :=
  let r := reduce fee.toNat fees.base.toNat (t.feeFactor bUnlimited).toNat
    (fees.units.toNat * lftNormalFee.toNat)
  maxAmount < min r.1 r.2.1 * r.2.2.1

instance : Decidable (Overflows fee t fees bUnlimited) :=
  inferInstanceAs (Decidable (_ < _))

include hl hu

theorem scaleFeeLoad_eq : scaleFeeLoad fee t fees bUnlimited =
    if Overflows fee t fees bUnlimited ∨ maxAmount < exactFee fee t fees bUnlimited then none
    else some (exactFee fee t fees bUnlimited) := by
  have ⟨hf, hd, he⟩ := reduce_spec fee.toNat fees.base.toNat (feeFactor_pos t bUnlimited hl)
    (Nat.mul_pos (UInt32.lt_iff_toNat_lt.mp hu) (by decide : 0 < lftNormalFee.toNat))
  by_cases h0 : fee = 0
  case pos =>
    have hr (d : Nat) : (lowestTerms 0 d).1 = 0 := by
      simp only [lowestTerms]
      split <;> simp
    simp [h0, scaleFeeLoad, Overflows, exactFee, reduce, hr]
  case neg =>
    have he : _ = exactFee fee t fees bUnlimited := he
    rw [scaleFeeLoad, if_neg h0, ← he]
    exact scale_eq _ _ hf hd

-- An exact fee that fits is returned unless the product with the smaller fee does not fit.
theorem scaleFeeLoad_exact_iff :
    (Overflows fee t fees bUnlimited → maxAmount < exactFee fee t fees bUnlimited) ↔
      let exact := exactFee fee t fees bUnlimited
      let scaled := scaleFeeLoad fee t fees bUnlimited
      (exact ≤ maxAmount → scaled = some exact) ∧ (scaled = none → maxAmount < exact) := by
  rw [scaleFeeLoad_eq fee t fees bUnlimited hl hu]
  grind

omit hl hu

theorem scaleFeeLoad_exact_iff_normal :
    scaleFeeLoad 10 ⟨512, 256, 256⟩ ⟨10, 10, 200, 50⟩ false = some 20 :=
  ((scaleFeeLoad_exact_iff 10 ⟨512, 256, 256⟩ ⟨10, 10, 200, 50⟩ false (by decide) (by decide)).mp
    (by decide +kernel)).left (by decide)

-- There are very many fee units.
theorem scaleFeeLoad_overflows :
    let t : LoadFeeTrack := ⟨255999999, 256, 256⟩
    let fees : Fees := ⟨2 ^ 36 + 1, 4294967291, 0, 0⟩
    (scaleFeeLoad (2 ^ 36 + 1) t fees false = none) ∧
      exactFee (2 ^ 36 + 1) t fees false ≤ maxAmount := by
  decide +kernel

end LoadFeeTrack
