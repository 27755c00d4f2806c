import Bixd.Lib.Sums
import Bixd.Misc.TxQ.FeeMetrics

open Finset List UInt64 Nat

namespace TxQ.FeeMetrics

section Expected

variable {setup : Setup} {m : FeeMetrics} {size : UInt64} {feeLevels : List FeeLevel64}

theorem le_maxElement_pushBack (count : UInt64) (h : 1 ≤ m.capacity) :
    count.toNat ≤ (maxElement (m.pushBack count)).toNat := by
  have ⟨k, hk⟩ : ∃ k, m.pushBack count = m.recentTxnCounts.drop k ++ [count] := by
    refine ⟨m.recentTxnCounts.length + 1 - m.capacity, ?_⟩
    rw [pushBack, length_append, length_singleton, drop_append_of_le_length]
    omega
  rw [hk, maxElement, foldl_append, foldl_cons, foldl_nil, toNat_max]
  exact le_max_right ..

theorem le_grown : size.toNat ≤ (grown size setup).toNat := by
  have hlt := size.toNat_lt
  have hpct : 100 ≤ (100 + setup.normalConsensusIncreasePercent).toUInt64.toNat := by
    have hle := UInt32.le_iff_toNat_le.mp setup.increase_le
    rw [UInt32.toNat_toUInt64, UInt32.toNat_add]
    simp at hle ⊢
    omega
  rw [grown, toNat_mulDiv_snd, MulDiv.toNat_limit]
  refine Nat.le_min.mpr ⟨?_, by omega⟩
  refine (le_div_iff_mul_le (by decide)).mpr (mul_le_mul_left _ ?_)
  simpa using hpct

-- The expected ledger size stays between the limits that the setup gives.
structure Bounded (m : FeeMetrics) : Prop where
  room    : 1 ≤ m.capacity
  target  : m.minimumTxnCount.toNat ≤ m.targetTxnCount.toNat
  maximum : ∀ n ∈ m.maximumTxnCount, m.targetTxnCount.toNat ≤ n.toNat
  lower   : m.minimumTxnCount.toNat ≤ m.txnsExpected.toNat
  upper   : ∀ n ∈ m.maximumTxnCount, m.txnsExpected.toNat ≤ n.toNat

theorem le_ite_lt {a : UInt64} : a.toNat ≤ (if b < a then a else b).toNat := by
  split
  case isTrue => exact le_refl _
  case isFalse h => exact le_iff_toNat_le.mp (UInt64.not_lt.mp h)

theorem Bounded.ofSetup (h : 1 ≤ setup.ledgersInQueue) : Bounded (ofSetup setup) := by
  have target : (FeeMetrics.ofSetup setup).minimumTxnCount.toNat ≤
      (FeeMetrics.ofSetup setup).targetTxnCount.toNat := le_ite_lt
  have maximum : ∀ n ∈ (FeeMetrics.ofSetup setup).maximumTxnCount,
      (FeeMetrics.ofSetup setup).targetTxnCount.toNat ≤ n.toNat := by
    intro n hn
    have ⟨_, _, hn⟩ := Option.map_eq_some_iff.mp hn
    rw [← hn]
    exact le_ite_lt
  exact {
    room := le_iff_toNat_le.mp h
    target
    maximum
    lower := le_refl _
    upper := fun n hn => target.trans (maximum n hn)
  }

theorem toNat_clamp (v : UInt64) {lo hi : UInt64} (h : lo.toNat ≤ hi.toNat) :
    lo.toNat ≤ (clamp v lo hi).toNat ∧ (clamp v lo hi).toNat ≤ hi.toNat := by
  unfold clamp
  split
  case isTrue => exact ⟨le_refl _, h⟩
  case isFalse hlo =>
    split
    case isTrue => exact ⟨h, le_refl _⟩
    case isFalse hhi =>
      exact ⟨le_iff_toNat_le.mp (UInt64.not_lt.mp hlo),
        le_iff_toNat_le.mp (UInt64.not_lt.mp hhi)⟩

theorem toNat_slowDown (m : FeeMetrics) (size : UInt64) (setup : Setup) :
    m.minimumTxnCount.toNat ≤ (m.slowDown size setup).txnsExpected.toNat ∧
      (m.slowDown size setup).txnsExpected.toNat ≤
        max m.txnsExpected.toNat m.minimumTxnCount.toNat := by
  have hcut : (100 - setup.slowConsensusDecreasePercent).toUInt64.toNat ≤ 100 := by
    have hle := UInt32.le_iff_toNat_le.mp setup.decrease_le
    rw [UInt32.toNat_toUInt64, UInt32.toNat_sub_of_le _ _ setup.decrease_le]
    exact sub_le ..
  have hupper : (mulDiv m.txnsExpected
      (100 - setup.slowConsensusDecreasePercent).toUInt64 100).2.toNat ≤
        m.txnsExpected.toNat := by
    rw [toNat_mulDiv_snd]
    refine (min_le_left ..).trans (Nat.div_le_of_le_mul ?_)
    rw [Nat.mul_comm]
    exact mul_le_mul_right _ hcut
  have hle : m.minimumTxnCount.toNat ≤ (max (mulDiv m.txnsExpected
      (100 - setup.slowConsensusDecreasePercent).toUInt64 100).2 m.minimumTxnCount).toNat := by
    rw [toNat_max]
    exact le_max_right ..
  have ⟨hlo, hhi⟩ := toNat_clamp
    (mulDiv size (100 - setup.slowConsensusDecreasePercent).toUInt64 100).2 hle
  refine ⟨hlo, hhi.trans ?_⟩
  rw [toNat_max]
  exact max_le_max hupper (le_refl _)

section

variable (b : Bounded m) (hc : m.Careful size false setup)
  (h : size > m.txnsExpected ∨ size > m.targetTxnCount)

include b hc h

-- Whether the limit grows or shrinks, it keeps above the smallest limit: it only shrinks after
-- a ledger that held more transactions than the target.
theorem Bounded.le_next :
    m.minimumTxnCount.toNat ≤ (m.next (maxElement (m.pushBack (grown size setup)))).toNat := by
  have hcount := le_trans le_grown (le_maxElement_pushBack (grown size setup) b.room)
  have hlow := b.lower
  have htarget := b.target
  unfold Careful at hc
  unfold next
  generalize maxElement (m.pushBack (grown size setup)) = largest at hc hcount ⊢
  split
  case isTrue hge => exact hlow.trans (le_iff_toNat_le.mp hge)
  case isFalse hlt =>
    have hlt := UInt64.not_le.mp hlt
    have hfits := hc rfl h hlt
    have hlt := lt_iff_toNat_lt.mp hlt
    have hsize : m.targetTxnCount.toNat < size.toNat := by
      cases h
      case inl h =>
        have := lt_iff_toNat_lt.mp h
        omega
      case inr h => exact lt_iff_toNat_lt.mp h
    have hnum : (m.txnsExpected * 9 + largest).toNat =
        9 * m.txnsExpected.toNat + largest.toNat := by
      rw [UInt64.toNat_add, UInt64.toNat_mul]
      simp
      omega
    rw [UInt64.toNat_div, hnum]
    simp
    omega

theorem Bounded.follow : Bounded (m.follow size setup) := by
  have hnext := b.le_next hc h
  exact {
    room := b.room
    target := b.target
    maximum := b.maximum
    lower := by
      dsimp only [FeeMetrics.follow]
      rw [toNat_min]
      refine Nat.le_min.mpr ⟨hnext, ?_⟩
      cases hm : m.maximumTxnCount
      case none => exact hnext
      case some n => exact b.target.trans (b.maximum n hm)
    upper := by
      intro n hn
      dsimp only [FeeMetrics.follow] at hn ⊢
      rw [toNat_min, hn]
      exact min_le_right ..
  }

end

theorem Bounded.slowDown (b : Bounded m) : Bounded (m.slowDown size setup) := by
  have ⟨hlo, hhi⟩ := toNat_slowDown m size setup
  exact {
    room := b.room
    target := b.target
    maximum := b.maximum
    lower := hlo
    upper := fun n hn => hhi.trans
      (Nat.max_le.mpr ⟨b.upper n hn, b.target.trans (b.maximum n hn)⟩)
  }

theorem Bounded.update (b : Bounded m)
    (hc : m.Careful (.ofNat feeLevels.length) timeLeap setup) :
    Bounded (m.update feeLevels timeLeap setup) := by
  have h : Bounded (m.expect (.ofNat feeLevels.length) timeLeap setup) := by
    unfold expect
    split
    case isTrue => exact b.slowDown
    case isFalse hleap =>
      rw [Bool.not_eq_true] at hleap
      rw [hleap] at hc
      split
      case isTrue h => exact b.follow hc h
      case isFalse => exact b
  exact ⟨h.room, h.target, h.maximum, h.lower, h.upper⟩

theorem CarefulRun.bounded (hq : 1 ≤ setup.ledgersInQueue) (h : CarefulRun setup m) :
    Bounded m := by
  induction h
  case ofSetup => exact Bounded.ofSetup hq
  case update _ hc hi => exact hi.update hc

end Expected

section Series

variable {snapshot : Snapshot} {txCount extraCount seriesSize level : UInt64}

theorem toNat_sumOfFirstSquares {x : UInt64} (h : x.toNat < 2 ^ 21) :
    sumOfFirstSquares x = (true, (sumOfFirstSquares x).2) ∧
      (sumOfFirstSquares x).2.toNat = ∑ i ∈ range (x.toNat + 1), i * i := by
  have hlt : ¬ x ≥ 2 ^ 21 := by
    rw [ge_iff_le, le_iff_toNat_le]
    exact not_le.mpr h
  unfold sumOfFirstSquares
  rw [if_neg hlt]
  refine ⟨rfl, ?_⟩
  have hcube : x.toNat * (x.toNat + 1) * (2 * x.toNat + 1) < 2 ^ 64 := by
    have h₁ := Nat.mul_le_mul h.le h
    calc x.toNat * (x.toNat + 1) * (2 * x.toNat + 1)
        ≤ 2 ^ 21 * 2 ^ 21 * (2 * x.toNat + 1) := Nat.mul_le_mul_right _ h₁
      _ < 2 ^ 64 := by omega
  have hsq := lt_of_le_of_lt (Nat.le_mul_of_pos_right _ (succ_pos _)) hcube
  have h₁ : (x + 1).toNat = x.toNat + 1 := by
    rw [UInt64.toNat_add]
    exact mod_eq_of_lt (by simp; omega)
  have h₂ : (2 * x + 1).toNat = 2 * x.toNat + 1 := by
    rw [UInt64.toNat_add, UInt64.toNat_mul]
    simp
    omega
  rw [UInt64.toNat_div, UInt64.toNat_mul, UInt64.toNat_mul, h₁, h₂, mod_eq_of_lt hsq,
    mod_eq_of_lt hcube, sum_sq_eq_div]
  rfl

-- The numbers of a series whose last count does not wrap.
structure Series (txCount extraCount seriesSize : UInt64) : Prop where
  pos     : 1 ≤ seriesSize.toNat
  started : 1 ≤ txCount.toNat + extraCount.toNat
  fits    : txCount.toNat + extraCount.toNat + seriesSize.toNat - 1 < 2 ^ 64

namespace Series

section

variable (s : Series txCount extraCount seriesSize)

include s

theorem current : (txCount + extraCount).toNat = txCount.toNat + extraCount.toNat := by
  have ⟨hp, _, hf⟩ := s
  rw [UInt64.toNat_add]
  omega

theorem last :
    (txCount + extraCount + seriesSize - 1).toNat =
      txCount.toNat + extraCount.toNat + seriesSize.toNat - 1 := by
  have ⟨hp, _, hf⟩ := s
  rw [UInt64.toNat_sub, UInt64.toNat_add, s.current]
  simp only [toNat_one]
  omega

theorem before : (txCount + extraCount - 1).toNat = txCount.toNat + extraCount.toNat - 1 := by
  have ⟨hp, hs, hf⟩ := s
  rw [UInt64.toNat_sub, s.current]
  simp only [toNat_one]
  omega

theorem difference (h : txCount.toNat + extraCount.toNat + seriesSize.toNat - 1 < 2 ^ 21) :
    ((sumOfFirstSquares (txCount + extraCount + seriesSize - 1)).2 -
        (sumOfFirstSquares (txCount + extraCount - 1)).2).toNat =
      ∑ n ∈ seriesCounts txCount extraCount seriesSize, n * n := by
  have ⟨hp, hs, _⟩ := s
  have hl := (toNat_sumOfFirstSquares (s.last.trans_lt h)).2
  have hb : (txCount + extraCount - 1).toNat < 2 ^ 21 := by
    rw [s.before]
    omega
  have hc := (toNat_sumOfFirstSquares hb).2
  rw [s.last, Nat.sub_add_cancel (by omega)] at hl
  rw [s.before, Nat.sub_add_cancel hs] at hc
  have hsplit := sum_range_add_sum_Ico (fun n => n * n)
    (le_add_right (txCount.toNat + extraCount.toNat) seriesSize.toNat)
  have hle : (sumOfFirstSquares (txCount + extraCount - 1)).2 ≤
      (sumOfFirstSquares (txCount + extraCount + seriesSize - 1)).2 := by
    rw [le_iff_toNat_le, hl, hc, ← hsplit]
    exact le_add_right _ _
  rw [UInt64.toNat_sub_of_le _ _ hle, hl, hc, ← hsplit, Nat.add_sub_cancel_left]
  rfl

theorem small
    (h : escalatedSeriesFeeLevel snapshot txCount extraCount seriesSize = some (true, level)) :
    txCount.toNat + extraCount.toNat + seriesSize.toNat - 1 < 2 ^ 21 := by
  by_contra hn
  have hge : txCount + extraCount + seriesSize - 1 ≥ 2 ^ 21 := by
    rw [ge_iff_le, le_iff_toNat_le, s.last]
    exact not_lt.mp hn
  simp [escalatedSeriesFeeLevel, sumOfFirstSquares, hge] at h

end

theorem square_le (ht : snapshot.txnsExpected.toNat ≤ 2 ^ 21) :
    snapshot.txnsExpected.toNat * snapshot.txnsExpected.toNat < 2 ^ 64 := by
  calc snapshot.txnsExpected.toNat * snapshot.txnsExpected.toNat
      ≤ 2 ^ 21 * 2 ^ 21 := Nat.mul_le_mul ht ht
    _ < 2 ^ 64 := by decide

section

variable (s : Series txCount extraCount seriesSize)

include s

theorem mulDivU (ht : snapshot.txnsExpected.toNat < txCount.toNat + extraCount.toNat)
    (h : escalatedSeriesFeeLevel snapshot txCount extraCount seriesSize = some (true, level)) :
    mulDivU (∑ n ∈ seriesCounts txCount extraCount seriesSize, n * n)
      snapshot.escalationMultiplier
      (snapshot.txnsExpected.toNat * snapshot.txnsExpected.toNat) = some (true, level) := by
  have hlt := s.small h
  have hl := (toNat_sumOfFirstSquares (s.last.trans_lt hlt)).1
  have hsq : (snapshot.txnsExpected * snapshot.txnsExpected).toNat =
      snapshot.txnsExpected.toNat * snapshot.txnsExpected.toNat := by
    rw [UInt64.toNat_mul]
    have := s.pos
    exact mod_eq_of_lt (square_le (by omega))
  simp only [escalatedSeriesFeeLevel] at h
  rw [hl] at h
  simpa [s.difference hlt, hsq] using h

section

variable (hpos : 1 ≤ snapshot.txnsExpected.toNat)
  (ht : snapshot.txnsExpected.toNat < txCount.toNat + extraCount.toNat)
  (h : escalatedSeriesFeeLevel snapshot txCount extraCount seriesSize = some (true, level))

include hpos ht h

theorem scaleFeeLevel (hn : n ∈ seriesCounts txCount extraCount seriesSize) :
    ∃ l, scaleFeeLevel snapshot (.ofNat n) = some l ∧
      l.toNat = n * n * snapshot.escalationMultiplier.toNat /
        (snapshot.txnsExpected.toNat * snapshot.txnsExpected.toNat) := by
  have hlt := s.small h
  have ⟨hge, hle⟩ := mem_Ico.mp hn
  have hsmall : n < 2 ^ 21 := by omega
  have hto : (ofNat n).toNat = n := toNat_ofNat_of_lt' (by
    rw [UInt64.size]
    omega)
  have hnn : (ofNat n * ofNat n).toNat = n * n := by
    rw [UInt64.toNat_mul, hto]
    refine mod_eq_of_lt ?_
    calc n * n ≤ 2 ^ 21 * 2 ^ 21 := Nat.mul_le_mul hsmall.le hsmall.le
      _ < 2 ^ 64 := by decide
  have htt : (snapshot.txnsExpected * snapshot.txnsExpected).toNat =
      snapshot.txnsExpected.toNat * snapshot.txnsExpected.toNat := by
    rw [UInt64.toNat_mul]
    exact mod_eq_of_lt (square_le (by omega))
  have hgt : ofNat n > snapshot.txnsExpected := by
    rw [gt_iff_lt, lt_iff_toNat_lt, hto]
    omega
  have hsum := single_le_sum (f := fun n => n * n) (fun _ _ => zero_le _) hn
  have ⟨l, hl, hval⟩ := mulDivU_eq_of_le (mul_pos hpos hpos) (s.mulDivU ht h) hsum
  refine ⟨l, ?_, hval⟩
  rw [FeeMetrics.scaleFeeLevel, if_pos hgt, hnn, htt, hl]
  rfl

theorem covers : Covers snapshot txCount extraCount seriesSize level := by
  have hd := Nat.mul_pos hpos hpos
  have hlevel := mulDivU_eq_some hd (s.mulDivU ht h)
  have hone : oneByOne snapshot txCount extraCount seriesSize =
      ∑ n ∈ seriesCounts txCount extraCount seriesSize,
        n * n * snapshot.escalationMultiplier.toNat /
          (snapshot.txnsExpected.toNat * snapshot.txnsExpected.toNat) := by
    refine sum_congr rfl fun n hn => ?_
    have ⟨l, hl, hval⟩ := s.scaleFeeLevel hpos ht h hn
    rw [hl, ← hval]
    rfl
  rw [sum_mul] at hlevel
  have hne : (seriesCounts txCount extraCount seriesSize).Nonempty :=
    nonempty_Ico.mpr (Nat.lt_add_of_pos_right s.pos)
  have hcard : (seriesCounts txCount extraCount seriesSize).card = seriesSize.toNat := by
    rw [seriesCounts, card_Ico, Nat.add_sub_cancel_left]
  exact {
    answers := fun n hn => by
      have ⟨l, hl, _⟩ := s.scaleFeeLevel hpos ht h hn
      rw [hl]
      rfl
    atLeast := by
      rw [hone, hlevel]
      exact sum_div_le_div_sum hd
    lessThan := by
      rw [hone, hlevel, ← hcard]
      exact div_sum_lt_sum_div hd hne
    exact := by
      rw [hlevel, ← sum_mul, mul_comm, pow_two]
      simp only [pow_two]
    noWrap := fun _ => {
      last := s.fits
      cube := by
        have hlt := s.small h
        have hp := s.pos
        generalize txCount.toNat + extraCount.toNat + seriesSize.toNat = x at hlt hp ⊢
        have : (x - 1) * x ≤ 2 ^ 21 * 2 ^ 21 := Nat.mul_le_mul (by omega) (by omega)
        calc (x - 1) * x * (2 * (x - 1) + 1)
            ≤ 2 ^ 21 * 2 ^ 21 * (2 * (x - 1) + 1) := mul_le_mul_right _ this
          _ < 2 ^ 64 := by omega
      square := square_le (by
        have := s.small h
        have := s.pos
        omega)
    }
  }

end

end

end Series

end Series

end TxQ.FeeMetrics
