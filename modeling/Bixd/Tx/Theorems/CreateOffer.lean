import Bixd.Tx.CreateOffer
import Bixd.Paths.Theorems.Flow

open Flow

set_option linter.unusedSectionVars false

namespace CreateOffer

variable {T V B I O Q R S : Type} [AddCommGroup I] [LinearOrder I] [AddCommGroup O]
  [LinearOrder O] [LinearOrder Q] [LinearOrder R] [Zero S] [DecidableEq S]
  {x : Exchange T V B I O Q R S} {tx : Tx I O} {view psb : V}

-- An offer whose crossing is done by the payment engine, on the view that is left when the older
-- offer that it replaces is gone.
structure Reaches (x : Exchange T V B I O Q R S) (tx : Tx I O) (view psb : V) : Prop where
  flowCross : x.rules.flowCross
  cancelled : cancelOld x tx view = (tesSUCCESS, psb)
  unexpired : ¬ tx.expiration.any (· ≤ x.parentCloseTime)
  in_pos    : 0 < (takerAmount x tx psb).in
  out_pos   : 0 < (takerAmount x tx psb).out
  funded    : 0 < x.accountFunds psb
  strands   : (x.toStrands psb (threshold x tx.flags psb (takerAmount x tx psb))).1 = tesSUCCESS

theorem roundUp_pos (raw : {i : I // 0 ≤ i}) : 0 < roundUp x raw := by
  unfold roundUp
  split
  case isTrue => exact x.smallest.property
  case isFalse h => exact lt_of_le_of_ne raw.property (Ne.symm h)

theorem multiplyRound_pos (rate : UInt32) (h : 0 < amount) : 0 < multiplyRound x amount rate := by
  unfold multiplyRound
  split
  case isTrue => exact h
  case isFalse =>
    rw [if_neg h.ne']
    exact roundUp_pos _

theorem mulRound_pos (hv : v ≠ 0) (hr : rate ≠ 0) : 0 < mulRound x v rate := by
  unfold mulRound
  rw [if_neg (not_or.mpr ⟨hv, hr⟩)]
  exact roundUp_pos _

theorem sendMax_pos {a : Amounts I O} (hf : 0 < x.accountFunds psb) (hi : 0 < a.in) :
    0 < sendMax x psb a := by
  unfold sendMax
  split
  case isTrue => exact hf
  case isFalse => exact multiplyRound_pos _ hi

theorem removeOffers_empty (L : Liquidity T V B I O Q R) (sb : V) :
    removeOffers L sb ∅ = sb := by
  simp [removeOffers]

theorem Reaches.doApply_eq (h : Reaches x tx view psb) (hk : tx.flags &&& tfFillOrKill ≠ 0)
    (hs : tx.flags &&& tfSell = 0)
    (hf : flow x psb (takerAmount x tx psb).out false
      (threshold x tx.flags psb (takerAmount x tx psb)) (sendMax x psb (takerAmount x tx psb)) =
        some r) :
    doApply x tx view =
      let sb := removeOffers x.toLiquidity r.sb r.removableOffers
      let ((result, keep), sb, sbCancel) := placeRemaining x tx.flags (takerAmount x tx psb)
        (afterCross x tx.flags (x.transferRate psb) (takerAmount x tx psb) { r with sb := sb })
        tesSUCCESS sb (removeOffers x.toLiquidity view r.removableOffers)
      some (result, if keep then sb else sbCancel) := by
  have hzero := not_or.mpr ⟨h.in_pos.ne', h.out_pos.ne'⟩
  simp only [doApply, applyGuts, h.cancelled, if_neg h.unexpired, ne_eq, not_true_eq_false,
    if_false, hzero, and_false, cross, h.flowCross, if_true, CreateOffer.flowCross, not_le.mpr h.funded, hs,
    hk, decide_false, hf, Option.map_some]

-- The passes leave the offer crossed: they consume all that it may send, and nothing of it is left
-- to be placed.
def Crossed (x : Exchange T V B I O Q R S) (psb : V) (a : Amounts I O) (sb : V)
    (ins : Multiset I) (outs : Multiset O) : Prop :=
  ins.sum = sendMax x psb a ∧ outs.sum ≤ a.out ∧
    (outs.sum = a.out ∨ x.accountFunds sb ≤ 0 ∨ x.rate a = 0)

def killed (rules : Rules) : TER :=
  if rules.fix1578 then tecKILLED else tesSUCCESS

theorem placeRemaining_kill {placed : Amounts I O} (hk : flags &&& tfFillOrKill ≠ 0)
    (hi : 0 < placed.in) (ho : 0 < placed.out) :
    placeRemaining x flags a placed tesSUCCESS sb sbCancel =
      ((killed x.rules, false), sb, sbCancel) := by
  have hne : ¬ (tesSUCCESS = tecFAILED_PROCESSING ∧ x.isOpen = true) := by
    rintro ⟨h, _⟩
    exact absurd h (by decide)
  simp only [placeRemaining, if_neg hne, ne_eq, not_true_eq_false, if_false, not_lt.mpr hi.le,
    not_lt.mpr ho.le, or_self, hi.ne', ho.ne', hk, not_false_eq_true, if_true, killed]

theorem placeRemaining_crossed {placed : Amounts I O} (hi : placed.in = 0) (ho : 0 ≤ placed.out) :
    placeRemaining x flags a placed tesSUCCESS sb sbCancel =
      ((tesSUCCESS, true), sb, sbCancel) := by
  have hne : ¬ (tesSUCCESS = tecFAILED_PROCESSING ∧ x.isOpen = true) := by
    rintro ⟨h, _⟩
    exact absurd h (by decide)
  simp only [placeRemaining, if_neg hne, ne_eq, not_true_eq_false, if_false, hi, lt_self_iff_false,
    not_lt.mpr ho, or_self, true_or, if_true]

variable [IsOrderedAddMonoid O]

theorem afterCross_buy (rate : UInt32) {a : Amounts I O} {r : Output V I O R}
    (hs : flags &&& tfSell = 0) (hr : r.result = tesSUCCESS) (ho : r.actualAmountOut ≤ a.out) :
    (r.actualAmountOut = a.out ∨ x.accountFunds r.sb ≤ 0 ∨ x.rate a = 0 →
      (afterCross x flags rate a r).in = 0 ∧ 0 ≤ (afterCross x flags rate a r).out) ∧
    (¬ (r.actualAmountOut = a.out ∨ x.accountFunds r.sb ≤ 0 ∨ x.rate a = 0) →
      0 < (afterCross x flags rate a r).in ∧ 0 < (afterCross x flags rate a r).out) := by
  have hleft := sub_nonneg.mpr ho
  by_cases hf : x.accountFunds r.sb ≤ 0
  case pos => simp [afterCross, hr, hf]
  have heq : afterCross x flags rate a r =
      ⟨mulRound x (a.out - r.actualAmountOut) (x.rate a), a.out - r.actualAmountOut⟩ := by
    simp only [afterCross, hr, ne_eq, not_true_eq_false, if_false, hf, hs, not_lt.mpr hleft]
  rw [heq]
  refine ⟨fun h => ⟨?_, hleft⟩, fun h => ?_⟩
  case refine_1 =>
    have h0 : a.out - r.actualAmountOut = 0 ∨ x.rate a = 0 := by
      rcases h with h | h | h
      · exact .inl (sub_eq_zero.mpr h.symm)
      · exact absurd h hf
      · exact .inr h
    exact if_pos h0
  case refine_2 =>
    have ⟨hne, hrate⟩ : r.actualAmountOut ≠ a.out ∧ x.rate a ≠ 0 :=
      ⟨fun he => h (.inl he), fun he => h (.inr (.inr he))⟩
    have hne : a.out - r.actualAmountOut ≠ 0 := fun h0 => hne (sub_eq_zero.mp h0).symm
    exact ⟨mulRound_pos hne hrate, lt_of_le_of_ne hleft hne.symm⟩

-- An exchange with a single offer on its books, for an account that does not run out of funds.
def shop (price : Int) : Exchange Unit Int Int Int Int Int Nat Int where
  toLiquidity := oneOffer price
  rules := ⟨true, false, true, true⟩
  parentCloseTime := 0
  isOpen := false
  toStrands _ _ := (tesSUCCESS, [()])
  accountFunds _ := 100
  transferRate _ := parityRate
  gross i _ := ⟨max i 0, le_max_right i 0⟩
  net i _ := i
  rate a := a.in / a.out
  product o r := ⟨max (o * r) 0, le_max_right _ 0⟩
  divRound i r := i / r
  smallest := ⟨1, by decide⟩
  largest := 1000
  increment q := q + 1
  cancelOffer v _ := (tesSUCCESS, v)
  tickSize _ := maxTickSize
  roundToTick _ _ := id
  takerCross v w := fun a => ((tesSUCCESS, a), v, w)
  placeOffer v _ := fun _ => ((tesSUCCESS, true), v)

-- Five are asked for, and ten are offered for them.
def fillOrKillTx : Tx Int Int := ⟨tfFillOrKill, 5, 10, none, none⟩

theorem shop_reaches (price left : Int) : Reaches (shop price) fillOrKillTx left left where
  flowCross := rfl
  cancelled := rfl
  unexpired := Bool.false_ne_true
  in_pos := (by decide : (0 : Int) < 10)
  out_pos := (by decide : (0 : Int) < 5)
  funded := (by decide : (0 : Int) < 100)
  strands := rfl

end CreateOffer
