import Bixd.Paths.Flow

-- The crossing of a new offer with the liquidity that is there, and what becomes of the offer.

structure Amounts (I O : Type) where
  «in» : I
  out  : O
deriving DecidableEq

namespace CreateOffer

def tfPassive : UInt32 := 0x00010000
def tfImmediateOrCancel : UInt32 := 0x00020000
def tfFillOrKill : UInt32 := 0x00040000
def tfSell : UInt32 := 0x00080000

def parityRate : UInt32 := 1000000000
def maxTickSize : Nat := 16

structure Tx (I O : Type) where
  flags : UInt32
  takerPays : O
  takerGets : I
  offerSequence : Option UInt32
  expiration : Option Nat

structure Rules where
  flowCross : Bool
  flowSortStrands : Bool
  fix1578 : Bool
  depositPreauth : Bool

-- The ledger as an offer of one account between two issues sees it. Its amounts are those that the
-- account gives (`I`) and those that it gets (`O`), with rates `S` between them. The products are
-- those before the rounding; the functions for what has nothing to do with the payment engine, the
-- placing of an offer and the older way of crossing are as they are.
structure Exchange (T V B I O Q R S : Type) [Zero I] [LE I] [LT I]
    extends Liquidity T V B I O Q R where
  rules : Rules
  parentCloseTime : Nat
  isOpen : Bool
  toStrands : V → Q → TER × List T
  accountFunds : V → I
  -- The parity rate for the native issue and for the issues of the account itself.
  transferRate : V → UInt32
  gross : I → UInt32 → {i : I // 0 ≤ i}
  net : I → UInt32 → I
  rate : Amounts I O → S
  product : O → S → {i : I // 0 ≤ i}
  divRound : I → S → O
  smallest : {i : I // 0 < i}
  largest : O
  increment : Q → Q
  cancelOffer : V → UInt32 → TER × V
  tickSize : V → Nat
  roundToTick : Nat → Bool → Amounts I O → Amounts I O
  takerCross : V → V → Amounts I O → (TER × Amounts I O) × V × V
  placeOffer : V → Amounts I O → Bool → (TER × Bool) × V

structure Output (V I O R : Type) where
  result : TER
  actualAmountIn : I
  actualAmountOut : O
  removableOffers : Finset R
  sb : V

variable {T V B I O Q R S : Type} [AddCommGroup I] [LinearOrder I] [AddCommGroup O]
  [LinearOrder O] [LinearOrder Q] [LinearOrder R] [Zero S] [DecidableEq S]
  (x : Exchange T V B I O Q R S)

-- Rounded up, a product is never zero.
def roundUp (raw : {i : I // 0 ≤ i}) : I :=
  if raw.val = 0 then x.smallest.val else raw.val

def mulRound (v : O) (rate : S) : I :=
  if v = 0 ∨ rate = 0 then 0 else roundUp x (x.product v rate)

def multiplyRound (amount : I) (rate : UInt32) : I :=
  if rate = parityRate then amount
  else if amount = 0 then 0
  else roundUp x (x.gross amount rate)

def divideRound (amount : I) (rate : UInt32) : I :=
  if rate = parityRate then amount else x.net amount rate

def finishFlow (sb : V) (f : FlowResult V I O R) : Output V I O R :=
  if f.ter = tesSUCCESS then
    ⟨f.ter, f.in, f.out, ∅, f.sandbox.getD sb⟩
  else
    ⟨f.ter, f.in, f.out, f.removableOffers, sb⟩

def flow (sb : V) (deliver : O) (partialPayment : Bool) (limitQuality : Q) (sendMax : I) :
    Option (Output V I O R) :=
  let (toStrandsTer, strands) := x.toStrands sb limitQuality
  if toStrandsTer ≠ tesSUCCESS then
    some ⟨toStrandsTer, 0, 0, ∅, sb⟩
  else
    (Flow.flow x.toLiquidity x.rules.flowSortStrands true (some limitQuality) deliver sb strands
      partialPayment (some sendMax)).map (finishFlow sb)

-- What the account sends for the input of the offer, the transfer fee included.
def grossMax (psb : V) (takerAmount : Amounts I O) : I :=
  multiplyRound x takerAmount.in (x.transferRate psb)

def threshold (txFlags : UInt32) (psb : V) (takerAmount : Amounts I O) : Q :=
  let threshold := x.quality takerAmount.out (grossMax x psb takerAmount)
  if txFlags &&& tfPassive ≠ 0 then x.increment threshold else threshold

-- Don't send more than our balance.
def sendMax (psb : V) (takerAmount : Amounts I O) : I :=
  if grossMax x psb takerAmount > x.accountFunds psb then x.accountFunds psb
  else grossMax x psb takerAmount

-- The size of the final offer after crossing.
def afterCross (txFlags : UInt32) (gatewayXferRate : UInt32) (takerAmount : Amounts I O)
    (result : Output V I O R) : Amounts I O :=
  if result.result ≠ tesSUCCESS then takerAmount
  else if x.accountFunds result.sb ≤ 0 then ⟨0, 0⟩
  else if txFlags &&& tfSell ≠ 0 then
    let left := takerAmount.in - divideRound x result.actualAmountIn gatewayXferRate
    let left := if left < 0 then 0 else left
    ⟨left, x.divRound left (x.rate takerAmount)⟩
  else
    let left := takerAmount.out - result.actualAmountOut
    let left := if left < 0 then 0 else left
    ⟨mulRound x left (x.rate takerAmount), left⟩

def flowCross (txFlags : UInt32) (psb psbCancel : V) (takerAmount : Amounts I O) :
    Option ((TER × Amounts I O) × V × V) :=
  if x.accountFunds psb ≤ 0 then
    some ((tecUNFUNDED_OFFER, takerAmount), psb, psbCancel)
  else
    let deliver := if txFlags &&& tfSell ≠ 0 then x.largest else takerAmount.out
    (flow x psb deliver (txFlags &&& tfFillOrKill = 0) (threshold x txFlags psb takerAmount)
      (sendMax x psb takerAmount)).map fun result =>
        ((tesSUCCESS, afterCross x txFlags (x.transferRate psb) takerAmount
          { result with sb := Flow.removeOffers x.toLiquidity result.sb result.removableOffers }),
          Flow.removeOffers x.toLiquidity result.sb result.removableOffers,
          Flow.removeOffers x.toLiquidity psbCancel result.removableOffers)

def cross (txFlags : UInt32) (sb sbCancel : V) (takerAmount : Amounts I O) :
    Option ((TER × Amounts I O) × V × V) :=
  if x.rules.flowCross then flowCross x txFlags sb sbCancel takerAmount
  else some (x.takerCross sb sbCancel takerAmount)

-- What is done about the part of the offer that is left after the crossing. Returns the result,
-- and whether what was done is kept.
def placeRemaining (txFlags : UInt32) (takerAmount placed : Amounts I O) (result : TER)
    (sb sbCancel : V) : (TER × Bool) × V × V :=
  let result := if result = tecFAILED_PROCESSING ∧ x.isOpen then telFAILED_PROCESSING else result
  if result ≠ tesSUCCESS then
    ((result, true), sb, sbCancel)
  else if placed.in < 0 ∨ placed.out < 0 then
    ((tefINTERNAL, true), sb, sbCancel)
  else if placed.in = 0 ∨ placed.out = 0 then
    ((result, true), sb, sbCancel)
  else if txFlags &&& tfFillOrKill ≠ 0 then
    ((if x.rules.fix1578 then tecKILLED else tesSUCCESS, false), sb, sbCancel)
  else if txFlags &&& tfImmediateOrCancel ≠ 0 then
    ((tesSUCCESS, true), sb, sbCancel)
  else
    let (result, sb) := x.placeOffer sb placed (takerAmount ≠ placed)
    (result, sb, sbCancel)

-- The amounts to cross, rounded to the tick size if one applies.
def takerAmount (tx : Tx I O) (sb : V) : Amounts I O :=
  let takerAmount : Amounts I O := ⟨tx.takerGets, tx.takerPays⟩
  if x.tickSize sb < maxTickSize then
    x.roundToTick (x.tickSize sb) (tx.flags &&& tfSell ≠ 0) takerAmount
  else
    takerAmount

def cancelOld (tx : Tx I O) (sb : V) : TER × V :=
  tx.offerSequence.elim (tesSUCCESS, sb) (x.cancelOffer sb)

def applyGuts (tx : Tx I O) (sb sbCancel : V) : Option ((TER × Bool) × V × V) :=
  let (result, sb) := cancelOld x tx sb
  if tx.expiration.any (· ≤ x.parentCloseTime) then
    some ((if x.rules.depositPreauth then tecEXPIRED else tesSUCCESS, true), sb, sbCancel)
  else if result ≠ tesSUCCESS then
    some ((result, true), sb, sbCancel)
  else
    let takerAmount := takerAmount x tx sb
    -- The offer was rounded to zero.
    if x.tickSize sb < maxTickSize ∧ (takerAmount.in = 0 ∨ takerAmount.out = 0) then
      some ((result, true), sb, sbCancel)
    else
      (cross x tx.flags sb sbCancel takerAmount).map fun ((result, placed), sb, sbCancel) =>
        placeRemaining x tx.flags takerAmount placed result sb sbCancel

-- The result and the view afterwards. Both sandboxes start from the view.
def doApply (tx : Tx I O) (view : V) : Option (TER × V) :=
  (applyGuts x tx view view).map fun ((result, keep), sb, sbCancel) =>
    (result, if keep then sb else sbCancel)

end CreateOffer
