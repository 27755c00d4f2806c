import Bixd.Ledger.AccountRoot

structure LoadFeeTrack where
  localTxnLoadFee   : UInt32
  remoteTxnLoadFee  : UInt32
  clusterTxnLoadFee : UInt32

namespace LoadFeeTrack

def lftNormalFee : UInt32 := 256

def getScalingFactors (t : LoadFeeTrack) : UInt32 × UInt32 :=
  (max t.localTxnLoadFee t.remoteTxnLoadFee, max t.remoteTxnLoadFee t.clusterTxnLoadFee)

-- Privileged users pay the normal fee until the local load exceeds four times the remote.
def feeFactor (t : LoadFeeTrack) (bUnlimited : Bool) : UInt32 :=
  let (feeFactor, uRemFee) := t.getScalingFactors
  if bUnlimited && feeFactor > uRemFee && feeFactor < 4 * uRemFee then uRemFee else feeFactor

def lowestTerms (a b : Nat) : Nat × Nat :=
  let g := a.gcd b
  if g ≠ 0 then (a / g, b / g) else (a, b)

def reduce (fee baseFee feeFactor den : Nat) : Nat × Nat × Nat × Nat :=
  let (fee, den) := lowestTerms fee den
  let (baseFee, den) := lowestTerms baseFee den
  let (feeFactor, den) := lowestTerms feeFactor den
  (fee, baseFee, feeFactor, den)

def maxAmount : Nat := 2 ^ 63 - 1

-- The overload of `mulDiv` whose result is an amount.
def mulDiv (value mul div : Nat) : Bool × Nat :=
  if value = div then
    (true, mul)
  else if mul = div then
    if value > maxAmount then (false, maxAmount) else (true, value)
  else
    let quotient := value * mul / div
    if quotient > maxAmount then (false, maxAmount) else (true, quotient)

-- Takes the larger fee first. An overflow is reported by an exception.
def scale (fee baseFee feeFactor den : Nat) : Option Nat :=
  let (fee, baseFee) := if fee < baseFee then (baseFee, fee) else (fee, baseFee)
  if baseFee > maxAmount / feeFactor then
    none
  else
    let result := mulDiv fee (baseFee * feeFactor) den
    if result.1 then some result.2 else none

end LoadFeeTrack

open LoadFeeTrack

-- A base fee is never negative.
def scaleFeeLoad (fee : UInt64) (feeTrack : LoadFeeTrack) (fees : Fees) (bUnlimited : Bool) :
    Option Nat :=
  if fee = 0 then
    some 0
  else
    let r := reduce fee.toNat fees.base.toNat (feeTrack.feeFactor bUnlimited).toNat
      (fees.units.toNat * lftNormalFee.toNat)
    scale r.1 r.2.1 r.2.2.1 r.2.2.2
