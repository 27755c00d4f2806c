import Bixd.Basics.MulDiv

-- The fee escalation metrics of the transaction queue: how many transactions a ledger is
-- expected to hold, and the fee level an open ledger that holds more of them requires.

abbrev FeeLevel64 := UInt64

namespace TxQ

def baseLevel : FeeLevel64 := 256

-- A setup holds percentages in the range that reading it from the configuration enforces.
structure Setup where
  ledgersInQueue : UInt64 := 20
  queueSizeMin : UInt64 := 2000
  retrySequencePercent : UInt32 := 25
  minimumEscalationMultiplier : FeeLevel64 := baseLevel * 500
  minimumTxnInLedger : UInt32 := 5
  minimumTxnInLedgerSA : UInt32 := 1000
  targetTxnInLedger : UInt32 := 50
  maximumTxnInLedger : Option UInt32 := none
  normalConsensusIncreasePercent : UInt32 := 20
  slowConsensusDecreasePercent : UInt32 := 50
  maximumTxnPerAccount : UInt32 := 10
  minimumLastLedgerBuffer : UInt32 := 2
  standAlone : Bool := false
  increase_le : normalConsensusIncreasePercent ≤ 1000 := by decide
  decrease_le : slowConsensusDecreasePercent ≤ 100 := by decide

-- The values of the section `transaction_queue` that the configuration gives.
structure Section where
  ledgersInQueue : Option UInt64 := none
  minimumQueueSize : Option UInt64 := none
  retrySequencePercent : Option UInt32 := none
  minimumEscalationMultiplier : Option FeeLevel64 := none
  minimumTxnInLedger : Option UInt32 := none
  minimumTxnInLedgerStandalone : Option UInt32 := none
  targetTxnInLedger : Option UInt32 := none
  maximumTxnInLedger : Option UInt32 := none
  normalConsensusIncreasePercent : Option UInt32 := none
  slowConsensusDecreasePercent : Option UInt32 := none
  maximumTxnPerAccount : Option UInt32 := none
  minimumLastLedgerBuffer : Option UInt32 := none

def clampTo (hi v : UInt32) : UInt32 := if hi < v then hi else v

theorem clampTo_le : clampTo hi v ≤ hi := by
  unfold clampTo
  split
  case isTrue => exact UInt32.le_refl hi
  case isFalse h => exact UInt32.not_lt.mp h

def setupTxQ («section» : Section) (standalone : Bool) : Except String Setup := do
  let minimum := section.minimumTxnInLedger.getD 5
  let minimumSA := section.minimumTxnInLedgerStandalone.getD 1000
  if let some max := section.maximumTxnInLedger then
    if max < minimum then
      throw ("The minimum number of low-fee transactions allowed " ++
        "per ledger (minimum_txn_in_ledger) exceeds " ++
        "the maximum number of low-fee transactions allowed per " ++
        "ledger (maximum_txn_in_ledger).")
    if max < minimumSA then
      throw ("The minimum number of low-fee transactions allowed " ++
        "per ledger (minimum_txn_in_ledger_standalone) exceeds " ++
        "the maximum number of low-fee transactions allowed per " ++
        "ledger (maximum_txn_in_ledger).")
  return {
    ledgersInQueue := section.ledgersInQueue.getD 20
    queueSizeMin := section.minimumQueueSize.getD 2000
    retrySequencePercent := section.retrySequencePercent.getD 25
    minimumEscalationMultiplier := section.minimumEscalationMultiplier.getD (baseLevel * 500)
    minimumTxnInLedger := minimum
    minimumTxnInLedgerSA := minimumSA
    targetTxnInLedger := section.targetTxnInLedger.getD 50
    maximumTxnInLedger := section.maximumTxnInLedger
    normalConsensusIncreasePercent :=
      clampTo 1000 (section.normalConsensusIncreasePercent.getD 20)
    slowConsensusDecreasePercent := clampTo 100 (section.slowConsensusDecreasePercent.getD 50)
    maximumTxnPerAccount := section.maximumTxnPerAccount.getD 10
    minimumLastLedgerBuffer := section.minimumLastLedgerBuffer.getD 2
    standAlone := standalone
    increase_le := clampTo_le
    decrease_le := clampTo_le
  }

-- The fee level that a fee of `feePaid` drops pays for a transaction. A transaction without
-- a base fee is compared with the default one.
def getFeeLevelPaid (baseFee defaultBaseFee feePaid : Int) : FeeLevel64 :=
  let ref := if baseFee > 0 then 0 else defaultBaseFee
  let effectiveFeePaid := feePaid + ref
  let effectiveBaseFee := baseFee + ref
  if effectiveFeePaid ≤ 0 ∨ effectiveBaseFee ≤ 0 then
    0
  else
    match mulDivU effectiveFeePaid.toNat baseLevel effectiveBaseFee.toNat with
    | some (true, level) => level
    | _ => MulDiv.limit

structure FeeMetrics where
  minimumTxnCount : UInt64
  targetTxnCount : UInt64
  maximumTxnCount : Option UInt64
  txnsExpected : UInt64
  -- The history keeps as many counts as `capacity` says, the oldest first.
  capacity : Nat
  recentTxnCounts : List UInt64
  escalationMultiplier : FeeLevel64

namespace FeeMetrics

def ofSetup (setup : Setup) : FeeMetrics :=
  let minimum :=
    if setup.standAlone then setup.minimumTxnInLedgerSA.toUInt64
    else setup.minimumTxnInLedger.toUInt64
  let target :=
    if setup.targetTxnInLedger.toUInt64 < minimum then minimum
    else setup.targetTxnInLedger.toUInt64
  let maximum := setup.maximumTxnInLedger.map fun n =>
    if n.toUInt64 < target then target else n.toUInt64
  { minimumTxnCount := minimum
    targetTxnCount := target
    maximumTxnCount := maximum
    txnsExpected := minimum
    capacity := setup.ledgersInQueue.toNat
    recentTxnCounts := []
    escalationMultiplier := setup.minimumEscalationMultiplier }

-- A full history drops its oldest count for the new one.
def pushBack (m : FeeMetrics) (count : UInt64) : List UInt64 :=
  let counts := m.recentTxnCounts ++ [count]
  counts.drop (counts.length - m.capacity)

def maxElement (counts : List UInt64) : UInt64 :=
  counts.foldl max 0

def clamp (v lo hi : UInt64) : UInt64 :=
  if v < lo then lo else if hi < v then hi else v

-- Ledgers take too long, so the limit goes down.
def slowDown (m : FeeMetrics) (size : UInt64) (setup : Setup) : FeeMetrics :=
  let cutPct := (100 - setup.slowConsensusDecreasePercent).toUInt64
  let upperLimit := max (mulDiv m.txnsExpected cutPct 100).2 m.minimumTxnCount
  { m with
    txnsExpected    := clamp (mulDiv size cutPct 100).2 m.minimumTxnCount upperLimit
    recentTxnCounts := [] }

def grown (size : UInt64) (setup : Setup) : UInt64 :=
  (mulDiv size (100 + setup.normalConsensusIncreasePercent).toUInt64 100).2

-- The largest recent count is used at once when the limit grows, and approached slowly when
-- it shrinks.
def next (m : FeeMetrics) (largest : UInt64) : UInt64 :=
  if largest ≥ m.txnsExpected then largest
  else (m.txnsExpected * 9 + largest) / 10

def follow (m : FeeMetrics) (size : UInt64) (setup : Setup) : FeeMetrics :=
  let counts := m.pushBack (grown size setup)
  let next := m.next (maxElement counts)
  { m with
    txnsExpected    := min next (m.maximumTxnCount.getD next)
    recentTxnCounts := counts }

-- How the expected ledger size follows a closed ledger of `size` transactions.
def expect (m : FeeMetrics) (size : UInt64) (timeLeap : Bool) (setup : Setup) : FeeMetrics :=
  if timeLeap then m.slowDown size setup
  else if size > m.txnsExpected ∨ size > m.targetTxnCount then m.follow size setup
  else m

-- The median of the sorted fee levels, but no less than the configured minimum.
def multiplier (feeLevels : List FeeLevel64) (setup : Setup) : FeeLevel64 :=
  let size := feeLevels.length
  if size = 0 then
    setup.minimumEscalationMultiplier
  else
    let median := (feeLevels.getD (size / 2) 0 + feeLevels.getD ((size - 1) / 2) 0 + 1) / 2
    max median setup.minimumEscalationMultiplier

-- `feeLevels` are the levels that the transactions of the closed ledger paid.
def update (m : FeeMetrics) (feeLevels : List FeeLevel64) (timeLeap : Bool) (setup : Setup) :
    FeeMetrics :=
  let sorted := feeLevels.mergeSort fun a b => a ≤ b
  { m.expect (.ofNat feeLevels.length) timeLeap setup with
    escalationMultiplier := multiplier sorted setup }

-- The weighted average of a limit that shrinks fits in 64 bits.
def Careful (m : FeeMetrics) (size : UInt64) (timeLeap : Bool) (setup : Setup) : Prop :=
  let largest := maxElement (m.pushBack (grown size setup))
  timeLeap = false → (size > m.txnsExpected ∨ size > m.targetTxnCount) →
    largest < m.txnsExpected → 9 * m.txnsExpected.toNat + largest.toNat < 2 ^ 64

-- The metrics after any sequence of closed ledgers, whose numbers of transactions are
-- distances between iterators.
inductive Run (setup : Setup) : FeeMetrics → Prop
  | ofSetup : Run setup (ofSetup setup)
  | update (feeLevels : List FeeLevel64) (timeLeap : Bool) :
    Run setup m → feeLevels.length < 2 ^ 63 → Run setup (m.update feeLevels timeLeap setup)

inductive CarefulRun (setup : Setup) : FeeMetrics → Prop
  | ofSetup : CarefulRun setup (ofSetup setup)
  | update (feeLevels : List FeeLevel64) (timeLeap : Bool) :
    CarefulRun setup m → feeLevels.length < 2 ^ 63 →
    m.Careful (.ofNat feeLevels.length) timeLeap setup →
    CarefulRun setup (m.update feeLevels timeLeap setup)

structure Snapshot where
  txnsExpected : UInt64
  escalationMultiplier : FeeLevel64

def getSnapshot (m : FeeMetrics) : Snapshot where
  txnsExpected := m.txnsExpected
  escalationMultiplier := m.escalationMultiplier

-- The fee level required by an open ledger that holds `current` transactions.
def scaleFeeLevel (snapshot : Snapshot) (current : UInt64) : Option FeeLevel64 :=
  let target := snapshot.txnsExpected
  if current > target then
    (mulDivU (current * current).toNat snapshot.escalationMultiplier
      (target * target).toNat).map Prod.snd
  else
    some baseLevel

def sumOfFirstSquares (x : UInt64) : Bool × UInt64 :=
  if x ≥ 2 ^ 21 then (false, MulDiv.limit)
  else (true, x * (x + 1) * (2 * x + 1) / 6)

-- The fee level required of `seriesSize` transactions together, when the open ledger holds
-- `txCount + extraCount` before the first of them.
def escalatedSeriesFeeLevel (snapshot : Snapshot) (txCount extraCount seriesSize : UInt64) :
    Option (Bool × FeeLevel64) :=
  let current := txCount + extraCount
  let last := current + seriesSize - 1
  let target := snapshot.txnsExpected
  let sumNlast := sumOfFirstSquares last
  let sumNcurrent := sumOfFirstSquares (current - 1)
  if !sumNlast.1 then
    some (sumNlast.1, sumNlast.2)
  else
    mulDivU (sumNlast.2 - sumNcurrent.2).toNat snapshot.escalationMultiplier
      (target * target).toNat

-- None of the whole numbers that the computation of a series goes through wraps: the count of
-- the last transaction, the cubes of the sums (the one for `current - 1` is smaller) and the
-- square of the target.
structure NoWrap (snapshot : Snapshot) (txCount extraCount seriesSize : UInt64) : Prop where
  last   : txCount.toNat + extraCount.toNat + seriesSize.toNat - 1 < 2 ^ 64
  cube   : (txCount.toNat + extraCount.toNat + seriesSize.toNat - 1) *
    (txCount.toNat + extraCount.toNat + seriesSize.toNat) *
    (2 * (txCount.toNat + extraCount.toNat + seriesSize.toNat - 1) + 1) < 2 ^ 64
  square : snapshot.txnsExpected.toNat * snapshot.txnsExpected.toNat < 2 ^ 64

-- The counts that the open ledger has when the transactions of a series are tried.
def seriesCounts (txCount extraCount seriesSize : UInt64) : Finset Nat :=
  .Ico (txCount.toNat + extraCount.toNat)
    (txCount.toNat + extraCount.toNat + seriesSize.toNat)

-- The fee level that the transactions of a series are required to pay one by one.
def oneByOne (snapshot : Snapshot) (txCount extraCount seriesSize : UInt64) : Nat :=
  ∑ n ∈ seriesCounts txCount extraCount seriesSize,
    ((scaleFeeLevel snapshot (.ofNat n)).map UInt64.toNat).getD 0

-- The level of a series is what its transactions pay one by one, rounded once.
structure Covers (snapshot : Snapshot) (txCount extraCount seriesSize : UInt64)
    (level : FeeLevel64) : Prop where
  answers  : ∀ n ∈ seriesCounts txCount extraCount seriesSize,
    (scaleFeeLevel snapshot (.ofNat n)).isSome
  atLeast  : oneByOne snapshot txCount extraCount seriesSize ≤ level.toNat
  lessThan : level.toNat < oneByOne snapshot txCount extraCount seriesSize + seriesSize.toNat
  exact    : level.toNat = snapshot.escalationMultiplier.toNat *
    (∑ n ∈ seriesCounts txCount extraCount seriesSize, n ^ 2) /
      snapshot.txnsExpected.toNat ^ 2
  noWrap   : snapshot.txnsExpected.toNat < 2 ^ 32 → NoWrap snapshot txCount extraCount seriesSize

end FeeMetrics

end TxQ
