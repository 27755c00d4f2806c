import Bixd.Misc.TxQ.FeeMetrics
import Bixd.Ledger.View
import Bixd.Lib.Position
import Bixd.Protocol.SeqProxy
import Bixd.Protocol.TER

-- The queue of the transactions that do not pay enough for the open ledger.

def tapPREFER_QUEUE : ApplyFlags := 0x40

structure TxConsequences where
  isBlocker : Bool
  fee : Int
  potentialSpend : Int
  seqProxy : SeqProxy
  sequencesConsumed : UInt32

structure PreflightResult (ρ : Type) where
  rules : ρ
  consequences : TxConsequences
  flags : ApplyFlags
  ter : TER

namespace TxQ

variable (A T V ρ : Type)

structure AccountRoot where
  sequence : UInt32
  balance  : Int

-- What the queue asks of transactions `T` of accounts `A`, of open views `V` with rules `ρ`, and
-- of the transactors.
structure Env where
  account : T → A
  seqProxy : T → SeqProxy
  lastLedger : T → Option UInt32
  -- Whether the transaction has a field `PreviousTxnID` or `AccountTxnID`.
  chained : T → Bool
  fee : T → Int
  baseFee : V → T → Int
  defaultBaseFee : V → T → Int
  rules : V → ρ
  seq : V → UInt32
  txCount : V → UInt64
  reserve : V → Int
  accountRoot : V → A → Option AccountRoot
  ticketExists : V → A → SeqProxy → Bool
  -- The view with another account root for an account.
  bump : V → A → AccountRoot → V
  preflight : ρ → T → ApplyFlags → TER × TxConsequences
  -- The result, and whether the transaction is likely to claim a fee.
  preclaim : T → PreflightResult ρ → V → TER × Bool
  -- The result, and the view afterwards if the transaction was applied to it.
  doApply : T → PreflightResult ρ → V → TER × Option V

variable {A T V ρ}

namespace Env

variable (env : Env A T V ρ)

def preflightResult (view : V) (tx : T) (flags : ApplyFlags) : PreflightResult ρ :=
  let (ter, consequences) := env.preflight (env.rules view) tx flags
  ⟨env.rules view, consequences, flags, ter⟩

def feeLevelPaid (view : V) (tx : T) : FeeLevel64 :=
  getFeeLevelPaid (env.baseFee view tx) (env.defaultBaseFee view tx) (env.fee tx)

end Env

structure MaybeTx (A T ρ : Type) where
  txn : T
  feeLevel : FeeLevel64
  account : A
  lastValid : Option UInt32
  seqProxy : SeqProxy
  retriesRemaining : Int
  flags : ApplyFlags
  lastResult : Option TER
  pfresult : PreflightResult ρ

namespace MaybeTx

def retriesAllowed : Int := 10

def ofTx (env : Env A T V ρ) (txn : T) (feeLevel : FeeLevel64) (flags : ApplyFlags)
    (pfresult : PreflightResult ρ) : MaybeTx A T ρ where
  txn := txn
  feeLevel := feeLevel
  account := env.account txn
  lastValid := env.lastLedger txn
  seqProxy := env.seqProxy txn
  retriesRemaining := retriesAllowed
  flags := flags
  lastResult := none
  pfresult := pfresult

-- If the rules or flags change, preflight again.
def refresh [DecidableEq ρ] (env : Env A T V ρ) (view : V) (c : MaybeTx A T ρ) : MaybeTx A T ρ :=
  if c.pfresult.rules ≠ env.rules view ∨ c.pfresult.flags ≠ c.flags then
    { c with pfresult := env.preflightResult view c.txn c.flags }
  else
    c

def apply [DecidableEq ρ] (env : Env A T V ρ) (view : V) (c : MaybeTx A T ρ) :
    MaybeTx A T ρ × TER × Option V :=
  let c := c.refresh env view
  (c, env.doApply c.txn c.pfresult view)

end MaybeTx

structure TxQAccount (A T ρ : Type) where
  transactions : OrderedMap SeqProxy (MaybeTx A T ρ)
  retryPenalty : Bool
  dropPenalty  : Bool

namespace TxQAccount

def maxLevel : FeeLevel64 := 0xFFFFFFFFFFFFFFFF

-- Quotients and remainders are added up separately, and saturate.
def accumulate (size : UInt64) (total : FeeLevel64 × FeeLevel64) (level : FeeLevel64) :
    FeeLevel64 × FeeLevel64 :=
  let next := level / size
  let mod := level % size
  if total.1 ≥ maxLevel - next ∨ total.2 ≥ maxLevel - mod then
    (maxLevel, 0)
  else
    (total.1 + next, total.2 + mod)

def average (levels : List FeeLevel64) : FeeLevel64 :=
  let size := .ofNat levels.length
  let endTotal := levels.foldl (accumulate size) (0, 0)
  endTotal.1 + endTotal.2 / size

-- What has to be paid more than to take the place of a transaction of the account at the end of
-- a full queue. The last transaction of the queue has the fee level `last`.
def endEffectiveFeeLevel (a : TxQAccount A T ρ) (last feeLevelPaid : FeeLevel64) : FeeLevel64 :=
  if last > feeLevelPaid ∨ a.transactions.size = 1 then
    last
  else
    average (a.transactions.toList.map (·.2.feeLevel))

end TxQAccount

end TxQ

-- The two indexes of the queue. A transaction is held by its account; the index by fee refers to
-- it by its account and its sequence or ticket, the highest fee level first.
structure TxQ (A T ρ : Type) [LinearOrder A] where
  setup      : TxQ.Setup
  feeMetrics : TxQ.FeeMetrics
  byFee      : List (A × SeqProxy)
  byAccount  : OrderedMap A (TxQ.TxQAccount A T ρ)
  maxSize    : Option UInt64

namespace TxQ

variable {A T V ρ : Type} [LinearOrder A] (q : TxQ A T ρ)

def find? (r : A × SeqProxy) : Option (MaybeTx A T ρ) :=
  (q.byAccount.find? r.1).bind fun a => a.transactions.find? r.2

-- The fee level of a transaction that the index by fee refers to.
def feeLevel (r : A × SeqProxy) : FeeLevel64 :=
  (q.find? r).elim 0 MaybeTx.feeLevel

def isFull (fillPercentage : UInt64) : Bool :=
  q.maxSize.any fun maxSize => (maxSize * fillPercentage / 100).toNat ≤ q.byFee.length

-- Iterators over the index by fee are what they point to, and none is its end.
def next (r : A × SeqProxy) : Option (A × SeqProxy) :=
  Position.next q.byFee r

def modifyAccount (account : A) (f : TxQAccount A T ρ → TxQAccount A T ρ) : TxQ A T ρ :=
  { q with
    byAccount := (q.byAccount.find? account).elim q.byAccount fun a =>
      q.byAccount.insert account (f a) }

def modify (r : A × SeqProxy) (f : MaybeTx A T ρ → MaybeTx A T ρ) : TxQ A T ρ :=
  q.modifyAccount r.1 fun a =>
    { a with
      transactions := (a.transactions.find? r.2).elim a.transactions fun c =>
        a.transactions.insert r.2 (f c) }

def erase (r : A × SeqProxy) : TxQ A T ρ :=
  { q.modifyAccount r.1 fun a => { a with transactions := a.transactions.erase r.2 } with
    byFee := q.byFee.erase r }

-- The next transaction of the account is tried if its fee level is above that of the next one in
-- the order of the fees.
def eraseAndAdvance (r : A × SeqProxy) : TxQ A T ρ × Option (A × SeqProxy) :=
  let accountNext := (q.byAccount.find? r.1).bind fun a =>
    (a.transactions.firstAbove r.2 fun _ => true).map fun s => (r.1, s)
  let feeNext := q.next r
  let useAccountNext := accountNext.any fun n => feeNext.all fun m => q.feeLevel m < q.feeLevel n
  (q.erase r, if useAccountNext then accountNext else feeNext)

-- A new entry goes behind those with the same fee level.
def insertByFee (r : A × SeqProxy) (feeLevel : FeeLevel64) : List (A × SeqProxy) :=
  q.byFee.takeWhile (fun r' => feeLevel ≤ q.feeLevel r') ++
    r :: q.byFee.dropWhile (fun r' => feeLevel ≤ q.feeLevel r')

def add (c : MaybeTx A T ρ) : TxQ A T ρ :=
  let account := (q.byAccount.find? c.account).getD ⟨∅, false, false⟩
  { q with
    byFee     := q.insertByFee (c.account, c.seqProxy) c.feeLevel
    byAccount := q.byAccount.insert c.account
      { account with transactions := account.transactions.insert c.seqProxy c } }

def getRequiredFeeLevel (env : Env A T V ρ) (view : V) (flags : ApplyFlags) :
    Option FeeLevel64 := do
  let feeLevel ← FeeMetrics.scaleFeeLevel q.feeMetrics.getSnapshot (env.txCount view)
  if flags &&& tapPREFER_QUEUE ≠ 0 then
    return (q.byFee.head?.map q.feeLevel).elim feeLevel (max feeLevel)
  else
    return feeLevel

def ofSetup (setup : Setup) : TxQ A T ρ where
  setup      := setup
  feeMetrics := .ofSetup setup
  byFee      := []
  byAccount  := ∅
  maxSize    := none

-- The indexes agree.
structure Agree (q : TxQ A T ρ) : Prop where
  mem    : ∀ r, r ∈ q.byFee ↔ (q.find? r).isSome
  nodup  : q.byFee.Nodup
  sorted : q.byFee.Pairwise fun r r' => q.feeLevel r' ≤ q.feeLevel r
  keyed  : ∀ r c, q.find? r = some c → c.account = r.1 ∧ c.seqProxy = r.2

end TxQ
