import Bixd.Ledger.Ledger
import Bixd.Ledger.View
import Bixd.Misc.CanonicalTXSet
import Bixd.Protocol.TER

-- The result of a transaction is kept in its metadata if it is applied.
inductive ApplyResult
  | Success (ter : TER)
  | Fail
  | Retry
  deriving DecidableEq

-- How a transaction is applied to a view: the result and whether it is applied, or an exception.
abbrev Apply (V : Type) := V → STTx → ApplyFlags → V × Except String (TER × Bool)

-- A transaction that has been applied. Its index is the number of those before it.
structure TxApplied where
  index : Nat
  txn   : STTx
  ter   : TER

section BuildLedger

variable {V : Type} (apply : Apply V)

def applyTransaction (view : V) (txn : STTx) (retryAssured : Bool) (flags : ApplyFlags) :
    V × ApplyResult :=
  let flags := if retryAssured then flags ||| tapRETRY else flags
  match apply view txn flags with
  | (view, .ok (ter, true))  => (view, .Success ter)
  | (view, .ok (ter, false)) =>
    if isTefFailure ter ∨ isTemMalformed ter ∨ isTelLocal ter then
      (view, .Fail)
    else
      (view, .Retry)
  | (view, .error _) => (view, .Fail)

-- How far a set of transactions has been applied.
structure Applying (V : Type) where
  view    : V
  txns    : CanonicalTXSet
  failed  : Finset UInt256
  applied : List TxApplied := []

def LEDGER_TOTAL_PASSES : Nat := 3
def LEDGER_RETRY_PASSES : Nat := 1

namespace applyTransactions

variable (built : ReadView.Ledger)

-- One transaction of a pass, with the changes that are counted.
def visit (pass : Nat) (certainRetry : Bool) (s : Applying V × Nat)
    (it : CanonicalTXSet.Key × STTx) : Applying V × Nat :=
  let (a, changes) := s
  let txid := it.1.txId_
  if pass = 0 ∧ built.txExists txid then
    ({ a with txns := a.txns.erase it.1 }, changes)
  else
    match applyTransaction apply a.view it.2 certainRetry tapNONE with
    | (view, .Success ter) => ({ a with
        view := view
        txns := a.txns.erase it.1
        applied := a.applied ++ [⟨a.applied.length, it.2, ter⟩] }, changes + 1)
    | (view, .Fail) => ({ a with
        view := view
        txns := a.txns.erase it.1
        failed := insert txid a.failed }, changes)
    | (view, .Retry) => ({ a with view := view }, changes)

-- A pass goes through the set, from which transactions are erased behind the iterator.
def pass (pass : Nat) (certainRetry : Bool) (a : Applying V) : Applying V × Nat :=
  a.txns.map_.toList.foldl (visit apply built pass certainRetry) (a, 0)

-- The passes that are left, and the number of transactions that have been applied.
def passes : Nat → Nat → Bool → Applying V × Nat → Applying V × Nat
  | 0, _, _, s => s
  | n + 1, i, certainRetry, (a, count) =>
    let (a, changes) := pass apply built i certainRetry a
    let count := count + changes
    if changes = 0 ∧ !certainRetry then
      -- A non-retry pass made no changes.
      (a, count)
    else
      -- Stop retriable passes.
      passes n (i + 1) (if changes = 0 ∨ i ≥ LEDGER_RETRY_PASSES then false else certainRetry)
        (a, count)

end applyTransactions

def applyTransactions (built : ReadView.Ledger) (txns : CanonicalTXSet) (failed : Finset UInt256)
    (view : V) : Applying V × Nat :=
  applyTransactions.passes apply built LEDGER_TOTAL_PASSES 0 true
    ({ view := view, txns := txns, failed := failed }, 0)

-- The transactions of a ledger by their indices. The ledger has them in any order.
def LedgerReplay.orderedTxns (items : List TxApplied) : OrderedMap Nat STTx :=
  items.foldl (fun m item =>
    if (m.find? item.index).isSome then m else m.insert item.index item.txn) ∅

-- A transaction is applied without a retry, and its result is collected.
def LedgerReplay.step (applyFlags : ApplyFlags) (s : V × List ApplyResult) (txn : STTx) :
    V × List ApplyResult :=
  let (view, result) := applyTransaction apply s.1 txn false applyFlags
  (view, s.2 ++ [result])

def LedgerReplay.replay (view : V) (orderedTxns : OrderedMap Nat STTx) (applyFlags : ApplyFlags) :
    V × List ApplyResult :=
  (orderedTxns.toList.map Prod.snd).foldl (step apply applyFlags) (view, [])

end BuildLedger

namespace BuildLedger

open ReadView

variable [Digest]

-- The ledger that the transactions are applied to.
def start (parent : Ledger) (closeTime : UInt32) : Except String Ledger :=
  let built := parent.next closeTime
  if isFlagLedger built.info.seq ∧ built.rules .featureNegativeUNL then
    built.updateNegativeUNL
  else
    .ok built

-- The transactions are applied to a view that collects their changes. When the ledger is accepted,
-- it gets its close time, its hash and its rules.
def buildLedgerImpl {α : Type} (parent : Ledger) (closeTime : UInt32)
    (setAccepted : Ledger → UInt32 → Ledger) (applyTxs : OpenView → Ledger → OpenView × α) :
    Except String (Ledger × α) := do
  let built ← start parent closeTime
  let (accum, x) := applyTxs (OpenView.make built.view) built
  let built ← accum.apply built
  let built ← built.updateSkipList
  return (setAccepted built closeTime, x)

variable (apply : Apply OpenView) (setAccepted : Ledger → UInt32 → Ledger)

-- A ledger is built from transactions that there is consensus on.
def buildLedger (parent : Ledger) (closeTime : UInt32) (txns : CanonicalTXSet)
    (failedTxns : Finset UInt256) : Except String (Ledger × Applying OpenView × Nat) :=
  buildLedgerImpl parent closeTime setAccepted fun accum built =>
    let s := applyTransactions apply built txns failedTxns accum
    (s.1.view, s)

-- A ledger is built again.
def replayLedger (parent : Ledger) (closeTime : UInt32) (orderedTxns : OrderedMap Nat STTx)
    (applyFlags : ApplyFlags) : Except String (Ledger × List ApplyResult) :=
  buildLedgerImpl parent closeTime setAccepted fun accum _ =>
    LedgerReplay.replay apply accum orderedTxns applyFlags

end BuildLedger
