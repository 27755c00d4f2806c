import Bixd.Ledger.Ledger
import Bixd.Lib.HashMap

namespace NegativeUNLVote

def negativeUNLMinLocalValsToVote : Nat :=
  FLAG_LEDGER_INTERVAL.toNat * 90 / 100

-- What is logged when there is no score table.
inductive NoTable
  | noHistory
  | notEnoughHistory (numAncestors : Nat)
  | onlyIssued (myValidationCount : UInt32)
  | tooMany (myValidationCount : UInt32)

variable {N : Type} [DecidableEq N]

def score (scoreTable : HashMap N UInt32) (v : N) : HashMap N UInt32 :=
  (scoreTable.find? v).elim scoreTable fun n => scoreTable.insert v (n + 1)

-- The previous ledger has the skip list `hashIndex`. The trusted validations of a ledger are given
-- by the nodes that issued them.
def buildScoreTable (myId : N) (hashIndex : Option SLE) (unl : List N)
    (getTrustedForLedger : UInt256 → List N) : Except NoTable (HashMap N UInt32) :=
  match hashIndex.filter (·.isFieldPresent sfHashes) with
  | none => .error .noHistory
  | some hashIndex =>
    let ledgerAncestors := hashIndex.getFieldV256 sfHashes
    let numAncestors := ledgerAncestors.length
    if numAncestors < FLAG_LEDGER_INTERVAL.toNat then
      .error (.notEnoughHistory numAncestors)
    else
      let scoreTable := unl.foldl (fun t k => t.insert k 0) ∅
      let scoreTable := (ledgerAncestors.reverse.take FLAG_LEDGER_INTERVAL.toNat).foldl
        (fun t hash => (getTrustedForLedger hash).foldl score t) scoreTable
      let myValidationCount := (scoreTable.find? myId).getD 0
      if myValidationCount.toNat < negativeUNLMinLocalValsToVote then
        .error (.onlyIssued myValidationCount)
      else if myValidationCount.toNat > negativeUNLMinLocalValsToVote ∧
          myValidationCount ≤ FLAG_LEDGER_INTERVAL then
        .ok scoreTable
      else
        .error (.tooMany myValidationCount)

end NegativeUNLVote
