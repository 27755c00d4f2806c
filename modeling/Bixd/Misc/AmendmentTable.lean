import Bixd.Ledger.ReadView
import Bixd.Protocol.Indexes
import Bixd.Protocol.STTx

-- A validation as far as it is voted with.
structure STValidation where
  isTrusted  : Bool
  -- The amendments that are voted for, if the field is present.
  amendments : Option (List UInt256)

-- The votes of a list of validations.
structure AmendmentSet where
  votes_ : UInt256 → Option Nat
  rules_ : Rules
  trustedValidations_ : Nat
  threshold_ : Nat

namespace AmendmentSet

def countVotes (votes : UInt256 → Option Nat) : List UInt256 → UInt256 → Option Nat
  | [] => votes
  | a :: choices => countVotes (Function.update votes a (some ((votes a).getD 0 + 1))) choices

def countValidation (s : (UInt256 → Option Nat) × Nat) (val : STValidation) :
    (UInt256 → Option Nat) × Nat :=
  if val.isTrusted then (countVotes s.1 (val.amendments.getD []), s.2 + 1) else s

-- The thresholds are the reduced ratios of 204 to 256 and of 80 to 100.
def make (rules : Rules) (valSet : List STValidation) : AmendmentSet :=
  let (votes, trustedValidations) := valSet.foldl countValidation (fun _ => none, 0)
  { votes_ := votes
    rules_ := rules
    trustedValidations_ := trustedValidations
    threshold_ :=
      if !rules .fixAmendmentMajorityCalc then
        max 1 (trustedValidations * 51 / 64)
      else
        max 1 (trustedValidations * 4 / 5) }

def passes (s : AmendmentSet) (amendment : UInt256) : Bool :=
  match s.votes_ amendment with
  | none       => false
  | some votes =>
    if !s.rules_ .fixAmendmentMajorityCalc ∨ s.trustedValidations_ = 1 then
      s.threshold_ ≤ votes
    else
      s.threshold_ < votes

def votes (s : AmendmentSet) (amendment : UInt256) : Nat :=
  (s.votes_ amendment).getD 0

end AmendmentSet

structure AmendmentState where
  vetoed    : Bool := false
  enabled   : Bool := false
  supported : Bool := false

structure AmendmentTable where
  amendmentMap_ : OrderedMap UInt256 AmendmentState
  -- How many seconds an amendment has to have a majority for.
  majorityTime_ : Int

namespace AmendmentTable

def get (t : AmendmentTable) (amendment : UInt256) : Option AmendmentState :=
  t.amendmentMap_.find? amendment

-- Changes the state of an amendment, which is created if there is none.
def add (t : AmendmentTable) (amendment : UInt256) (f : AmendmentState → AmendmentState) :
    AmendmentTable :=
  { t with amendmentMap_ := t.amendmentMap_.insert amendment (f ((t.get amendment).getD {})) }

def veto (t : AmendmentTable) (amendment : UInt256) : AmendmentTable :=
  t.add amendment ({ · with vetoed := true })

def unVeto (t : AmendmentTable) (amendment : UInt256) : AmendmentTable :=
  if (t.get amendment).isSome then t.add amendment ({ · with vetoed := false }) else t

def enable (t : AmendmentTable) (amendment : UInt256) : AmendmentTable :=
  t.add amendment ({ · with enabled := true })

def doValidatedLedger (t : AmendmentTable) (enabled majority : List UInt256) : AmendmentTable :=
  majority.foldl (·.add · id) (enabled.foldl enable t)

-- The action for an amendment: the flags of the pseudo-transaction. The time is zero if the ledger
-- does not have a majority.
def doVoting.action (vote : AmendmentSet) (majorityTime_ : Int) (closeTime : UInt32)
    (enabledAmendments : List UInt256) (majorityAmendments : UInt256 → Option UInt32)
    (amendment : UInt256) (state : AmendmentState) : Option UInt32 :=
  let hasValMajority := vote.passes amendment
  let majorityTime := (majorityAmendments amendment).getD 0
  if amendment ∈ enabledAmendments then
    none
  else if hasValMajority ∧ majorityTime = 0 ∧ !state.vetoed then
    some tfGotMajority
  else if !hasValMajority ∧ majorityTime ≠ 0 then
    some tfLostMajority
  else if majorityTime ≠ 0 ∧ majorityTime.toNat + majorityTime_ ≤ closeTime.toNat ∧ !state.vetoed then
    some 0
  else
    none

def doVoting (t : AmendmentTable) (rules : Rules) (closeTime : UInt32)
    (enabledAmendments : List UInt256) (majorityAmendments : UInt256 → Option UInt32)
    (valSet : List STValidation) : List (UInt256 × UInt32) :=
  let vote := AmendmentSet.make rules valSet
  t.amendmentMap_.toList.filterMap fun (amendment, state) =>
    (doVoting.action vote t.majorityTime_ closeTime enabledAmendments majorityAmendments amendment
      state).map (amendment, ·)

-- The pseudo-transaction that is injected for an action. Its identifier is a hash of it.
def amendTx (txID : UInt256) (seq : UInt32) (amendment : UInt256) (flags : UInt32) : STTx where
  txID   := txID
  type   := .ttAMENDMENT
  fields f :=
    if f = sfAmendment then some (.hash256 amendment)
    else if f = sfLedgerSequence then some (.uint32 seq)
    else if f = sfFlags ∧ flags ≠ 0 then some (.uint32 flags)
    else if f = sfAccount then some (.account (some 0))
    else none

end AmendmentTable

section

variable [Digest]

def getEnabledAmendments (view : ReadView) : List UInt256 :=
  match view.read .amendments with
  | none     => []
  | some sle => sle.getFieldV256 sfAmendments

-- The time of the last entry for an amendment.
def getMajorityAmendments (view : ReadView) (amendment : UInt256) : Option UInt32 :=
  match view.read .amendments with
  | none     => none
  | some sle =>
    ((sle.getFieldArray sfMajorities).reverse.find? (·.2.getFieldH256 sfAmendment = amendment)).map
      (·.2.getFieldU32 sfCloseTime)

end
