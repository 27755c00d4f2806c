import Bixd.Tx.Change

open ReadView Keylet

namespace AmendmentTable

variable [Digest]

-- The majorities that the ledger has, with the times they were recorded at.
def majorities (l : Ledger) : List (UInt256 × UInt32) :=
  match l.view.read .amendments with
  | none     => []
  | some sle =>
    (sle.getFieldArray sfMajorities).map fun e =>
      (e.2.getFieldH256 sfAmendment, e.2.getFieldU32 sfCloseTime)

-- Transactions that have nothing to do with amendments.
structure Other (l l' : Ledger) : Prop where
  entry : l'.contents.state amendments.key = l.contents.state amendments.key
  parentCloseTime : l'.info.parentCloseTime = l.info.parentCloseTime

-- The pseudo-transactions are applied to a ledger, in any order and among other transactions.
inductive Built (l₀ : Ledger) (t₀ : AmendmentTable) : List STTx → Ledger → AmendmentTable → Prop
  | init : Built l₀ t₀ [] l₀ t₀
  | tx {txs tx ter l l' t t'} : Built l₀ t₀ txs l t →
    Change.applyTo (Change.applyAmendment tx t) l = .ok (ter, l', t') →
    Built l₀ t₀ (txs ++ [tx]) l' t'
  | other {txs l l' t} : Built l₀ t₀ txs l t → Other l l' → Built l₀ t₀ txs l' t

-- A flag ledger: the vote and what came of it.
structure Round where
  before    : Ledger
  rules     : Rules
  -- The parent close time that the vote is held with.
  closeTime : UInt32
  valSet    : List STValidation
  actions   : List (UInt256 × UInt32)
  -- The ledger with the pseudo-transactions.
  after     : Ledger

namespace Round

def vote (r : Round) : AmendmentSet :=
  .make r.rules r.valSet

-- The amendment is enabled in the round.
def Enables (r : Round) (a : UInt256) : Prop :=
  a ∉ getEnabledAmendments r.before.view ∧ a ∈ getEnabledAmendments r.after.view

-- The amendment's majority is recorded in the round, with the parent close time of the ledger.
def Records (r : Round) (a : UInt256) (time : UInt32) : Prop :=
  a ∉ (majorities r.before).map Prod.fst ∧ (a, time) ∈ majorities r.after ∧
    time = r.after.info.parentCloseTime

-- The round is held in a ledger that comes after `l`.
structure Held (l : Ledger) (t : AmendmentTable) (r : Round) (l' : Ledger) (t' : AmendmentTable) :
    Prop where
  before  : r.before = l
  actions : r.actions = t.doVoting r.rules r.closeTime (getEnabledAmendments l.view)
    (getMajorityAmendments l.view) r.valSet
  built   : ∃ (l₁ : Ledger) (txID : UInt256 → UInt256) (seq : UInt32)
    (actions : List (UInt256 × UInt32)),
    l₁.contents.state amendments.key = l.contents.state amendments.key ∧
      actions.Perm r.actions ∧
      Built l₁ t (actions.map fun (a, flags) => amendTx (txID a) seq a flags) l' t'
  after   : r.after = l'

end Round

-- Runs from a ledger without majorities. Between the rounds, amendments are vetoed or not any more,
-- and the table is told about validated ledgers.
inductive Reachable : List Round → Ledger → AmendmentTable → Prop
  | init {l t} :
    (∀ s, l.contents.state amendments.key = some s → s.type = .ltAMENDMENTS) →
    (getEnabledAmendments l.view).Nodup → majorities l = [] → Reachable [] l t
  | veto {rs l t} (a : UInt256) : Reachable rs l t → Reachable rs l (t.veto a)
  | unVeto {rs l t} (a : UInt256) : Reachable rs l t → Reachable rs l (t.unVeto a)
  | validated {rs l t} (enabled majority : List UInt256) : Reachable rs l t →
    Reachable rs l (t.doValidatedLedger enabled majority)
  | other {rs l l' t} : Reachable rs l t →
    l'.contents.state amendments.key = l.contents.state amendments.key →
    Reachable rs l' t
  | round {rs r l t l' t'} : Reachable rs l t → Round.Held l t r l' t' → Reachable (rs ++ [r]) l' t'

end AmendmentTable
