import Bixd.Tx.Change

open ReadView

namespace NegativeUNL

variable [Digest]

-- The entry of the ledger and what it has.

def entry (l : Ledger) : Option SLE :=
  l.view.read .negativeUNL

def hasField (l : Ledger) (f : SField) : Bool :=
  match entry l with
  | none     => false
  | some sle => sle.isFieldPresent f

def disabledValidators (l : Ledger) : List Blob :=
  match entry l with
  | none     => []
  | some sle => (sle.getFieldArray sfDisabledValidators).map (·.2.getFieldVL sfPublicKey)

def pending (l : Ledger) (f : SField) : Option Blob :=
  match entry l with
  | none     => none
  | some sle => if sle.isFieldPresent f then some (sle.getFieldVL f) else none

def validatorToDisable (l : Ledger) : Option Blob :=
  pending l sfValidatorToDisable

def validatorToReEnable (l : Ledger) : Option Blob :=
  pending l sfValidatorToReEnable

-- A pseudo-transaction that succeeded in the ledger with this sequence.
structure Recorded where
  seq       : UInt32
  disabling : Bool
  validator : Blob

def Recorded.of (tx : STTx) (l : Ledger) : Recorded :=
  ⟨l.info.seq, tx.getFieldU8 sfUNLModifyDisabling ≠ 0, tx.getFieldVL sfUNLModifyValidator⟩

-- The validators of the pseudo-transactions of one kind.
def Recorded.validators (rs : List Recorded) (disabling : Bool) : List Blob :=
  (rs.filter (·.disabling = disabling)).map Recorded.validator

-- Transactions and other changes that have nothing to do with the entry.
structure Other (l l' : Ledger) : Prop where
  state : l'.contents.state Keylet.negativeUNL.key = l.contents.state Keylet.negativeUNL.key
  seq   : l'.info.seq = l.info.seq

-- One step of a run: a ledger follows, a pseudo-transaction is applied, or something else is done.
-- The pseudo-transactions are those that succeeded since the last flag ledger was begun.
inductive Step : List Recorded → Ledger → List Recorded → Ledger → Prop
  | next {rs l} (closeTime : UInt32) : !isFlagLedger (l.info.seq + 1) →
    Step rs l rs (l.next closeTime)
  | flag {rs l l'} (closeTime : UInt32) : isFlagLedger (l.info.seq + 1) →
    (l.next closeTime).updateNegativeUNL = .ok l' → Step rs l [] l'
  | modify {rs l l' ter} (tx : STTx) :
    Change.applyTo (Change.applyUNLModify tx) l = .ok (ter, l', ()) →
    Step rs l (if isTesSuccess ter then rs ++ [.of tx l] else rs) l'
  | other {rs l l'} : Other l l' → Step rs l rs l'

-- Runs from a ledger without the entry.
inductive Reachable : List Recorded → Ledger → Prop
  | init {l} : l.contents.state Keylet.negativeUNL.key = none → Reachable [] l
  | step {rs l rs' l'} : Reachable rs l → Step rs l rs' l' → Reachable rs' l'

end NegativeUNL
