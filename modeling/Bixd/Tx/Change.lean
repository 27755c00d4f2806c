import Bixd.Ledger.Ledger
import Bixd.Ledger.View
import Bixd.Misc.AmendmentTable
import Bixd.Protocol.PublicKey
import Bixd.Protocol.TER

-- Pseudo-transactions, which change settings of the ledger.

namespace Change

variable [Digest]

def applyAmendment.majority (amendment : UInt256) (closeTime : UInt32) : SField × STObject :=
  (sfMajority, .ofList [(sfAmendment, .hash256 amendment), (sfCloseTime, .uint32 closeTime)])

-- The changed entry, or the result if the transaction fails.
def applyAmendment.edit (amendmentObject : SLE) (amendment : UInt256)
    (gotMajority lostMajority : Bool) (parentCloseTime : UInt32) : Except TER SLE :=
  let amendments := amendmentObject.getFieldV256 sfAmendments
  let oldMajorities := amendmentObject.getFieldArray sfMajorities
  let found := oldMajorities.any (·.2.getFieldH256 sfAmendment = amendment)
  let passed := oldMajorities.filter (·.2.getFieldH256 sfAmendment ≠ amendment)
  if amendment ∈ amendments then
    .error tefALREADY
  else if gotMajority ∧ lostMajority then
    .error temINVALID_FLAG
  else if found ∧ gotMajority then
    .error tefALREADY
  else if !found ∧ lostMajority then
    .error tefALREADY
  else
    let newMajorities :=
      if gotMajority then passed ++ [majority amendment parentCloseTime] else passed
    let amendmentObject :=
      if !gotMajority ∧ !lostMajority then
        -- No flags, enable amendment.
        amendmentObject.set sfAmendments (.vector256 (amendments ++ [amendment]))
      else
        amendmentObject
    if newMajorities.isEmpty then
      .ok (amendmentObject.makeFieldAbsent sfMajorities)
    else
      .ok (amendmentObject.set sfMajorities (.array (.ofList newMajorities)))

-- The result, the view and the table after the transaction.
def applyAmendment (tx : STTx) (table : AmendmentTable) (v : ApplyView) :
    Except String (TER × ApplyView × AmendmentTable) := do
  let amendment := tx.getFieldH256 sfAmendment
  let (amendmentObject, v) ← v.peekOrInsert .amendments
  let gotMajority : Bool := tx.getFlags &&& tfGotMajority ≠ 0
  let lostMajority : Bool := tx.getFlags &&& tfLostMajority ≠ 0
  match applyAmendment.edit amendmentObject.sle amendment gotMajority lostMajority
    v.base.info.parentCloseTime with
  | .error ter => return (ter, v, table)
  | .ok sle    =>
    let table := if !gotMajority ∧ !lostMajority then table.enable amendment else table
    return (tesSUCCESS, ← v.update { amendmentObject with sle := sle }, table)

-- The changed entry, or the result if the transaction fails.
def applyUNLModify.edit (negUnlObject : SLE) (disabling : Bool) (validator : Blob) :
    Except TER SLE :=
  let found := (negUnlObject.getFieldArray sfDisabledValidators).any fun v =>
    v.2.isFieldPresent sfPublicKey ∧ v.2.getFieldVL sfPublicKey = validator
  if disabling then
    if negUnlObject.isFieldPresent sfValidatorToDisable then
      -- Cannot have more than one to disable.
      .error tefFAILURE
    else if negUnlObject.isFieldPresent sfValidatorToReEnable ∧
        negUnlObject.getFieldVL sfValidatorToReEnable = validator then
      .error tefFAILURE
    else if found then
      .error tefFAILURE
    else
      .ok (negUnlObject.set sfValidatorToDisable (.vl validator))
  else
    if negUnlObject.isFieldPresent sfValidatorToReEnable then
      -- Cannot have more than one to re-enable.
      .error tefFAILURE
    else if negUnlObject.isFieldPresent sfValidatorToDisable ∧
        negUnlObject.getFieldVL sfValidatorToDisable = validator then
      .error tefFAILURE
    else if !found then
      .error tefFAILURE
    else
      .ok (negUnlObject.set sfValidatorToReEnable (.vl validator))

def applyUNLModify (tx : STTx) (v : ApplyView) : Except String (TER × ApplyView × Unit) :=
  if !isFlagLedger v.base.info.seq then
    .ok (tefFAILURE, v, ())
  else if !tx.isFieldPresent sfUNLModifyDisabling ∨ tx.getFieldU8 sfUNLModifyDisabling > 1 ∨
      !tx.isFieldPresent sfLedgerSequence ∨ !tx.isFieldPresent sfUNLModifyValidator then
    .ok (tefFAILURE, v, ())
  else if tx.getFieldU32 sfLedgerSequence ≠ v.base.info.seq then
    .ok (tefFAILURE, v, ())
  else if !publicKeyType (tx.getFieldVL sfUNLModifyValidator) then
    .ok (tefFAILURE, v, ())
  else do
    let disabling := tx.getFieldU8 sfUNLModifyDisabling ≠ 0
    let (negUnlObject, v) ← v.peekOrInsert .negativeUNL
    match applyUNLModify.edit negUnlObject.sle disabling (tx.getFieldVL sfUNLModifyValidator) with
    | .error ter => return (ter, v, ())
    | .ok sle    => return (tesSUCCESS, ← v.update { negUnlObject with sle := sle }, ())

-- What is done to the ledger. Changes are kept if the transaction succeeds.
def applyTo {α : Type} (doApply : ApplyView → Except String (TER × ApplyView × α))
    (l : ReadView.Ledger) : Except String (TER × ReadView.Ledger × α) := do
  let (ter, v, x) ← doApply ⟨l.view, {}⟩
  if isTesSuccess ter then
    return (ter, ← v.apply l, x)
  else
    return (ter, l, x)

end Change
