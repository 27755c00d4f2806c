import Bixd.Tx.SetSignerList

-- How a transaction is checked and applied to a ledger.

open ReadView

namespace Transactor

variable [Digest] [Ripesha]

-- Whether a signature counts for a signer: that of a phantom account, which is not in the ledger,
-- that of a master key, or that of a regular key.
def checkMultiSign.check (view : ReadView) (txSigner : STObject) : TER :=
  let txSignerAcctID := txSigner.getAccountID sfAccount
  let spk := txSigner.getFieldVL sfSigningPubKey
  if !publicKeyType spk then
    tefBAD_SIGNATURE
  else
    let signingAcctIDFromPubKey := calcAccountID spk
    match view.read (.account txSignerAcctID) with
    | none => if signingAcctIDFromPubKey = txSignerAcctID then tesSUCCESS else tefBAD_SIGNATURE
    | some sleTxSignerRoot =>
      if signingAcctIDFromPubKey = txSignerAcctID then
        if sleTxSignerRoot.getFlags &&& lsfDisableMaster ≠ 0 then tefMASTER_DISABLED else tesSUCCESS
      else if !sleTxSignerRoot.isFieldPresent sfRegularKey then
        tefBAD_SIGNATURE
      else if signingAcctIDFromPubKey ≠ sleTxSignerRoot.getAccountID sfRegularKey then
        tefBAD_SIGNATURE
      else
        tesSUCCESS

-- Both lists are sorted by account. The weight that has signed, in 32 bits.
def checkMultiSign.walk (view : ReadView) (weightSum : UInt32) :
    List SignerEntry → List (SField × STObject) → Except TER UInt32
  | _, [] => .ok weightSum
  | accountSigners, (_, txSigner) :: txSigners =>
    let txSignerAcctID := txSigner.getAccountID sfAccount
    match accountSigners.dropWhile (·.account < txSignerAcctID) with
    | [] => .error tefBAD_SIGNATURE
    | iter :: rest =>
      if iter.account ≠ txSignerAcctID then
        .error tefBAD_SIGNATURE
      else
        let ter := checkMultiSign.check view txSigner
        if ter ≠ tesSUCCESS then
          .error ter
        else
          walk view (weightSum + iter.weight.toUInt32) (iter :: rest) txSigners

def checkMultiSign (tx : STTx) (view : ReadView) : TER :=
  match view.read (.signers (tx.getAccountID sfAccount)) with
  | none => tefNOT_MULTI_SIGNING
  | some sleAccountSigners =>
    let sEntries := sleAccountSigners.getFieldArray sfSignerEntries
    let present := sleAccountSigners.isFieldPresent sfSignerEntries
    match SignerEntries.deserialize present sEntries with
    | .error ter => ter
    | .ok accountSigners =>
      match checkMultiSign.walk view 0 accountSigners (tx.getFieldArray sfSigners) with
      | .error ter => ter
      | .ok weightSum =>
        if weightSum < sleAccountSigners.getFieldU32 sfSignerQuorum then
          tefBAD_QUORUM
        else
          tesSUCCESS

-- If there is no public key, the transaction is signed by several.
def checkSign (tx : STTx) (view : ReadView) : TER :=
  if (tx.getFieldVL sfSigningPubKey).isEmpty then
    checkMultiSign tx view
  else
    checkSingleSign tx view

-- `invoke_preclaim`
def invokePreclaim (T : Transactor) (ctx : ApplyContext) (view : ReadView) (txExists : Bool) :
    Except String TER := do
  if ctx.tx.getAccountID sfAccount = 0 then
    T.preclaim ctx view
  else if checkSeqProxy view ctx.tx ≠ tesSUCCESS then
    return checkSeqProxy view ctx.tx
  else if checkPriorTxAndLastLedger ctx.tx view txExists ≠ tesSUCCESS then
    return checkPriorTxAndLastLedger ctx.tx view txExists
  else
    let result ← checkFee ctx view
    if result ≠ tesSUCCESS then
      return result
    else if checkSign ctx.tx view ≠ tesSUCCESS then
      return checkSign ctx.tx view
    else
      T.preclaim ctx view

-- `apply`: the transaction is checked by itself, then against the ledger, and then it is applied.
-- The result, and the ledger afterwards.
def applyTo (T : Transactor) (checks : InvariantChecks) (ctx : ApplyContext) (sigValid : Bool)
    (l : Ledger) : Except String (TER × Ledger) := do
  let ter ← T.preflight ⟨ctx.tx, l.rules, sigValid⟩
  if ter ≠ tesSUCCESS then
    return (ter, l)
  else
    let ter ← T.invokePreclaim ctx l.view (l.txMap.find? ctx.tx.txID).isSome
    if ter ≠ tesSUCCESS ∧ !isTecClaimHardFail ter ctx.flags then
      return (ter, l)
    else
      match ← T.call checks ctx ter l.view with
      | (ter, none)   => return (ter, l)
      | (ter, some v) => return (ter, ← v.apply l)

end Transactor
