import Bixd.Ledger.Offer
import Bixd.Protocol.PublicKey
import Bixd.Protocol.SeqProxy

-- What transactions have in common.

-- A result that claims a fee, and there is no retry.
def isTecClaimHardFail (ter : TER) (flags : ApplyFlags) : Bool :=
  isTecClaim ter && flags &&& tapRETRY = 0

structure PreflightContext where
  tx       : STTx
  rules    : Rules
  -- The result of `checkValidity`.
  sigValid : Bool

-- What a transaction is applied with.
structure ApplyContext where
  tx : STTx
  fees : Fees
  flags : ApplyFlags := tapNONE
  -- The result of `minimumFee`, which depends on the load of the server.
  minimumFee : Int := 0

-- A kind of transactions.
structure Transactor where
  preflight : PreflightContext → Except String TER
  preclaim  : ApplyContext → ReadView → Except String TER
  -- The balance is the one that the account has before it pays the fee.
  doApply   : ApplyContext → (mPriorBalance : Int) → ApplyView → Except String (TER × ApplyView)

-- Whether the checks pass for a transaction with this result and this fee.
abbrev InvariantChecks := STTx → TER → Int → ApplyView → Bool

-- The maximum number of entries that a transaction may change.
def oversizeMetaDataCap : Nat := 5200

-- The maximum number of offers that are removed because they are unfunded.
def unfundedOfferRemoveLimit : Nat := 1000

namespace Transactor

def preflight0 (ctx : PreflightContext) : TER :=
  if ctx.tx.txID = 0 then temINVALID else tesSUCCESS

def preflight1 (ctx : PreflightContext) : Except String TER := do
  if ctx.tx.isFieldPresent sfTicketSequence ∧ !ctx.rules .featureTicketBatch then
    return temMALFORMED
  else if !isTesSuccess (preflight0 ctx) then
    return preflight0 ctx
  else if ctx.tx.getAccountID sfAccount = 0 then
    return temBAD_SRC_ACCOUNT
  else
    let fee := ctx.tx.getFieldAmount sfFee
    if !fee.mIsNative ∨ fee.mIsNegative ∨ !isLegalAmount (← fee.bixrp) then
      return temBAD_FEE
    else
      let spk := ctx.tx.getFieldVL sfSigningPubKey
      if !spk.isEmpty ∧ !publicKeyType spk then
        return temBAD_SIGNATURE
      else if ctx.tx.getSeqProxy.isTicket ∧ ctx.tx.isFieldPresent sfAccountTxnID then
        return temINVALID
      else
        return tesSUCCESS

def preflight2 (ctx : PreflightContext) : TER :=
  if ctx.sigValid then tesSUCCESS else temINVALID

section

variable [Digest]

def checkFee (ctx : ApplyContext) (view : ReadView) : Except String TER := do
  let fee := ctx.tx.getFieldAmount sfFee
  if !fee.mIsNative then
    return temBAD_FEE
  else
    let feePaid ← fee.bixrp
    if !isLegalAmount feePaid ∨ feePaid < 0 then
      return temBAD_FEE
    else if view.isOpen ∧ feePaid < ctx.minimumFee then
      return telINSUF_FEE_P
    else if feePaid = 0 then
      return tesSUCCESS
    else
      match view.read (.account (ctx.tx.getAccountID sfAccount)) with
      | none     => return terNO_ACCOUNT
      | some sle =>
        let balance ← (sle.getFieldAmount sfBalance).bixrp
        if balance < feePaid then
          if balance > 0 ∧ !view.isOpen then
            return tecINSUFF_FEE
          else
            return terINSUF_FEE_B
        else
          return tesSUCCESS

def checkSeqProxy (view : ReadView) (tx : STTx) : TER :=
  let id := tx.getAccountID sfAccount
  match view.read (.account id) with
  | none     => terNO_ACCOUNT
  | some sle =>
    let t_seqProx := tx.getSeqProxy
    let a_seq := SeqProxy.sequence (sle.getFieldU32 sfSequence)
    if t_seqProx.isSeq then
      if tx.isFieldPresent sfTicketSequence ∧ view.rules .featureTicketBatch then
        temSEQ_AND_TICKET
      else if t_seqProx ≠ a_seq then
        if a_seq < t_seqProx then terPRE_SEQ else tefPAST_SEQ
      else
        tesSUCCESS
    else if a_seq.value ≤ t_seqProx.value then
      -- The ticket may not have been created yet.
      terPRE_TICKET
    else if !view.exists_ (.ticket id t_seqProx.value) then
      tefNO_TICKET
    else
      tesSUCCESS

-- `txExists` says whether the ledger has the transaction already.
def checkPriorTxAndLastLedger (tx : STTx) (view : ReadView) (txExists : Bool) : TER :=
  match view.read (.account (tx.getAccountID sfAccount)) with
  | none     => terNO_ACCOUNT
  | some sle =>
    if tx.isFieldPresent sfAccountTxnID ∧
        sle.getFieldH256 sfAccountTxnID ≠ tx.getFieldH256 sfAccountTxnID then
      tefWRONG_PRIOR
    else if tx.isFieldPresent sfLastLedgerSequence ∧
        view.info.seq > tx.getFieldU32 sfLastLedgerSequence then
      tefMAX_LEDGER
    else if txExists then
      tefALREADY
    else
      tesSUCCESS

-- There is one ticket less. The field goes away with the last one.
def ticketDelete.count (sleAccount : SLE) (ticketCount : UInt32) : SLE :=
  if ticketCount = 1 then
    sleAccount.makeFieldAbsent sfTicketCount
  else
    sleAccount.set sfTicketCount (.uint32 (ticketCount - 1))

-- The ticket is deleted, which counts for the reserve of the account.
def ticketDelete (v : ApplyView) (account : AccountID) (ticketIndex : UInt256) :
    Except String (TER × ApplyView) :=
  match v.peek ⟨.ltTICKET, ticketIndex⟩ with
  | (none, v) => .ok (tefBAD_LEDGER, v)
  | (some sleTicket, v) => do
    let page := sleTicket.sle.getFieldU64 sfOwnerNode
    let (removed, v) ← v.dirRemove (.ownerDir account) page ticketIndex true
    if !removed then
      return (tefBAD_LEDGER, v)
    else
      match v.peek (.account account) with
      | (none, v) => return (tefBAD_LEDGER, v)
      | (some sleAccount, v) =>
        match sleAccount.sle.optU32 sfTicketCount with
        | none => return (tefBAD_LEDGER, v)
        | some ticketCount =>
          let sle := ticketDelete.count sleAccount.sle ticketCount
          let (_, v) ← adjustOwnerCount v { sleAccount with sle := sle } (-1)
          return (tesSUCCESS, ← v.erase sleTicket)

def consumeSeqProxy (tx : STTx) (v : ApplyView) (sleAccount : SLEPtr) :
    Except String (TER × ApplyView) := do
  let seqProx := tx.getSeqProxy
  if seqProx.isSeq then
    return (tesSUCCESS, ← v.update (sleAccount.set sfSequence (.uint32 (seqProx.value + 1))))
  else
    let account := tx.getAccountID sfAccount
    ticketDelete v account (Keylet.ticket account seqProx.value).key

def payFee (tx : STTx) (v : ApplyView) (mPriorBalance : Int) : Except String (TER × ApplyView) := do
  let feePaid ← (tx.getFieldAmount sfFee).bixrp
  match v.peek (.account (tx.getAccountID sfAccount)) with
  | (none, v)     => return (tefINTERNAL, v)
  | (some sle, v) =>
    let mSourceBalance := mPriorBalance - feePaid
    return (tesSUCCESS, ← v.update (sle.set sfBalance (.amount (.ofDrops mSourceBalance))))

-- The transaction is recorded in the account that has asked for it.
def apply.track (tx : STTx) (v : ApplyView) : Except String ApplyView :=
  match v.peek (.account (tx.getAccountID sfAccount)) with
  | (none, v)     => .ok v
  | (some sle, v) =>
    if sle.sle.isFieldPresent sfAccountTxnID then
      v.update (sle.set sfAccountTxnID (.hash256 tx.txID))
    else
      v.update sle

-- Changes that are made to an account's entry before `update` is called are made with it here.
def apply (T : Transactor) (ctx : ApplyContext) (v : ApplyView) :
    Except String (TER × ApplyView) :=
  match v.peek (.account (ctx.tx.getAccountID sfAccount)) with
  | (none, v)     => T.doApply ctx 0 v
  | (some sle, v) => do
    let mPriorBalance ← (sle.sle.getFieldAmount sfBalance).bixrp
    let (result, v) ← consumeSeqProxy ctx.tx v sle
    if result ≠ tesSUCCESS then
      return (result, v)
    else
      let (result, v) ← payFee ctx.tx v mPriorBalance
      if result ≠ tesSUCCESS then
        return (result, v)
      else
        T.doApply ctx mPriorBalance (← apply.track ctx.tx v)

def removeUnfundedOffers (removed : Nat) : List UInt256 → ApplyView → Except String ApplyView
  | [], v => .ok v
  | index :: offers, v =>
    match v.peek ⟨.ltOFFER, index⟩ with
    | (none, v) => removeUnfundedOffers removed offers v
    | (some sleOffer, v) => do
      let (_, v) ← offerDelete v sleOffer
      if removed + 1 = unfundedOfferRemoveLimit then
        return v
      else
        removeUnfundedOffers (removed + 1) offers v

-- The context is reset, and the fee is charged as far as the balance goes.
def reset (tx : STTx) (base : ReadView) (fee : Int) : Except String (TER × Int × ApplyView) :=
  match ApplyView.peek ⟨base, {}⟩ (.account (tx.getAccountID sfAccount)) with
  | (none, v) => .ok (tefINTERNAL, 0, v)
  | (some txnAcct, v) => do
    let balance ← (txnAcct.sle.getFieldAmount sfBalance).bixrp
    let fee := if fee > balance then balance else fee
    let txnAcct := txnAcct.set sfBalance (.amount (.ofDrops (balance - fee)))
    let v ← v.update txnAcct
    let (ter, v) ← consumeSeqProxy tx v txnAcct
    return (ter, fee, v)

-- The offers that have been deleted as they were.
def call.removedOffers (v : ApplyView) : List UInt256 :=
  (v.items.visit v.base).filterMap fun
    | (index, true, some before, some after) =>
      if before.type = .ltOFFER ∧
          (before.getFieldAmount sfTakerPays).eq (after.getFieldAmount sfTakerPays) then
        some index
      else
        none
    | _ => none

def failInvariantCheck (result : TER) : TER :=
  if result = tecINVARIANT_FAILED ∨ result = tefINVARIANT_FAILED then
    tefINVARIANT_FAILED
  else
    tecINVARIANT_FAILED

def checkInvariants (checks : InvariantChecks) (tx : STTx) (result : TER) (fee : Int)
    (v : ApplyView) : TER :=
  if checks tx result fee v then result else failInvariantCheck result

-- The result, and the view if it is to be applied.
def call.finish (checks : InvariantChecks) (tx : STTx) (base : ReadView) (result : TER) (fee : Int)
    (v : ApplyView) : Except String (TER × Option ApplyView) := do
  let result := checkInvariants checks tx result fee v
  let (result, fee, v) ← (
    if result = tecINVARIANT_FAILED then do
      -- Only the fee is claimed.
      let (ter, fee, v) ← reset tx base fee
      if !isTesSuccess ter then
        return (ter, fee, v)
      else
        return (checkInvariants checks tx result fee v, fee, v)
    else
      return (result, fee, v))
  if !isTecClaim result ∧ !isTesSuccess result then
    return (result, none)
  else if fee < 0 then
    .error "fee charged is negative!"
  else if !base.isOpen ∧ fee ≠ 0 then
    return (result, some (v.rawDestroyBIXRP fee))
  else
    return (result, some v)

-- The transaction claims a fee only. Offers that have been found unfunded are removed.
def call.claim (checks : InvariantChecks) (tx : STTx) (base : ReadView) (result : TER) (fee : Int)
    (v : ApplyView) : Except String (TER × Option ApplyView) := do
  let removedOffers :=
    if result = tecOVERSIZE ∨ result = tecKILLED then call.removedOffers v else []
  let (ter, fee, v) ← reset tx base fee
  let result := if !isTesSuccess ter then ter else result
  let v ← (
    if result = tecOVERSIZE ∨ result = tecKILLED then
      removeUnfundedOffers 0 removedOffers v
    else
      return v)
  if isTecClaim result then
    call.finish checks tx base result fee v
  else
    return (result, none)

-- `operator()`
def call (T : Transactor) (checks : InvariantChecks) (ctx : ApplyContext) (preclaimResult : TER)
    (base : ReadView) : Except String (TER × Option ApplyView) := do
  let (result, v) ← (
    if preclaimResult = tesSUCCESS then
      T.apply ctx ⟨base, {}⟩
    else
      return (preclaimResult, ⟨base, {}⟩))
  let applied := isTesSuccess result
  let fee ← (ctx.tx.getFieldAmount sfFee).bixrp
  let result := if v.items.size > oversizeMetaDataCap then tecOVERSIZE else result
  if isTecClaim result ∧ ctx.flags &&& tapFAIL_HARD ≠ 0 then
    return (result, none)
  else if result = tecOVERSIZE ∨ result = tecKILLED ∨ isTecClaimHardFail result ctx.flags then
    call.claim checks ctx.tx base result fee v
  else if applied then
    call.finish checks ctx.tx base result fee v
  else
    return (result, none)

end

section

variable [Digest] [Ripesha]

def checkSingleSign (tx : STTx) (view : ReadView) : TER :=
  let pkSigner := tx.getFieldVL sfSigningPubKey
  if !publicKeyType pkSigner then
    tefBAD_AUTH
  else
    let idSigner := calcAccountID pkSigner
    let idAccount := tx.getAccountID sfAccount
    match view.read (.account idAccount) with
    | none => terNO_ACCOUNT
    | some sleAccount =>
      let isMasterDisabled := sleAccount.isFlag lsfDisableMaster
      if view.rules .fixMasterKeyAsRegularKey then
        if sleAccount.optAccountID sfRegularKey = some idSigner then
          tesSUCCESS
        else if !isMasterDisabled ∧ idAccount = idSigner then
          tesSUCCESS
        else if isMasterDisabled ∧ idAccount = idSigner then
          tefMASTER_DISABLED
        else
          tefBAD_AUTH
      else if idSigner = idAccount then
        if isMasterDisabled then tefMASTER_DISABLED else tesSUCCESS
      else if sleAccount.optAccountID sfRegularKey = some idSigner then
        tesSUCCESS
      else if sleAccount.isFieldPresent sfRegularKey then
        tefBAD_AUTH
      else
        tefBAD_AUTH_MASTER

end

end Transactor
