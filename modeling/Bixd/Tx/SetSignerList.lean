import Bixd.Tx.Transactor

-- The transaction that sets or removes the list of those who can sign for an account together.

def STTx.minMultiSigners : Nat := 1
def STTx.maxMultiSigners : Nat := 8

-- The list counts as one for the reserve.
def lsfOneOwnerCount : UInt32 := 0x00010000

structure SignerEntry where
  account : AccountID
  weight  : UInt16
  deriving DecidableEq

namespace SignerEntries

def deserialize.entry (sEntry : SField × STObject) : Except TER SignerEntry :=
  if sEntry.1 ≠ sfSignerEntry then
    .error temMALFORMED
  else
    .ok ⟨sEntry.2.getAccountID sfAccount, sEntry.2.getFieldU16 sfSignerWeight⟩

-- The entries of a transaction or of a ledger entry.
def deserialize (present : Bool) (sEntries : List (SField × STObject)) :
    Except TER (List SignerEntry) :=
  if !present then .error temMALFORMED else sEntries.mapM deserialize.entry

end SignerEntries

namespace SetSignerList

inductive Operation
  | unknown
  | set
  | destroy
  deriving DecidableEq

-- The quorum, the signers in the order of their accounts, and what is to be done.
def determineOperation (tx : STTx) : Except TER (UInt32 × List SignerEntry × Operation) := do
  let quorum := tx.getFieldU32 sfSignerQuorum
  let hasSignerEntries := tx.isFieldPresent sfSignerEntries
  if quorum ≠ 0 ∧ hasSignerEntries then
    let signers ← SignerEntries.deserialize hasSignerEntries (tx.getFieldArray sfSignerEntries)
    return (quorum, signers.insertionSort (·.account ≤ ·.account), .set)
  else if quorum = 0 ∧ !hasSignerEntries then
    return (quorum, [], .destroy)
  else
    return (quorum, [], .unknown)

-- Two entries next to each other have the same account.
def adjacentFind : List SignerEntry → Bool
  | s :: s' :: signers => s.account = s'.account || adjacentFind (s' :: signers)
  | _ => false

-- The weights are added up. No signer may be the account itself.
def validateQuorumAndSignerEntries.sum (account : AccountID) :
    Nat → List SignerEntry → Except TER Nat
  | allSignersWeight, [] => .ok allSignersWeight
  | allSignersWeight, signer :: signers =>
    if signer.weight = 0 then
      .error temBAD_WEIGHT
    else if signer.account = account then
      .error temBAD_SIGNER
    else
      sum account (allSignersWeight + signer.weight.toNat) signers

def validateQuorumAndSignerEntries (quorum : UInt32) (signers : List SignerEntry)
    (account : AccountID) : TER :=
  if signers.length < STTx.minMultiSigners ∨ signers.length > STTx.maxMultiSigners then
    temMALFORMED
  else if adjacentFind signers then
    temBAD_SIGNER
  else
    match validateQuorumAndSignerEntries.sum account 0 signers with
    | .error ter => ter
    | .ok allSignersWeight =>
      if quorum = 0 ∨ allSignersWeight < quorum.toNat then temBAD_QUORUM else tesSUCCESS

def preflight (ctx : PreflightContext) : Except String TER := do
  let ret ← Transactor.preflight1 ctx
  if !isTesSuccess ret then
    return ret
  else
    match determineOperation ctx.tx with
    | .error ter => return ter
    | .ok (_, _, .unknown) => return temMALFORMED
    | .ok (_, _, .destroy) => return Transactor.preflight2 ctx
    | .ok (quorum, signers, .set) =>
      let ter := validateQuorumAndSignerEntries quorum signers (ctx.tx.getAccountID sfAccount)
      if ter ≠ tesSUCCESS then
        return ter
      else
        return Transactor.preflight2 ctx

-- A list costs two units and one for each signer, before `featureMultiSignReserve`.
def signerCountBasedOwnerCountDelta (entryCount : Nat) : Nat :=
  2 + entryCount

-- Lists from before `featureMultiSignReserve` count for what they have cost.
def removeSignersFromLedger.count (signers : SLE) : Int :=
  if signers.getFlags &&& lsfOneOwnerCount = 0 then
    -signerCountBasedOwnerCountDelta (signers.getFieldArray sfSignerEntries).length
  else
    -1

variable [Digest]

def removeSignersFromLedger (v : ApplyView) (account : AccountID) :
    Except String (TER × ApplyView) :=
  match v.peek (.signers account) with
  | (none, v) => .ok (tesSUCCESS, v)
  | (some signers, v) => do
    let hint := signers.sle.getFieldU64 sfOwnerNode
    let (removed, v) ← v.dirRemove (.ownerDir account) hint (Keylet.signers account).key false
    if !removed then
      return (tefBAD_LEDGER, v)
    else
      let v ← adjustOwnerCountOf v account (removeSignersFromLedger.count signers.sle)
      return (tesSUCCESS, ← v.erase signers)

def writeSignersToSLE (ledgerEntry : SLE) (quorum : UInt32) (signers : List SignerEntry)
    (flags : UInt32) : SLE :=
  let ledgerEntry := ledgerEntry.set sfSignerQuorum (.uint32 quorum)
  let ledgerEntry := ledgerEntry.set sfSignerListID (.uint32 0)
  let ledgerEntry := if flags ≠ 0 then ledgerEntry.set sfFlags (.uint32 flags) else ledgerEntry
  let toLedger := signers.map fun entry =>
    (sfSignerEntry, STObject.ofList
      [(sfAccount, .account (some entry.account)), (sfSignerWeight, .uint16 entry.weight)])
  ledgerEntry.set sfSignerEntries (.array (.ofList toLedger))

-- The new list is entered in the directory of the account.
def replaceSignerList.add (v : ApplyView) (account : AccountID) (sle : SLEPtr)
    (quorum : UInt32) (signers : List SignerEntry) (flags : UInt32) (addedOwnerCount : Nat) :
    Except String (TER × ApplyView) := do
  let k := Keylet.signers account
  let (signerList, v) := v.alloc (writeSignersToSLE (.make k.type k.key) quorum signers flags)
  let v ← v.insert signerList
  let (page, v) ← v.dirInsert (.ownerDir account) k.key (describeOwnerDir account)
  match page with
  | none      => return (tecDIR_FULL, v)
  | some page =>
    let v ← v.update (signerList.set sfOwnerNode (.uint64 page))
    let (_, v) ← adjustOwnerCount v sle addedOwnerCount
    return (tesSUCCESS, v)

-- An old list is removed first, since that may reduce the reserve.
def replaceSignerList (ctx : ApplyContext) (mPriorBalance : Int) (v : ApplyView) (quorum : UInt32)
    (signers : List SignerEntry) : Except String (TER × ApplyView) := do
  let account := ctx.tx.getAccountID sfAccount
  let (ter, v) ← removeSignersFromLedger v account
  if ter ≠ tesSUCCESS then
    return (ter, v)
  else
    match v.peek (.account account) with
    | (none, v)     => return (tefINTERNAL, v)
    | (some sle, v) =>
      let reserve := v.base.rules .featureMultiSignReserve
      let addedOwnerCount := if reserve then 1 else signerCountBasedOwnerCountDelta signers.length
      let flags := if reserve then lsfOneOwnerCount else 0
      let ownerCount := sle.sle.getFieldU32 sfOwnerCount + .ofNat addedOwnerCount
      if mPriorBalance < ctx.fees.accountReserve ownerCount.toNat then
        return (tecINSUFFICIENT_RESERVE, v)
      else
        replaceSignerList.add v account sle quorum signers flags addedOwnerCount

-- The list can be removed only if there is another way to sign.
def destroySignerList (ctx : ApplyContext) (v : ApplyView) : Except String (TER × ApplyView) :=
  let account := ctx.tx.getAccountID sfAccount
  match v.peek (.account account) with
  | (none, v) => .ok (tefINTERNAL, v)
  | (some ledgerEntry, v) =>
    if ledgerEntry.sle.isFlag lsfDisableMaster ∧ !ledgerEntry.sle.isFieldPresent sfRegularKey then
      .ok (tecNO_ALTERNATIVE_KEY, v)
    else
      removeSignersFromLedger v account

def doApply (ctx : ApplyContext) (mPriorBalance : Int) (v : ApplyView) :
    Except String (TER × ApplyView) :=
  match determineOperation ctx.tx with
  | .ok (quorum, signers, .set) => replaceSignerList ctx mPriorBalance v quorum signers
  | .ok (_, _, .destroy) => destroySignerList ctx v
  | .ok (_, _, .unknown) => .ok (temMALFORMED, v)
  | .error _ => .ok (temMALFORMED, v)

def transactor : Transactor where
  preflight := preflight
  preclaim  := fun _ _ => .ok tesSUCCESS
  doApply   := doApply

end SetSignerList
