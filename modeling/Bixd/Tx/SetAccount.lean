import Bixd.Tx.Transactor

-- The transaction that changes the settings of an account.

-- The rate of a transfer without a fee, and the limits of a tick size and of a domain.
def QUALITY_ONE : UInt32 := 1000000000
def Quality.minTickSize : UInt8 := 3
def Quality.maxTickSize : UInt8 := 16
def DOMAIN_BYTES_MAX : Nat := 256

-- There are no entries.
def dirIsEmpty (view : ReadView) (k : Keylet) : Bool :=
  match view.read k with
  | none => true
  | some sleNode => (sleNode.getFieldV256 sfIndexes).isEmpty && sleNode.getFieldU64 sfIndexNext = 0

namespace SetAccount

-- A setting is asked for by a flag of the transaction or by a field.
def asks (tx : STTx) (flag : UInt32) (field : SField) (asf : UInt32) : Bool :=
  tx.getFlags &&& flag ≠ 0 || tx.getFieldU32 field = asf

def bSetRequireDest    (tx : STTx) : Bool := asks tx tfRequireDestTag sfSetFlag asfRequireDest
def bClearRequireDest  (tx : STTx) : Bool := asks tx tfOptionalDestTag sfClearFlag asfRequireDest
def bSetRequireAuth    (tx : STTx) : Bool := asks tx tfRequireAuth sfSetFlag asfRequireAuth
def bClearRequireAuth  (tx : STTx) : Bool := asks tx tfOptionalAuth sfClearFlag asfRequireAuth
def bSetDisallowBIXRP  (tx : STTx) : Bool := asks tx tfDisallowBIXRP sfSetFlag asfDisallowBIXRP
def bClearDisallowBIXRP (tx : STTx) : Bool := asks tx tfAllowBIXRP sfClearFlag asfDisallowBIXRP

def preflight.badTransferRate (tx : STTx) : Bool :=
  let uRate := tx.getFieldU32 sfTransferRate
  tx.isFieldPresent sfTransferRate &&
    (uRate ≠ 0 && uRate < QUALITY_ONE || uRate > 2 * QUALITY_ONE)

def preflight.badTickSize (tx : STTx) : Bool :=
  let uTickSize := tx.getFieldU8 sfTickSize
  tx.isFieldPresent sfTickSize && uTickSize ≠ 0 &&
    (uTickSize < Quality.minTickSize || uTickSize > Quality.maxTickSize)

def preflight (ctx : PreflightContext) : Except String TER := do
  let ret ← Transactor.preflight1 ctx
  let tx := ctx.tx
  let uSetFlag := tx.getFieldU32 sfSetFlag
  let uClearFlag := tx.getFieldU32 sfClearFlag
  if !isTesSuccess ret then
    return ret
  else if tx.getFlags &&& tfAccountSetMask ≠ 0 then
    return temINVALID_FLAG
  else if uSetFlag ≠ 0 ∧ uSetFlag = uClearFlag then
    return temINVALID_FLAG
  else if bSetRequireAuth tx ∧ bClearRequireAuth tx then
    return temINVALID_FLAG
  else if bSetRequireDest tx ∧ bClearRequireDest tx then
    return temINVALID_FLAG
  else if bSetDisallowBIXRP tx ∧ bClearDisallowBIXRP tx then
    return temINVALID_FLAG
  else if preflight.badTransferRate tx then
    return temBAD_TRANSFER_RATE
  else if preflight.badTickSize tx then
    return temBAD_TICK_SIZE
  else if (tx.optVL sfMessageKey).any fun mk => !mk.isEmpty && !publicKeyType mk then
    return telBAD_PUBLIC_KEY
  else if (tx.optVL sfDomain).any fun domain => domain.length > DOMAIN_BYTES_MAX then
    return telBAD_DOMAIN
  else
    return Transactor.preflight2 ctx

variable [Digest]

def preclaim (ctx : ApplyContext) (view : ReadView) : Except String TER :=
  let id := ctx.tx.getAccountID sfAccount
  match view.read (.account id) with
  | none     => .ok terNO_ACCOUNT
  | some sle =>
    if bSetRequireAuth ctx.tx ∧ sle.getFlags &&& lsfRequireAuth = 0 then
      if !dirIsEmpty view (.ownerDir id) then
        .ok (if ctx.flags &&& tapRETRY ≠ 0 then terOWNERS else tecOWNERS)
      else
        .ok tesSUCCESS
    else
      .ok tesSUCCESS

-- Flags that are set and cleared without further conditions.

-- The flag is set if it is not, and cleared if it is. What decides are the flags at first.
def doApply.toggle (set clear : Bool) (flag uFlagsIn uFlagsOut : UInt32) : UInt32 :=
  let uFlagsOut := if set ∧ uFlagsIn &&& flag = 0 then uFlagsOut ||| flag else uFlagsOut
  if clear ∧ uFlagsIn &&& flag ≠ 0 then uFlagsOut &&& ~~~flag else uFlagsOut

def doApply.setOrClear (set clear : Bool) (flag uFlagsOut : UInt32) : UInt32 :=
  if set then uFlagsOut ||| flag else if clear then uFlagsOut &&& ~~~flag else uFlagsOut

section

variable [Ripesha]

def sigWithMaster (tx : STTx) : Bool :=
  let spk := tx.getFieldVL sfSigningPubKey
  publicKeyType spk && calcAccountID spk = tx.getAccountID sfAccount

-- The master key can be disabled with itself only, and if there is another way to sign.
def doApply.disableMaster (tx : STTx) (v : ApplyView) (sle : SLE) (uFlagsIn uFlagsOut : UInt32) :
    Except TER UInt32 × ApplyView :=
  if tx.getFieldU32 sfSetFlag = asfDisableMaster ∧ uFlagsIn &&& lsfDisableMaster = 0 then
    if !sigWithMaster tx then
      (.error tecNEED_MASTER_KEY, v)
    else if !sle.isFieldPresent sfRegularKey then
      match v.peek (.signers (tx.getAccountID sfAccount)) with
      | (none, v)   => (.error tecNO_ALTERNATIVE_KEY, v)
      | (some _, v) => (.ok (uFlagsOut ||| lsfDisableMaster), v)
    else
      (.ok (uFlagsOut ||| lsfDisableMaster), v)
  else if tx.getFieldU32 sfClearFlag = asfDisableMaster ∧ uFlagsIn &&& lsfDisableMaster ≠ 0 then
    (.ok (uFlagsOut &&& ~~~lsfDisableMaster), v)
  else
    (.ok uFlagsOut, v)

-- An account that has given up freezing cannot end a global freeze.
def doApply.freeze (tx : STTx) (uFlagsIn uFlagsOut : UInt32) : Except TER UInt32 :=
  let uSetFlag := tx.getFieldU32 sfSetFlag
  if uSetFlag = asfNoFreeze ∧ !sigWithMaster tx ∧ uFlagsIn &&& lsfDisableMaster = 0 then
    .error tecNEED_MASTER_KEY
  else
    let uFlagsOut := if uSetFlag = asfNoFreeze then uFlagsOut ||| lsfNoFreeze else uFlagsOut
    let uFlagsOut := if uSetFlag = asfGlobalFreeze then uFlagsOut ||| lsfGlobalFreeze else uFlagsOut
    if uSetFlag ≠ asfGlobalFreeze ∧ tx.getFieldU32 sfClearFlag = asfGlobalFreeze ∧
        uFlagsOut &&& lsfNoFreeze = 0 then
      .ok (uFlagsOut &&& ~~~lsfGlobalFreeze)
    else
      .ok uFlagsOut

-- The flags that the transaction leaves behind.
def doApply.flags (tx : STTx) (v : ApplyView) (sle : SLE) : Except TER UInt32 × ApplyView :=
  let uFlagsIn := sle.getFlags
  let uSetFlag := tx.getFieldU32 sfSetFlag
  let uClearFlag := tx.getFieldU32 sfClearFlag
  let uFlagsOut := uFlagsIn
  let uFlagsOut := doApply.toggle (bSetRequireAuth tx) (bClearRequireAuth tx) lsfRequireAuth
    uFlagsIn uFlagsOut
  let uFlagsOut := doApply.toggle (bSetRequireDest tx) (bClearRequireDest tx) lsfRequireDestTag
    uFlagsIn uFlagsOut
  let uFlagsOut := doApply.toggle (bSetDisallowBIXRP tx) (bClearDisallowBIXRP tx) lsfDisallowBIXRP
    uFlagsIn uFlagsOut
  match doApply.disableMaster tx v sle uFlagsIn uFlagsOut with
  | (.error ter, v)    => (.error ter, v)
  | (.ok uFlagsOut, v) =>
    let uFlagsOut := doApply.setOrClear (uSetFlag = asfDefaultBixd) (uClearFlag = asfDefaultBixd)
      lsfDefaultBixd uFlagsOut
    match doApply.freeze tx uFlagsIn uFlagsOut with
    | .error ter    => (.error ter, v)
    | .ok uFlagsOut =>
      if v.base.rules .featureDepositAuth then
        (.ok (doApply.setOrClear (uSetFlag = asfDepositAuth) (uClearFlag = asfDepositAuth)
          lsfDepositAuth uFlagsOut), v)
      else
        (.ok uFlagsOut, v)

end

-- A field of the transaction is copied to the account, or the field of the account goes away.
def doApply.assign (tx : STTx) (sle : SLE) (f : SField) (unset : Bool) (value : STVar) : SLE :=
  if tx.isFieldPresent f then
    if unset then sle.makeFieldAbsent f else sle.set f value
  else
    sle

-- The fields other than the flags.
def doApply.fields (tx : STTx) (sle : SLE) : SLE :=
  let uSetFlag := tx.getFieldU32 sfSetFlag
  let uClearFlag := tx.getFieldU32 sfClearFlag
  let sle :=
    if uSetFlag = asfAccountTxnID ∧ !sle.isFieldPresent sfAccountTxnID then
      sle.set sfAccountTxnID (.hash256 0)
    else
      sle
  let sle :=
    if uClearFlag = asfAccountTxnID ∧ sle.isFieldPresent sfAccountTxnID then
      sle.makeFieldAbsent sfAccountTxnID
    else
      sle
  let emailHash := tx.getFieldH128 sfEmailHash
  let sle := doApply.assign tx sle sfEmailHash (emailHash = 0) (.hash128 emailHash)
  let walletLocator := tx.getFieldH256 sfWalletLocator
  let sle := doApply.assign tx sle sfWalletLocator (walletLocator = 0) (.hash256 walletLocator)
  let messageKey := tx.getFieldVL sfMessageKey
  let sle := doApply.assign tx sle sfMessageKey messageKey.isEmpty (.vl messageKey)
  let domain := tx.getFieldVL sfDomain
  let sle := doApply.assign tx sle sfDomain domain.isEmpty (.vl domain)
  let uRate := tx.getFieldU32 sfTransferRate
  let sle := doApply.assign tx sle sfTransferRate (uRate = 0 || uRate = QUALITY_ONE) (.uint32 uRate)
  let uTickSize := tx.getFieldU8 sfTickSize
  doApply.assign tx sle sfTickSize (uTickSize = 0 || uTickSize = Quality.maxTickSize)
    (.uint8 uTickSize)

-- The entry of the account has been updated already when the fee was paid.
def doApply [Ripesha] (ctx : ApplyContext) (v : ApplyView) : Except String (TER × ApplyView) :=
  match v.peek (.account (ctx.tx.getAccountID sfAccount)) with
  | (none, v)     => .ok (tefINTERNAL, v)
  | (some sle, v) =>
    match doApply.flags ctx.tx v sle.sle with
    | (.error ter, v)    => .ok (ter, v)
    | (.ok uFlagsOut, v) => do
      let sle' := doApply.fields ctx.tx sle.sle
      let sle' :=
        if sle.sle.getFlags ≠ uFlagsOut then sle'.set sfFlags (.uint32 uFlagsOut) else sle'
      return (tesSUCCESS, ← v.update { sle with sle := sle' })

def transactor [Ripesha] : Transactor where
  preflight := preflight
  preclaim := preclaim
  doApply ctx _ v := doApply ctx v

end SetAccount
