import Bixd.Tx.Transactor

-- The transaction that sets or removes the regular key of an account.

namespace SetRegularKey

def preflight (ctx : PreflightContext) : Except String TER := do
  let ret ← Transactor.preflight1 ctx
  if !isTesSuccess ret then
    return ret
  else if ctx.tx.getFlags &&& tfUniversalMask ≠ 0 then
    return temINVALID_FLAG
  else if ctx.rules .fixMasterKeyAsRegularKey ∧ ctx.tx.isFieldPresent sfRegularKey ∧
      ctx.tx.getAccountID sfRegularKey = ctx.tx.getAccountID sfAccount then
    return temBAD_REGKEY
  else
    return Transactor.preflight2 ctx

variable [Digest]

-- A transaction that is free spends the flag for it.
def doApply.spend (ctx : ApplyContext) (sle : SLEPtr) : SLEPtr :=
  if ctx.minimumFee = 0 then { sle with sle := sle.sle.setFlag lsfPasswordSpent } else sle

-- The entry of the account has been updated already when the fee was paid.
def doApply (ctx : ApplyContext) (v : ApplyView) : Except String (TER × ApplyView) :=
  match v.peek (.account (ctx.tx.getAccountID sfAccount)) with
  | (none, v)     => .ok (tefINTERNAL, v)
  | (some sle, v) => do
    let sle := doApply.spend ctx sle
    if ctx.tx.isFieldPresent sfRegularKey then
      let key := ctx.tx.getAccountID sfRegularKey
      return (tesSUCCESS, ← v.update (sle.set sfRegularKey (.account (some key))))
    else if sle.sle.isFlag lsfDisableMaster then
      match v.peek (.signers (ctx.tx.getAccountID sfAccount)) with
      | (none, v)   => return (tecNO_ALTERNATIVE_KEY, v)
      | (some _, v) => return (tesSUCCESS, ← v.update (sle.makeFieldAbsent sfRegularKey))
    else
      return (tesSUCCESS, ← v.update (sle.makeFieldAbsent sfRegularKey))

def transactor : Transactor where
  preflight := preflight
  preclaim := fun _ _ => .ok tesSUCCESS
  doApply ctx _ v := doApply ctx v

end SetRegularKey
