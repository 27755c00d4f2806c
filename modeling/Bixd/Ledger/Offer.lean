import Bixd.Ledger.AccountRoot
import Bixd.Ledger.Directory
import Bixd.Protocol.TER

-- An offer is deleted, which is in the directory of its owner and in that of its book.
def offerDelete [Digest] (v : ApplyView) (sle : SLEPtr) : Except String (TER × ApplyView) := do
  let offerIndex := sle.key
  let owner := sle.sle.getAccountID sfAccount
  let uDirectory := sle.sle.getFieldH256 sfBookDirectory
  let (removed, v) ←
    v.dirRemove (.ownerDir owner) (sle.sle.getFieldU64 sfOwnerNode) offerIndex false
  if !removed then
    return (tefBAD_LEDGER, v)
  else
    let (removed, v) ←
      v.dirRemove (.page uDirectory 0) (sle.sle.getFieldU64 sfBookNode) offerIndex false
    if !removed then
      return (tefBAD_LEDGER, v)
    else
      let v ← adjustOwnerCountOf v owner (-1)
      return (tesSUCCESS, ← v.erase sle)
