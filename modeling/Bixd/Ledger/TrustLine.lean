import Bixd.Ledger.AccountRoot
import Bixd.Ledger.Directory
import Bixd.Protocol.TER

-- Trust lines between two accounts, the lower and the higher one. The balance is in terms of the
-- lower account.

def lsfLowReserve  : UInt32 := 0x00010000
def lsfHighReserve : UInt32 := 0x00020000
def lsfLowAuth     : UInt32 := 0x00040000
def lsfHighAuth    : UInt32 := 0x00080000
def lsfLowNoBixd   : UInt32 := 0x00100000
def lsfHighNoBixd  : UInt32 := 0x00200000
def lsfLowFreeze   : UInt32 := 0x00400000
def lsfHighFreeze  : UInt32 := 0x00800000

namespace TrustLine

-- The flags and fields of one side.

def lsfReserve (high : Bool) : UInt32 := if high then lsfHighReserve else lsfLowReserve
def lsfAuth    (high : Bool) : UInt32 := if high then lsfHighAuth else lsfLowAuth
def lsfNoBixd  (high : Bool) : UInt32 := if high then lsfHighNoBixd else lsfLowNoBixd
def lsfFreeze  (high : Bool) : UInt32 := if high then lsfHighFreeze else lsfLowFreeze

def sfSideLimit (high : Bool) : SField :=
  if high then sfHighLimit else sfLowLimit

def sfSideQualityIn (high : Bool) : SField :=
  if high then sfHighQualityIn else sfLowQualityIn

def sfSideQualityOut (high : Bool) : SField :=
  if high then sfHighQualityOut else sfLowQualityOut

end TrustLine

open TrustLine

-- The flags of a new line.
def trustCreate.flags (bSetHigh : Bool) (peerFlags : UInt32) (bAuth bNoBixd bFreeze : Bool) :
    UInt32 :=
  let uFlags := lsfReserve bSetHigh
  let uFlags := if bAuth then uFlags ||| lsfAuth bSetHigh else uFlags
  let uFlags := if bNoBixd then uFlags ||| lsfNoBixd bSetHigh else uFlags
  let uFlags := if bFreeze then uFlags ||| lsfFreeze bSetHigh else uFlags
  if peerFlags &&& lsfDefaultBixd = 0 then uFlags ||| lsfNoBixd !bSetHigh else uFlags

-- The fields of a new line, whose side `bSetHigh` belongs to the account that is charged for it.
def trustCreate.line (sleBixdState : SLE) (bSetHigh : Bool) (lowNode highNode : UInt64)
    (peer : AccountID) (peerFlags : UInt32) (bAuth bNoBixd bFreeze : Bool)
    (saBalance saLimit : STAmount) (uQualityIn uQualityOut : UInt32) : SLE :=
  let sle := sleBixdState.set sfLowNode (.uint64 lowNode)
  let sle := sle.set sfHighNode (.uint64 highNode)
  let sle := sle.set (sfSideLimit bSetHigh) (.amount saLimit)
  let sle := sle.set (sfSideLimit !bSetHigh) (.amount (.ofIssue ⟨saBalance.mIssue.currency, peer⟩))
  let sle :=
    if uQualityIn ≠ 0 then sle.set (sfSideQualityIn bSetHigh) (.uint32 uQualityIn) else sle
  let sle :=
    if uQualityOut ≠ 0 then sle.set (sfSideQualityOut bSetHigh) (.uint32 uQualityOut) else sle
  let uFlags := trustCreate.flags bSetHigh peerFlags bAuth bNoBixd bFreeze
  let sle := sle.set sfFlags (.uint32 uFlags)
  sle.set sfBalance (.amount (if bSetHigh then saBalance.negated else saBalance))

section

variable [Digest]

-- `sleAccount` is the account that is charged for the line, the one that issues the limit.
def trustCreate (v : ApplyView) (bSrcHigh : Bool) (uSrcAccountID uDstAccountID : AccountID)
    (uIndex : UInt256) (sleAccount : SLEPtr) (bAuth bNoBixd bFreeze : Bool)
    (saBalance saLimit : STAmount) (uQualityIn uQualityOut : UInt32) :
    Except String (TER × ApplyView) := do
  let uLowAccountID := if !bSrcHigh then uSrcAccountID else uDstAccountID
  let uHighAccountID := if bSrcHigh then uSrcAccountID else uDstAccountID
  let (sleBixdState, v) := v.alloc (.make .ltBIXD_STATE uIndex)
  let v ← v.insert sleBixdState
  let (lowNode, v) ← v.dirInsert (.ownerDir uLowAccountID) uIndex (describeOwnerDir uLowAccountID)
  match lowNode with
  | none => return (tecDIR_FULL, v)
  | some lowNode =>
    let (highNode, v) ←
      v.dirInsert (.ownerDir uHighAccountID) uIndex (describeOwnerDir uHighAccountID)
    match highNode with
    | none => return (tecDIR_FULL, v)
    | some highNode =>
      let bSetDst := saLimit.mIssue.account = uDstAccountID
      let bSetHigh := bSrcHigh ^^ bSetDst
      match v.peek (.account (if bSetHigh then uLowAccountID else uHighAccountID)) with
      | (none, v) => return (tecNO_TARGET, v)
      | (some slePeer, v) =>
        let peer := if bSetDst then uSrcAccountID else uDstAccountID
        let line := trustCreate.line sleBixdState.sle bSetHigh lowNode highNode peer
          slePeer.sle.getFlags bAuth bNoBixd bFreeze saBalance saLimit uQualityIn uQualityOut
        let v ← v.update { sleBixdState with sle := line }
        let (_, v) ← adjustOwnerCount v sleAccount 1
        return (tesSUCCESS, v)

def trustDelete (v : ApplyView) (sleBixdState : SLEPtr) (uLowAccountID uHighAccountID : AccountID) :
    Except String (TER × ApplyView) := do
  let uLowNode := sleBixdState.sle.getFieldU64 sfLowNode
  let uHighNode := sleBixdState.sle.getFieldU64 sfHighNode
  let (removed, v) ← v.dirRemove (.ownerDir uLowAccountID) uLowNode sleBixdState.key false
  if !removed then
    return (tefBAD_LEDGER, v)
  else
    let (removed, v) ← v.dirRemove (.ownerDir uHighAccountID) uHighNode sleBixdState.key false
    if !removed then
      return (tefBAD_LEDGER, v)
    else
      return (tesSUCCESS, ← v.erase sleBixdState)

end

-- The balance of the sender goes to zero or below, and the reserve of the sender is set.
def paidOff (line : SLE) (bSenderHigh : Bool) (before after : STAmount) : Bool :=
  before.signum > 0 && after.signum ≤ 0 && line.getFlags &&& lsfReserve bSenderHigh ≠ 0

-- Besides the balance, the side of the sender is as it is by default.
def isDefaultSide (line : SLE) (bSenderHigh : Bool) (senderFlags : UInt32) : Bool :=
  ((line.getFlags &&& lsfNoBixd bSenderHigh ≠ 0 : Bool) ≠
      (senderFlags &&& lsfDefaultBixd ≠ 0 : Bool)) &&
    line.getFlags &&& lsfFreeze bSenderHigh = 0 &&
    (line.getFieldAmount (sfSideLimit bSenderHigh)).signum = 0 &&
    line.getFieldU32 (sfSideQualityIn bSenderHigh) = 0 &&
    line.getFieldU32 (sfSideQualityOut bSenderHigh) = 0

-- The reserve of the sender is cleared.
def clearReserve (line : SLE) (bSenderHigh : Bool) : SLE :=
  line.set sfFlags (.uint32 (line.getFlags &&& ~~~lsfReserve bSenderHigh))

-- The line is deleted if nothing is left of it.
def isLeftOver (line : SLE) (bSenderHigh : Bool) (after : STAmount) : Bool :=
  after.signum = 0 && line.getFlags &&& lsfReserve (!bSenderHigh) = 0

-- The balance in terms of the sender, and back.
def inSenderTerms (bSenderHigh : Bool) (balance : STAmount) : STAmount :=
  if bSenderHigh then balance.negated else balance

section

variable [Digest]

-- The line with the new balance is deleted or updated.
def settle (v : ApplyView) (line : SLEPtr) (bSenderHigh : Bool)
    (uSenderID uReceiverID : AccountID) (saBalance : STAmount) (bDelete : Bool) :
    Except String (TER × ApplyView) := do
  let line := line.set sfBalance (.amount (inSenderTerms bSenderHigh saBalance))
  if bDelete then
    trustDelete v line (if bSenderHigh then uReceiverID else uSenderID)
      (if !bSenderHigh then uReceiverID else uSenderID)
  else
    return (tesSUCCESS, ← v.update line)

-- The reserve of the sender is given back if the line does not need it anymore. Whether the line is
-- to be deleted.
def bixdCredit.release (v : ApplyView) (line : SLEPtr) (bSenderHigh : Bool)
    (uSenderID : AccountID) (before after : STAmount) :
    Except String (Bool × SLEPtr × ApplyView) :=
  if paidOff line.sle bSenderHigh before after then
    match v.view.read (.account uSenderID) with
    | none     => .error "bixdCredit: no sender"
    | some sle =>
      if isDefaultSide line.sle bSenderHigh sle.getFlags then do
        let v ← adjustOwnerCountOf v uSenderID (-1)
        return (isLeftOver line.sle bSenderHigh after,
          { line with sle := clearReserve line.sle bSenderHigh }, v)
      else
        .ok (false, line, v)
  else
    .ok (false, line, v)

-- A new line is made for the receiver, who is charged for it.
def credit.create (v : ApplyView) (bSenderHigh : Bool) (uSenderID uReceiverID : AccountID)
    (currency : Currency) (saAmount : STAmount) : Except String (TER × ApplyView) :=
  let index := (Keylet.line uSenderID uReceiverID currency).key
  let saReceiverLimit := STAmount.ofIssue ⟨currency, uReceiverID⟩
  let saBalance := saAmount.setIssuer noAccount
  match v.peek (.account uReceiverID) with
  | (none, v) => .ok (tefINTERNAL, v)
  | (some sleAccount, v) =>
    let noBixd := sleAccount.sle.getFlags &&& lsfDefaultBixd = 0
    trustCreate v bSenderHigh uSenderID uReceiverID index sleAccount false noBixd false saBalance
      saReceiverLimit 0 0

-- Sends without fees and regardless of limits.
def bixdCredit (v : ApplyView) (uSenderID uReceiverID : AccountID) (saAmount : STAmount) :
    Except String (TER × ApplyView) :=
  let bSenderHigh : Bool := uReceiverID < uSenderID
  let currency := saAmount.mIssue.currency
  match v.peek (.line uSenderID uReceiverID currency) with
  | (some sleBixdState, v) => do
    let saBefore := inSenderTerms bSenderHigh (sleBixdState.sle.getFieldAmount sfBalance)
    let saBalance ← saBefore.minus saAmount
    let (bDelete, line, v) ←
      bixdCredit.release v sleBixdState bSenderHigh uSenderID saBefore saBalance
    settle v line bSenderHigh uSenderID uReceiverID saBalance bDelete
  | (none, v) => credit.create v bSenderHigh uSenderID uReceiverID currency saAmount

-- As `bixdCredit.release`, for a sender that is looked up first.
def updateTrustLine (v : ApplyView) (state : SLEPtr) (bSenderHigh : Bool) (sender : AccountID)
    (before after : STAmount) : Except String (Bool × SLEPtr × ApplyView) :=
  match v.peek (.account sender) with
  | (none, v)     => .ok (false, state, v)
  | (some sle, v) =>
    if paidOff state.sle bSenderHigh before after ∧
        isDefaultSide state.sle bSenderHigh sle.sle.getFlags then do
      let (_, v) ← adjustOwnerCount v sle (-1)
      return (isLeftOver state.sle bSenderHigh after,
        { state with sle := clearReserve state.sle bSenderHigh }, v)
    else
      .ok (false, state, v)

-- A payment over a line that exists.
def payOver (v : ApplyView) (state : SLEPtr) (bSenderHigh : Bool) (sender receiver : AccountID)
    (amount : STAmount) : Except String (TER × ApplyView) := do
  let start_balance := inSenderTerms bSenderHigh (state.sle.getFieldAmount sfBalance)
  let final_balance ← start_balance.minus amount
  let (must_delete, state, v) ←
    updateTrustLine v state bSenderHigh sender start_balance final_balance
  settle v state bSenderHigh sender receiver final_balance must_delete

def issueIOU (v : ApplyView) (account : AccountID) (amount : STAmount) (issue : Issue) :
    Except String (TER × ApplyView) :=
  let bSenderHigh : Bool := account < issue.account
  match v.peek (.line issue.account account issue.currency) with
  | (some state, v) => payOver v state bSenderHigh issue.account account amount
  | (none, v)       => credit.create v bSenderHigh issue.account account issue.currency amount

def redeemIOU (v : ApplyView) (account : AccountID) (amount : STAmount) (issue : Issue) :
    Except String (TER × ApplyView) :=
  let bSenderHigh : Bool := issue.account < account
  match v.peek (.line account issue.account issue.currency) with
  | (some state, v) => payOver v state bSenderHigh account issue.account amount
  | (none, v)       => .ok (tefINTERNAL, v)

end
