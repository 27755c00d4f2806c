import Bixd.Ledger.TrustLine
import Bixd.Ledger.Theorems.Same

-- What the two ways to pay over a trust line report and what they leave.

-- What `creditHook` is called with. The balance is that of the sender before the payment.
structure CreditReport where
  sender : AccountID
  receiver : AccountID
  amount : STAmount
  preCreditBalance : STAmount

section

variable [Digest]

-- The call of `creditHook` for a line that exists. For a new line it is made by `trustCreate`.
def bixdCredit.creditHook (v : ApplyView) (uSenderID uReceiverID : AccountID)
    (saAmount : STAmount) : Option CreditReport :=
  let bSenderHigh : Bool := uReceiverID < uSenderID
  (v.peek (.line uSenderID uReceiverID saAmount.mIssue.currency)).1.map fun sleBixdState =>
    ⟨uSenderID, uReceiverID, saAmount,
      inSenderTerms bSenderHigh (sleBixdState.sle.getFieldAmount sfBalance)⟩

def payOver.creditHook (state : SLEPtr) (bSenderHigh : Bool) (sender receiver : AccountID)
    (amount : STAmount) : CreditReport :=
  let start_balance := inSenderTerms bSenderHigh (state.sle.getFieldAmount sfBalance)
  ⟨sender, receiver, amount, start_balance⟩

def issueIOU.creditHook (v : ApplyView) (account : AccountID) (amount : STAmount) (issue : Issue) :
    Option CreditReport :=
  let bSenderHigh : Bool := account < issue.account
  (v.peek (.line issue.account account issue.currency)).1.map fun state =>
    payOver.creditHook state bSenderHigh issue.account account amount

def redeemIOU.creditHook (v : ApplyView) (account : AccountID) (amount : STAmount)
    (issue : Issue) : Option CreditReport :=
  let bSenderHigh : Bool := issue.account < account
  (v.peek (.line account issue.account issue.currency)).1.map fun state =>
    payOver.creditHook state bSenderHigh account issue.account amount

end

namespace ApplyView

-- Two calls return the same code and leave the same view, or fail with the same exception.
inductive Agree : Except String (TER × ApplyView) → Except String (TER × ApplyView) → Prop
  | ok {ter : TER} {v v' : ApplyView} : Same v v' → Agree (.ok (ter, v)) (.ok (ter, v'))
  | error (e : String) : Agree (.error e) (.error e)

end ApplyView
