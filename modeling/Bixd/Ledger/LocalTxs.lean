import Bixd.Ledger.ReadView
import Bixd.Protocol.Indexes
import Bixd.Protocol.SeqProxy

-- A transaction that was submitted to this server, and the last ledger it is held for.
structure LocalTx where
  txn    : STTx
  expire : UInt32

namespace LocalTx

def holdLedgers : UInt32 := 5

def make (index : UInt32) (txn : STTx) : LocalTx where
  txn
  expire :=
    if txn.isFieldPresent sfLastLedgerSequence then
      min (index + holdLedgers) (txn.getFieldU32 sfLastLedgerSequence + 1)
    else
      index + holdLedgers

def isExpired (t : LocalTx) (i : UInt32) : Bool :=
  i > t.expire

end LocalTx

namespace LocalTxs

-- A view that can be asked for transactions too.
structure View extends ReadView where
  txExists : UInt256 → Bool

inductive Call
  | push_back (index : UInt32) (txn : STTx)
  | sweep (view : View)

variable [Digest]

-- Whether the sequence of the transaction has passed, or its ticket is gone.
def impossible (view : View) (txn : STTx) : Bool :=
  let acctID := txn.getAccountID sfAccount
  match view.read (.account acctID) with
  | none         => false
  | some sleAcct =>
    let acctSeq := SeqProxy.sequence (sleAcct.getFieldU32 sfSequence)
    let seqProx := txn.getSeqProxy
    if seqProx.isSeq then
      acctSeq > seqProx
    else if seqProx.isTicket ∧ acctSeq.value ≤ seqProx.value then
      false
    else
      !view.exists_ (.ticket acctID seqProx.value)

def exec (txns : List LocalTx) : Call → List LocalTx
  | .push_back index txn => txns ++ [.make index txn]
  | .sweep view          => txns.filter fun t =>
    !(t.isExpired view.info.seq || view.txExists t.txn.txID || impossible view t.txn)

end LocalTxs
