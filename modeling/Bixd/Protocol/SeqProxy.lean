import Bixd.Protocol.STTx

-- A sequence or a ticket, which stands in for the sequence of a transaction.

inductive SeqProxy.Type
  | seq
  | ticket
  deriving DecidableEq

structure SeqProxy where
  type  : SeqProxy.Type
  value : UInt32
  deriving DecidableEq

namespace SeqProxy

def sequence (v : UInt32) : SeqProxy :=
  ⟨.seq, v⟩

def isSeq (s : SeqProxy) : Bool :=
  s.type = .seq

def isTicket (s : SeqProxy) : Bool :=
  s.type = .ticket

-- All sequences come before all tickets.
def rank (s : SeqProxy) : Nat :=
  match s.type with
  | .seq    => s.value.toNat
  | .ticket => 2 ^ 32 + s.value.toNat

theorem rank_injective : Function.Injective rank := by
  rintro ⟨t, v⟩ ⟨t', v'⟩ h
  have hv := v.toNat_lt
  have hv' := v'.toNat_lt
  cases t <;> cases t' <;> simp only [rank] at h
  case seq.seq => rw [UInt32.toNat_inj.mp h]
  case seq.ticket => omega
  case ticket.seq => omega
  case ticket.ticket => rw [UInt32.toNat_inj.mp (Nat.add_left_cancel h)]

instance : LinearOrder SeqProxy :=
  LinearOrder.lift' rank rank_injective

end SeqProxy

def STTx.getSeqProxy (tx : STTx) : SeqProxy :=
  let seq := tx.getFieldU32 sfSequence
  if seq ≠ 0 then
    .sequence seq
  else if !tx.isFieldPresent sfTicketSequence then
    .sequence seq
  else
    ⟨.ticket, tx.getFieldU32 sfTicketSequence⟩
