import Bixd.Ledger.Ledger

open ReadView

namespace Chain

variable [Digest]

-- The keys of the entries that hash lists are kept in.
def IsSkipKey (k : UInt256) : Prop :=
  k = Keylet.skip.key ∨ ∃ seq, k = (Keylet.skipPage seq).key

-- A ledger is edited before it is closed, but not in its hash lists.
structure Edited (l l' : Ledger) : Prop where
  seq : l'.info.seq = l.info.seq
  parentHash : l'.info.parentHash = l.info.parentHash
  state : ∀ k, IsSkipKey k → l'.contents.state k = l.contents.state k

-- A ledger is accepted: it gets its hash and its close time.
structure Accepted (l l' : Ledger) : Prop where
  seq : l'.info.seq = l.info.seq
  parentHash : l'.info.parentHash = l.info.parentHash
  state : l'.contents.state = l.contents.state

-- A ledger follows another one.
def Follows (l l' : Ledger) : Prop :=
  ∃ closeTime l₁ l₂, Edited (l.next closeTime) l₁ ∧ l₁.updateSkipList = .ok l₂ ∧ Accepted l₂ l'

end Chain

-- Ledgers that follow each other from the genesis ledger, the last one first. Sequences are 32 bits.
inductive Chain [Digest] : List ReadView.Ledger → Prop
  | genesis {l} : l.info.seq = 1 → (∀ k, Chain.IsSkipKey k → l.contents.state k = none) → Chain [l]
  | next {l l' ls} : Chain (l :: ls) → l.info.seq.toNat + 1 < 2 ^ 32 → Chain.Follows l l' →
    Chain (l' :: l :: ls)
