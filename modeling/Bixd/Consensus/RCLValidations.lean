import Bixd.Consensus.LedgerTrie

open LedgerTrie

-- A validated ledger with the ids of its latest ancestors.
structure RCLValidatedLedger (I : Type) where
  ledgerID  : I
  ledgerSeq : UInt32
  ancestors : List I

namespace RCLValidatedLedger

variable {I : Type} [Inhabited I] [DecidableEq I] (l a b : RCLValidatedLedger I)

def seq : Nat :=
  l.ledgerSeq.toNat

def minSeq : Nat :=
  l.seq - min l.seq l.ancestors.length

-- `operator[]`. The default id is less than all others.
def get (s : Nat) : I :=
  if l.minSeq ≤ s ∧ s ≤ l.seq then
    if s = l.seq then
      l.ledgerID
    else
      l.ancestors[l.ancestors.length - (l.seq - s)]?.getD default
  else
    default

def mismatch.loop (lower : Nat) : Nat → Nat
  | 0 => 0
  | curr + 1 =>
    if a.get (curr + 1) ≠ b.get (curr + 1) ∧ lower ≤ curr + 1 then loop lower curr else curr + 1

-- The sequence of the earliest ancestors that may be different.
def mismatch : Nat :=
  let lower := max a.minSeq b.minSeq
  let upper := min a.seq b.seq
  let curr := mismatch.loop a b lower upper
  if curr < lower then 1 else add32 curr 1

end RCLValidatedLedger
