import Bixd.Tx.ApplySteps
import Bixd.Tx.SetAccount
import Bixd.Tx.SetRegularKey

-- What it takes that somebody can sign for an account.

open ReadView

namespace AccountKeys

-- A list with a quorum that its signers can reach. The owner is not one of them.
structure IsSignerList (owner : AccountID) (quorum : UInt32) (signers : List SignerEntry) :
    Prop where
  min      : STTx.minMultiSigners ≤ signers.length
  max      : signers.length ≤ STTx.maxMultiSigners
  distinct : (signers.map SignerEntry.account).Nodup
  weight   : ∀ e ∈ signers, 0 < e.weight
  other    : ∀ e ∈ signers, e.account ≠ owner
  nonzero  : quorum ≠ 0
  reached  : quorum.toNat ≤ (signers.map (·.weight.toNat)).sum

-- The signers of an entry.
def signersOf (s : SLE) : Except TER (List SignerEntry) :=
  SignerEntries.deserialize (s.isFieldPresent sfSignerEntries) (s.getFieldArray sfSignerEntries)

section

variable [Digest]

-- Every account whose master key is disabled has another way to sign.
structure Held (l : Ledger) : Prop where
  roots : ∀ id s, l.view.read (.account id) = some s → s.isFlag lsfDisableMaster →
    s.isFieldPresent sfRegularKey ∨ (l.view.read (.signers id)).isSome
  lists : ∀ id s, l.view.read (.signers id) = some s →
    ∃ signers, signersOf s = .ok signers ∧ IsSignerList id (s.getFieldU32 sfSignerQuorum) signers

-- Different accounts have different entries.
structure KeysDiffer : Prop where
  account : Function.Injective fun id => (Keylet.account id).key
  signers : Function.Injective fun id => (Keylet.signers id).key

-- Other transactions do not change what accounts sign with. An account may be created, and it may
-- be deleted together with its list.
structure Spared (l l' : Ledger) : Prop where
  roots : ∀ id s', l'.view.read (.account id) = some s' → s'.isFlag lsfDisableMaster →
    ∃ s, l.view.read (.account id) = some s ∧ s.isFlag lsfDisableMaster ∧
      s'.isFieldPresent sfRegularKey = s.isFieldPresent sfRegularKey
  lists : ∀ id, l'.view.read (.signers id) = l.view.read (.signers id) ∨
    (l'.view.read (.account id) = none ∧ l'.view.read (.signers id) = none)

variable [Ripesha]

-- The transactions that change what accounts sign with.
inductive Kind
  | accountSet
  | regularKeySet
  | signerListSet

def Kind.transactor : Kind → Transactor
  | accountSet    => SetAccount.transactor
  | regularKeySet => SetRegularKey.transactor
  | signerListSet => SetSignerList.transactor

inductive Step (l : Ledger) : Ledger → Prop
  | tx (kind : Kind) {checks ctx sigValid ter l'} :
    kind.transactor.applyTo checks ctx sigValid l = .ok (ter, l') → Step l l'
  | other {l'} : Spared l l' → Step l l'

def Run : Ledger → Ledger → Prop :=
  Relation.ReflTransGen Step

end

end AccountKeys
