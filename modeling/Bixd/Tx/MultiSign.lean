import Bixd.Tx.AccountKeys

-- What it takes that several signers sign for an account together.

namespace MultiSign

-- The account that a signer of a transaction signs for.
def account (txSigner : SField × STObject) : AccountID :=
  txSigner.2.getAccountID sfAccount

-- An entry with the quorum and the signers that `SetSignerList` writes for this account, after it
-- has checked them. Where the list is in the directory does not matter.
def Stored (id : AccountID) (s : SLE) : Prop :=
  ∃ (tx : STTx) (quorum flags : UInt32) (signers : List SignerEntry) (ledgerEntry : SLE),
    SetSignerList.determineOperation tx = .ok (quorum, signers, .set) ∧
    tx.getAccountID sfAccount = id ∧
    SetSignerList.validateQuorumAndSignerEntries quorum signers id = tesSUCCESS ∧
    ∀ f ∈ [sfSignerQuorum, sfSignerEntries], s.fields f =
      (SetSignerList.writeSignersToSLE ledgerEntry quorum signers flags).fields f

-- The weight of an account, which is zero if the list does not have it.
def weightOf (signers : List SignerEntry) (id : AccountID) : Nat :=
  ((signers.find? (·.account = id)).map (·.weight.toNat)).getD 0

variable [Digest] [Ripesha]

-- The public key belongs to the signer's own account, which is not in the ledger or whose master
-- key is enabled.
def Own (view : ReadView) (txSigner : STObject) : Prop :=
  calcAccountID (txSigner.getFieldVL sfSigningPubKey) = txSigner.getAccountID sfAccount ∧
    ∀ root, view.read (.account (txSigner.getAccountID sfAccount)) = some root →
      root.getFlags &&& lsfDisableMaster = 0

-- The public key belongs to the regular key of the signer's account.
def Regular (view : ReadView) (txSigner : STObject) : Prop :=
  ∃ root, view.read (.account (txSigner.getAccountID sfAccount)) = some root ∧
    root.isFieldPresent sfRegularKey ∧
    calcAccountID (txSigner.getFieldVL sfSigningPubKey) = root.getAccountID sfRegularKey

-- Both ways to sign.
def Entitled (view : ReadView) (txSigner : STObject) : Prop :=
  publicKeyType (txSigner.getFieldVL sfSigningPubKey) ∧ (Own view txSigner ∨ Regular view txSigner)

-- A key of the signer's own account does not count as a regular key.
def Legitimate (view : ReadView) (txSigner : STObject) : Prop :=
  publicKeyType (txSigner.getFieldVL sfSigningPubKey) ∧
    (Own view txSigner ∨ Regular view txSigner ∧
      calcAccountID (txSigner.getFieldVL sfSigningPubKey) ≠ txSigner.getAccountID sfAccount)

-- The account has a list with all signers of the transaction, their signatures count, and their
-- weights reach the quorum.
def Accepts (counts : STObject → Prop) (view : ReadView) (tx : STTx) : Prop :=
  ∃ s signers, view.read (.signers (tx.getAccountID sfAccount)) = some s ∧
    AccountKeys.signersOf s = .ok signers ∧
    (∀ t ∈ tx.getFieldArray sfSigners, ∃ e ∈ signers, e.account = account t) ∧
    (∀ t ∈ tx.getFieldArray sfSigners, counts t.2) ∧
    (s.getFieldU32 sfSignerQuorum).toNat ≤
      ((tx.getFieldArray sfSigners).map fun t => weightOf signers (account t)).sum

end MultiSign
