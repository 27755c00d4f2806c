import Bixd.Ledger.LocalTxs

open List LocalTx SeqProxy

namespace LocalTxs

section

variable [Digest]

-- The sequence numbers of the views do not decrease.
def Ordered (calls : List Call) : Prop :=
  calls.Pairwise fun
    | .sweep v, .sweep w => v.info.seq ≤ w.info.seq
    | _, _               => True

-- The last ledger that a transaction should be held for.
def heldUntil (index : UInt32) (txn : STTx) : Nat :=
  if txn.isFieldPresent sfLastLedgerSequence then
    min (index.toNat + 5) ((txn.getFieldU32 sfLastLedgerSequence).toNat + 1)
  else
    index.toNat + 5

-- The account is past the sequence of the transaction, or the ticket was created and is gone.
def Impossible (view : View) (txn : STTx) : Prop :=
  ∃ sle, view.read (.account (txn.getAccountID sfAccount)) = some sle ∧
    txn.getSeqProxy.value < sle.getFieldU32 sfSequence ∧
    (txn.getSeqProxy.isTicket →
      ¬view.exists_ (.ticket (txn.getAccountID sfAccount) txn.getSeqProxy.value))

def Keeps (index : UInt32) (txn : STTx) : Call → Prop
  | .push_back .. => True
  | .sweep view   => view.info.seq.toNat ≤ heldUntil index txn ∧
    view.txExists txn.txID = false ∧ ¬Impossible view txn

variable {index : UInt32} {txn : STTx}

theorem impossible_iff : impossible view txn ↔ Impossible view txn := by
  simp only [impossible, Impossible]
  cases view.read (.account (txn.getAccountID sfAccount))
  case none => simp
  case some sle =>
    have ⟨type, seq⟩ := txn.getSeqProxy
    cases type
    case seq => simpa [isSeq, isTicket] using .rfl
    case ticket => simp [isSeq, isTicket, SeqProxy.sequence]

omit [Digest] in
theorem toNat_expire (h : index.toNat + 5 < 2 ^ 32)
    (hl : ¬(txn.isFieldPresent sfLastLedgerSequence ∧
      txn.getFieldU32 sfLastLedgerSequence = 0xffffffff)) :
    (make index txn).expire.toNat = heldUntil index txn := by
  have hi : (index + holdLedgers).toNat = index.toNat + 5 := by
    rw [UInt32.toNat_add]
    exact Nat.mod_eq_of_lt h
  simp only [make, heldUntil]
  split
  case isFalse => exact hi
  case isTrue hp =>
    generalize txn.getFieldU32 sfLastLedgerSequence = last at hl
    have hne : last.toNat ≠ 0xffffffff := fun he => hl ⟨hp, UInt32.toNat_inj.mp he⟩
    have hlt := last.toNat_lt
    have hadd : (last + 1).toNat = last.toNat + 1 := by
      rw [UInt32.toNat_add]
      exact Nat.mod_eq_of_lt (by simp; omega)
    rw [UInt32.toNat_min, hi, hadd]

theorem mem_exec {c : Call} (he : (make index txn).expire.toNat = heldUntil index txn)
    (hc : Keeps index txn c) (hm : .make index txn ∈ txns) : .make index txn ∈ exec txns c := by
  cases c
  case push_back => exact mem_append_left _ hm
  case sweep view =>
    have ⟨hs, ht, hi⟩ := hc
    have hx : (make index txn).isExpired view.info.seq = false := by
      simpa [isExpired, UInt32.le_iff_toNat_le, he] using hs
    refine mem_filter.mpr ⟨hm, ?_⟩
    rw [hx]
    simpa [make, ht] using impossible_iff.not.mpr hi

-- A view of the first ledger, without accounts and transactions.
def firstView : View where
  info     := { seq := 1, drops := 0 }
  isOpen   := false
  rules    := fun _ => false
  exists_  := fun _ => false
  succ     := fun _ _ => none
  read     := fun _ => none
  txExists := fun _ => false

-- A transaction whose last ledger is the last one of all expires at once.
theorem survives_iff (h : index.toNat + 5 < 2 ^ 32) :
    (∀ before after, Ordered (before ++ .push_back index txn :: after) →
      (∀ c ∈ after, Keeps index txn c) →
      .make index txn ∈ (before ++ .push_back index txn :: after).foldl exec []) ↔
    ¬(txn.isFieldPresent sfLastLedgerSequence ∧
      txn.getFieldU32 sfLastLedgerSequence = 0xffffffff) := by
  constructor
  case mp =>
    rintro hs ⟨hp, hl⟩
    have hm := hs [] [.sweep firstView] (by simp [Ordered]) ?_
    · have hz : min (index + holdLedgers) 0 = 0 :=
        UInt32.toNat_inj.mp ((UInt32.toNat_min ..).trans (Nat.min_zero _))
      simp [exec, make, isExpired, hp, hl, firstView, hz] at hm
    · simp [Keeps, heldUntil, hp, hl, firstView, Impossible]
  case mpr =>
    intro hl before after _ hk
    have he := toNat_expire h hl
    rw [foldl_append, foldl_cons]
    have hm : .make index txn ∈ exec (before.foldl exec []) (.push_back index txn) := by simp [exec]
    generalize exec (before.foldl exec []) (.push_back index txn) = txns at hm
    clear * - he hk hm
    induction after generalizing txns
    case nil => exact hm
    case cons hi =>
      obtain ⟨hc, hk⟩ := forall_mem_cons.mp hk
      exact hi hk _ (mem_exec he hc hm)

end

attribute [local instance] oneDigest

def lastTx : STTx where
  txID   := 1
  type   := .ttPAYMENT
  fields := fun f => if f = sfLastLedgerSequence then some (.uint32 0xffffffff) else none

theorem survives_not : Ordered [.push_back 7 lastTx, .sweep firstView] ∧
    Keeps 7 lastTx (.sweep firstView) ∧
    [Call.push_back 7 lastTx, .sweep firstView].foldl exec [] = [] :=
  ⟨by simp [Ordered], ⟨by decide, rfl, nofun⟩, rfl⟩

theorem survives_iff_push : LocalTx.make 7 { lastTx with fields := fun _ => none } ∈
    [Call.push_back 7 { lastTx with fields := fun _ => none }].foldl exec [] :=
  (survives_iff (by decide)).mpr (by decide) [] [] (by simp [Ordered]) nofun

end LocalTxs
