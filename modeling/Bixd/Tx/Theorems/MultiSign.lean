import Bixd.Tx.MultiSign
import Bixd.Tx.Theorems.AccountKeys

open List Transactor SetSignerList

-- The two lists are walked through together and no signer is missed.

open AccountKeys ReadView

namespace MultiSign

section List

variable {signers : List SignerEntry} {txSigners : List (SField × STObject)} {id id' : AccountID}

theorem mem_skip (hs : signers.Pairwise (·.account < ·.account)) :
    e ∈ signers.dropWhile (·.account < id) ↔ e ∈ signers ∧ id ≤ e.account := by
  induction signers
  case nil => simp
  case cons e' signers hi =>
    have ⟨hlt, hs⟩ := pairwise_cons.mp hs
    by_cases h : e'.account < id
    case pos =>
      rw [dropWhile_cons_of_pos (by simpa using h), hi hs, mem_cons, or_and_right]
      refine ⟨.inr, fun he => he.resolve_left ?_⟩
      rintro ⟨rfl, hle⟩
      exact absurd h (BitVec.not_lt.mpr hle)
    case neg =>
      rw [dropWhile_cons_of_neg (by simpa using h)]
      refine ⟨fun he => ⟨he, ?_⟩, And.left⟩
      have hle := BitVec.not_lt.mp h
      rcases mem_cons.mp he with rfl | he
      · exact hle
      · exact BitVec.le_trans hle (BitVec.le_of_lt (hlt e he))

theorem pairwise_skip (hs : signers.Pairwise (·.account < ·.account)) :
    (signers.dropWhile (·.account < id)).Pairwise (·.account < ·.account) :=
  hs.sublist (dropWhile_sublist _)

theorem weightOf_skip (h : id ≤ id') :
    weightOf (signers.dropWhile (·.account < id)) id' = weightOf signers id' := by
  induction signers
  case nil => rfl
  case cons e signers hi =>
    by_cases he : e.account < id
    case pos =>
      have hne : e.account ≠ id' := fun heq => BitVec.not_lt.mpr h (heq ▸ he)
      rw [dropWhile_cons_of_pos (by simpa using he), hi, weightOf, weightOf,
        find?_cons_of_neg (by simpa using hne)]
    case neg => rw [dropWhile_cons_of_neg (by simpa using he)]

theorem skip_cases (hs : signers.Pairwise (·.account < ·.account)) (id : AccountID) :
    (∃ e rest, signers.dropWhile (·.account < id) = e :: rest ∧ e.account = id ∧ e ∈ signers ∧
      weightOf signers id = e.weight.toNat) ∨
    ((∀ e ∈ signers, e.account ≠ id) ∧
      ∀ e rest, signers.dropWhile (·.account < id) = e :: rest → e.account ≠ id) := by
  cases hd : signers.dropWhile (·.account < id)
  case nil =>
    refine .inr ⟨fun e he heq => ?_, nofun⟩
    have h := (mem_skip hs).mpr ⟨he, BitVec.le_of_eq heq.symm⟩
    rw [hd] at h
    cases h
  case cons e rest =>
    have hhead : e ∈ signers.dropWhile (·.account < id) := hd ▸ .head _
    have ⟨hmem, hle⟩ := (mem_skip hs).mp hhead
    by_cases he : e.account = id
    case pos =>
      refine .inl ⟨e, rest, rfl, he, hmem, ?_⟩
      rw [← weightOf_skip (BitVec.le_refl id), hd, weightOf, find?_cons_of_pos (by simpa)]
      rfl
    case neg =>
      refine .inr ⟨fun e' he' heq => ?_, fun _ _ h => by cases h; exact he⟩
      have h : e' ∈ e :: rest := hd ▸ (mem_skip hs).mpr ⟨he', BitVec.le_of_eq heq.symm⟩
      have hp : (e :: rest).Pairwise (·.account < ·.account) := hd ▸ pairwise_skip hs
      rcases mem_cons.mp h with rfl | h
      · exact he heq
      · have hlt := (pairwise_cons.mp hp).left e' h
        rw [heq] at hlt
        exact absurd hle (BitVec.not_le.mpr hlt)

theorem weightOf_le (signers : List SignerEntry) (id : AccountID) :
    weightOf signers id < 2 ^ 16 := by
  unfold weightOf
  cases signers.find? (·.account = id)
  case none => decide
  case some e => exact e.weight.toNat_lt

theorem length_le (hsorted : txSigners.Pairwise (account · < account ·))
    (h : ∀ t ∈ txSigners, ∃ e ∈ signers, e.account = account t) :
    txSigners.length ≤ signers.length := by
  have hnodup : (txSigners.map account).Nodup :=
    Pairwise.imp BitVec.ne_of_lt (pairwise_map.mpr hsorted)
  have hsub : txSigners.map account ⊆ signers.map SignerEntry.account := by
    intro id hid
    obtain ⟨t, ht, rfl⟩ := mem_map.mp hid
    have ⟨e, he, heq⟩ := h t ht
    exact heq ▸ mem_map_of_mem he
  simpa using (hnodup.subperm hsub).length_le

theorem sum_weightOf_le (signers : List SignerEntry) (l : List (SField × STObject)) :
    (l.map fun t => weightOf signers (account t)).sum ≤ l.length * 2 ^ 16 := by
  induction l
  case nil => simp
  case cons t l hi =>
    have := weightOf_le signers (account t)
    simp only [map_cons, sum_cons, length_cons]
    omega

end List

section

variable [Digest] [Ripesha] {view : ReadView} {signers : List SignerEntry}
variable {txSigners : List (SField × STObject)} {tx : STTx}

theorem check_eq_success :
    checkMultiSign.check view t = tesSUCCESS ↔ Legitimate view t := by
  unfold checkMultiSign.check Legitimate Own Regular
  dsimp only
  generalize hkey : calcAccountID (t.getFieldVL sfSigningPubKey) = key
  by_cases hk : publicKeyType (t.getFieldVL sfSigningPubKey)
  case neg => simp [hk, tefBAD_SIGNATURE, tesSUCCESS]
  by_cases ho : key = t.getAccountID sfAccount
  case pos =>
    cases view.read (.account (t.getAccountID sfAccount))
    case none => simp [hk, ho]
    case some root =>
      by_cases hm : root.getFlags &&& lsfDisableMaster = 0 <;>
        simp [hk, ho, hm, tefMASTER_DISABLED, tesSUCCESS]
  case neg =>
    cases view.read (.account (t.getAccountID sfAccount))
    case none => simp [hk, ho, tefBAD_SIGNATURE, tesSUCCESS]
    case some root =>
      cases hp : root.isFieldPresent sfRegularKey
      case false => simp [hk, ho, hp, tefBAD_SIGNATURE, tesSUCCESS]
      by_cases hg : key = root.getAccountID sfRegularKey
      case pos => simp [hk, hp, ho, ← hg]
      case neg => simp [hk, ho, hp, hg, tefBAD_SIGNATURE, tesSUCCESS]

-- The walk succeeds if each signer is in the list and signs in a way that counts. The weights are
-- added up in 32 bits.
theorem walk_cons : checkMultiSign.walk view w signers (t :: txSigners) =
    match signers.dropWhile (·.account < account t) with
    | [] => .error tefBAD_SIGNATURE
    | iter :: rest =>
      if iter.account ≠ account t then
        .error tefBAD_SIGNATURE
      else if checkMultiSign.check view t.2 ≠ tesSUCCESS then
        .error (checkMultiSign.check view t.2)
      else
        checkMultiSign.walk view (w + iter.weight.toUInt32) (iter :: rest) txSigners :=
  rfl

theorem walk_eq_ok (hs : signers.Pairwise (·.account < ·.account))
    (ht : txSigners.Pairwise (account · < account ·)) :
    checkMultiSign.walk view w signers txSigners = .ok w' ↔
      (∀ t ∈ txSigners, ∃ e ∈ signers, e.account = account t) ∧
      (∀ t ∈ txSigners, Legitimate view t.2) ∧
      w' = w + .ofNat (txSigners.map fun t => weightOf signers (account t)).sum := by
  induction txSigners generalizing signers w
  case nil => simp [checkMultiSign.walk, eq_comm]
  case cons t txSigners hi =>
    obtain ⟨hlt, ht⟩ := pairwise_cons.mp ht
    rw [walk_cons]
    rcases skip_cases hs (account t) with ⟨e, rest, hd, he, hmem, hw⟩ | ⟨hnone, hd⟩
    · -- The signer is found. The others are found in what is left of the list.
      have hrest (x : AccountID) (hx : account t < x) :
          (∃ e' ∈ e :: rest, e'.account = x) ↔ ∃ e' ∈ signers, e'.account = x := by
        rw [← hd]
        constructor <;> rintro ⟨e', he', heq⟩
        · exact ⟨e', ((mem_skip hs).mp he').left, heq⟩
        · exact ⟨e', (mem_skip hs).mpr ⟨he', heq ▸ BitVec.le_of_lt hx⟩, heq⟩
      have hweight (x : AccountID) (hx : account t < x) :
          weightOf (e :: rest) x = weightOf signers x := by
        rw [← hd, weightOf_skip (BitVec.le_of_lt hx)]
      rw [hd]
      dsimp only
      rw [if_neg (not_not.mpr he)]
      by_cases hc : checkMultiSign.check view t.2 = tesSUCCESS
      case neg =>
        rw [if_pos hc]
        refine ⟨by simp, fun h => absurd (check_eq_success.mpr (h.right.left t (.head _))) hc⟩
      have hsum := map_congr_left fun t' ht' => hweight _ (hlt t' ht')
      have hadd (n : Nat) : w + e.weight.toUInt32 + .ofNat n =
          w + .ofNat (e.weight.toNat + n) := by
        rw [UInt32.ofNat_add, ← UInt32.add_assoc, UInt32.ofNat_uInt16ToNat]
      rw [if_neg (not_not.mpr hc), hi (hd ▸ pairwise_skip hs) ht, hsum, hadd, forall_mem_cons,
        forall_mem_cons, map_cons, sum_cons, hw]
      have hall := forall₂_congr fun t' ht' => hrest _ (hlt t' ht')
      rw [hall]
      constructor
      · rintro ⟨h₁, h₂, h₃⟩
        exact ⟨⟨⟨e, hmem, he⟩, h₁⟩, ⟨check_eq_success.mp hc, h₂⟩, h₃⟩
      · rintro ⟨⟨_, h₁⟩, ⟨_, h₂⟩, h₃⟩
        exact ⟨h₁, h₂, h₃⟩
    · -- The signer is not found.
      refine iff_of_false (fun h => ?_) fun h => ?_
      · split at h
        case h_1 => cases h
        case h_2 e rest heq => rw [if_pos (hd e rest heq)] at h; cases h
      · obtain ⟨e, he, heq⟩ := h.left t (.head _)
        exact hnone e he heq

theorem walk_error (h : checkMultiSign.walk view w signers txSigners = .error ter) :
    ter ≠ tesSUCCESS := by
  induction txSigners generalizing signers w
  case nil => cases h
  case cons t txSigners hi =>
    unfold checkMultiSign.walk at h
    dsimp only at h
    split at h
    case h_1 => cases h; decide
    split at h
    case isTrue => cases h; decide
    split at h
    case isTrue hter => cases h; exact hter
    case isFalse => exact hi h

-- What is known about a list that has been checked.
structure Checked (signers : List SignerEntry) : Prop where
  max    : signers.length ≤ STTx.maxMultiSigners
  sorted : signers.Pairwise (·.account < ·.account)

omit [Digest] [Ripesha] in

theorem checked_of_validate {id : AccountID} (hs : signers.Pairwise (·.account ≤ ·.account))
    (h : validateQuorumAndSignerEntries quorum signers id = tesSUCCESS) :
    Checked signers := by
  have hmax := (isSignerList_of_validate hs h).max
  refine ⟨hmax, pairwise_lt_of_adjacentFind hs ?_⟩
  unfold validateQuorumAndSignerEntries at h
  split at h
  case isTrue => cases h
  split at h
  case isTrue => cases h
  case isFalse hadj => simpa using hadj

omit [Digest] [Ripesha] in

theorem Stored.signersOf {id : AccountID} (h : Stored id s) :
    ∃ signers, AccountKeys.signersOf s = .ok signers ∧ Checked signers := by
  have ⟨tx, quorum, flags, signers, entry, hop, _, hvalid, hfields⟩ := h
  refine ⟨signers, ?_, checked_of_validate (pairwise_of_determineOperation hop) hvalid⟩
  have hentries := hfields sfSignerEntries (by decide)
  rw [writeSignersToSLE, SLE.fields_set_self] at hentries
  rw [AccountKeys.signersOf, SLE.isFieldPresent, SLE.getFieldArray, hentries]
  dsimp only
  rw [STArray.toList_ofList]
  exact deserialize_written signers

theorem checkMultiSign_of_signersOf
    (hread : view.read (.signers (tx.getAccountID sfAccount)) = some s)
    (hlist : signersOf s = .ok signers) (hc : Checked signers)
    (hsorted : (tx.getFieldArray sfSigners).Pairwise (account · < account ·)) :
    checkMultiSign tx view = tesSUCCESS ↔
      (∀ t ∈ tx.getFieldArray sfSigners, ∃ e ∈ signers, e.account = account t) ∧
      (∀ t ∈ tx.getFieldArray sfSigners, Legitimate view t.2) ∧
      (s.getFieldU32 sfSignerQuorum).toNat ≤
        ((tx.getFieldArray sfSigners).map fun t => weightOf signers (account t)).sum := by
  rw [signersOf] at hlist
  unfold checkMultiSign
  rw [hread]
  dsimp only
  rw [hlist]
  dsimp only
  cases hw : checkMultiSign.walk view 0 signers (tx.getFieldArray sfSigners)
  case error ter =>
    refine iff_of_false (walk_error hw) fun ⟨hmem, hlegit, _⟩ => ?_
    have h : checkMultiSign.walk view 0 signers (tx.getFieldArray sfSigners) = .ok _ :=
      (walk_eq_ok hc.sorted hsorted).mpr ⟨hmem, hlegit, rfl⟩
    rw [h] at hw
    cases hw
  case ok w =>
    have ⟨hmem, hlegit, hsum⟩ := (walk_eq_ok hc.sorted hsorted).mp hw
    -- There are too few signers for the sum to wrap around.
    have hlen := length_le hsorted hmem
    have hle := sum_weightOf_le signers (tx.getFieldArray sfSigners)
    have hmax : signers.length ≤ 8 := hc.max
    have hnat : w.toNat =
        ((tx.getFieldArray sfSigners).map fun t => weightOf signers (account t)).sum := by
      rw [hsum, UInt32.zero_add, UInt32.toNat_ofNat', Nat.mod_eq_of_lt (by omega)]
    dsimp only
    rw [← hnat]
    by_cases hq : w < s.getFieldU32 sfSignerQuorum
    case pos =>
      rw [if_pos hq]
      refine iff_of_false (by decide) fun h => ?_
      exact absurd h.right.right (Nat.not_le.mpr (UInt32.lt_iff_toNat_lt.mp hq))
    case neg =>
      rw [if_neg hq]
      exact iff_of_true rfl ⟨hmem, hlegit, UInt32.le_iff_toNat_le.mp (UInt32.not_lt.mp hq)⟩

-- Several signers are accepted exactly if the account has a list with all of them, each signs with
-- a key that counts, and their weights reach the quorum. A signer who is not in the list makes the
-- transaction fail.
theorem checkMultiSign_eq_success_iff (tx : STTx) (view : ReadView)
    (hstored : ∀ s, view.read (.signers (tx.getAccountID sfAccount)) = some s →
      Stored (tx.getAccountID sfAccount) s)
    (hsorted : (tx.getFieldArray sfSigners).Pairwise (account · < account ·)) :
    (checkMultiSign tx view = tesSUCCESS ↔ Accepts (Legitimate view) view tx) ∧
    ∀ s signers, view.read (.signers (tx.getAccountID sfAccount)) = some s →
      AccountKeys.signersOf s = .ok signers →
      (∃ t ∈ tx.getFieldArray sfSigners, ∀ e ∈ signers, e.account ≠ account t) →
      checkMultiSign tx view ≠ tesSUCCESS := by
  cases hread : view.read (.signers (tx.getAccountID sfAccount))
  case none =>
    refine ⟨⟨fun h => ?_, fun ⟨s, _, hs, _⟩ => ?_⟩, nofun⟩
    · rw [checkMultiSign, hread] at h
      cases h
    · rw [hread] at hs
      cases hs
  case some s =>
    have ⟨signers, hlist, hc⟩ := (hstored s hread).signersOf
    have hiff := checkMultiSign_of_signersOf hread hlist hc hsorted
    refine ⟨hiff.trans ⟨fun h => ⟨s, signers, hread, hlist, h⟩, ?_⟩, ?_⟩
    · rintro ⟨s', signers', hread', hlist', h⟩
      cases hread.symm.trans hread'
      cases hlist.symm.trans hlist'
      exact h
    · rintro _ signers' ⟨⟩ hlist' ⟨t, ht, hnot⟩ h
      cases hlist.symm.trans hlist'
      have ⟨e, he, heq⟩ := (hiff.mp h).left t ht
      exact hnot e he heq

end

section Instance

attribute [local instance] shortDigest oneRipesha

-- The account has its own master key as its regular key too.
def ownKeyRoot (flags : UInt32) : SLE :=
  ((SLE.make .ltACCOUNT_ROOT (Keylet.account 1).key).set sfFlags (.uint32 flags)).set
    sfRegularKey (.account (some 1))

def oneSignerTx : STTx where
  txID   := 1
  type   := .ttSIGNER_LIST_SET
  fields := (STObject.ofList
    [(sfAccount, .account (some 2)), (sfSignerQuorum, .uint32 1),
      (sfSignerEntries, .array (.ofList [(sfSignerEntry, .ofList
        [(sfAccount, .account (some 1)), (sfSignerWeight, .uint16 1)])]))]).find

def oneSignerList : SLE :=
  writeSignersToSLE (.make .ltSIGNER_LIST (Keylet.signers 2).key) 1 [⟨1, 1⟩] 0

theorem ownKeyRoot_key_ne (flags : UInt32) : (SLEPtr.mk 0 (ownKeyRoot flags)).key ≠ 0 := by
  have h : (Keylet.account 1).key ≠ 0 := by decide +kernel
  exact h

def oneSignerLedger (flags : UInt32) : Ledger :=
  ((Ledger.blank { seq := 1, drops := 1000 } fun _ => true).store ⟨0, ownKeyRoot flags⟩
    (ownKeyRoot_key_ne flags)).store ⟨1, oneSignerList⟩ (by decide +kernel)

-- The other account signs with its master key.
def jointTx : STTx where
  txID   := 2
  type   := .ttACCOUNT_SET
  fields := (STObject.ofList
    [(sfAccount, .account (some 2)), (sfSigners, .array (.ofList [(sfSigner, .ofList
      [(sfAccount, .account (some 1)), (sfSigningPubKey, .vl (2 :: List.replicate 32 0))])]))]).find

theorem stored_oneSignerList : Stored 2 oneSignerList :=
  ⟨oneSignerTx, 1, 0, [⟨1, 1⟩], _, rfl, rfl, rfl, fun _ _ => rfl⟩

theorem state_oneSignerLedger (flags : UInt32) :
    (oneSignerLedger flags).contents.state (Keylet.signers 2).key = some oneSignerList ∧
    (oneSignerLedger flags).contents.state (Keylet.account 1).key = some (ownKeyRoot flags) := by
  have hne : (Keylet.account 1).key ≠ (Keylet.signers 2).key := by decide +kernel
  rw [oneSignerLedger, Ledger.contents_store, Ledger.contents_store]
  unfold Contents.put
  dsimp only
  refine ⟨Function.update_self .., ?_⟩
  exact (Function.update_of_ne hne ..).trans (Function.update_self ..)

theorem read_oneSignerLedger (flags : UInt32) :
    (oneSignerLedger flags).view.read (.signers 2) = some oneSignerList ∧
    (oneSignerLedger flags).view.read (.account 1) = some (ownKeyRoot flags) :=
  ⟨read_signers.mpr ⟨(state_oneSignerLedger flags).left, rfl⟩,
    read_account.mpr ⟨(state_oneSignerLedger flags).right, rfl⟩⟩

theorem sorted_jointTx : (jointTx.getFieldArray sfSigners).Pairwise (account · < account ·) :=
  pairwise_singleton ..

theorem stored_oneSignerLedger (flags : UInt32) (s : SLE)
    (h : (oneSignerLedger flags).view.read (.signers (jointTx.getAccountID sfAccount)) = some s) :
    Stored (jointTx.getAccountID sfAccount) s := by
  have hs := Option.some.inj ((read_oneSignerLedger flags).left.symm.trans h)
  exact hs ▸ stored_oneSignerList

theorem checkMultiSign_eq_success_iff_jointTx :
    Transactor.checkMultiSign jointTx (oneSignerLedger 0).view = tesSUCCESS ∧
      Accepts (Legitimate (oneSignerLedger 0).view) (oneSignerLedger 0).view jointTx := by
  have h := (checkMultiSign_eq_success_iff jointTx (oneSignerLedger 0).view
    (stored_oneSignerLedger 0) sorted_jointTx).left
  have hsign : checkMultiSign jointTx (oneSignerLedger 0).view = tesSUCCESS := by
    decide +kernel
  exact ⟨hsign, h.mp hsign⟩

-- The key is that of the account and is its regular key too. Since the master key is disabled, it
-- is not accepted.
theorem ownKey_refused :
    (∀ s, (oneSignerLedger lsfDisableMaster).view.read
      (.signers (jointTx.getAccountID sfAccount)) = some s →
        Stored (jointTx.getAccountID sfAccount) s) ∧
    (jointTx.getFieldArray sfSigners).Pairwise (account · < account ·) ∧
    Accepts (Entitled (oneSignerLedger lsfDisableMaster).view)
      (oneSignerLedger lsfDisableMaster).view jointTx ∧
    Transactor.checkMultiSign jointTx (oneSignerLedger lsfDisableMaster).view =
      tefMASTER_DISABLED := by
  refine ⟨stored_oneSignerLedger _, sorted_jointTx, ?_, by decide +kernel⟩
  have ⟨hlist, hroot⟩ := read_oneSignerLedger lsfDisableMaster
  refine ⟨oneSignerList, [⟨1, 1⟩], hlist, rfl, ?_, ?_, by decide⟩
  · exact forall_mem_singleton.mpr ⟨⟨1, 1⟩, .head _, rfl⟩
  · exact forall_mem_singleton.mpr ⟨rfl, .inr ⟨_, hroot, rfl, rfl⟩⟩

end Instance

end MultiSign
