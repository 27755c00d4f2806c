import Bixd.Ledger.BuildLedger
import Bixd.Ledger.Theorems.Views

open List OrderedMap LedgerReplay ReadView.Ledger

variable {V : Type} {apply : Apply V}

namespace Apply

-- A transaction that is not applied leaves the view alone.
def KeepsView (apply : Apply V) : Prop :=
  ∀ v tx flags, (∀ ter, (apply v tx flags).2 ≠ .ok (ter, true)) → (apply v tx flags).1 = v

-- A transaction that is applied when it may be retried is applied in the same way when it may not.
def IgnoresRetry (apply : Apply V) : Prop :=
  ∀ v tx flags ter, (apply v tx (flags ||| tapRETRY)).2 = .ok (ter, true) →
    apply v tx flags = apply v tx (flags ||| tapRETRY)

end Apply

section Transaction

variable {v : V}

theorem view_of_applyTransaction (ha : apply.KeepsView)
    (h : applyTransaction apply v tx retry flags = (v', r)) (hr : ∀ ter, r ≠ .Success ter) :
    v' = v := by
  have hkeep := ha v tx (if retry then flags ||| tapRETRY else flags)
  unfold applyTransaction at h
  dsimp only at h
  split at h
  case h_1 hap =>
    cases h
    exact absurd rfl (hr _)
  case h_2 ter hap =>
    rw [hap] at hkeep
    have hv := hkeep nofun
    split_ifs at h <;> cases h <;> exact hv
  case h_3 hap =>
    rw [hap] at hkeep
    cases h
    exact hkeep nofun

theorem applyTransaction_final (hc : apply.IgnoresRetry)
    (h : applyTransaction apply v tx retry flags = (v', .Success ter)) :
    applyTransaction apply v tx false flags = (v', .Success ter) := by
  cases retry
  case false => exact h
  have hr := hc v tx flags
  unfold applyTransaction at h ⊢
  dsimp only at h ⊢
  split at h
  case h_1 hap =>
    cases h
    rw [if_pos rfl] at hap
    rw [if_neg Bool.false_ne_true, hr _ (congrArg Prod.snd hap), hap]
  case h_2 => split_ifs at h <;> cases h
  case h_3 => cases h

end Transaction

namespace LedgerReplay

variable {items items' : List TxApplied}

-- The indices of transactions are those of their list.
def Indexed (items : List TxApplied) : Prop :=
  items.map TxApplied.index = List.range items.length

theorem Indexed.concat (h : Indexed items) (tx : STTx) (ter : TER) :
    Indexed (items ++ [⟨items.length, tx, ter⟩]) := by
  unfold Indexed
  rw [map_append, h, map_singleton, length_append, length_singleton, range_succ]

theorem Indexed.nodup (h : Indexed items) : (items.map TxApplied.index).Nodup :=
  h ▸ nodup_range

theorem find?_orderedTxns (h : (items.map TxApplied.index).Nodup) (i : Nat) (tx : STTx) :
    (orderedTxns items).find? i = some tx ↔ ∃ e ∈ items, e.index = i ∧ e.txn = tx := by
  induction items using reverseRecOn generalizing i tx
  case nil => simp [orderedTxns]
  case append_singleton items e hi =>
    rw [map_append, map_singleton, nodup_append] at h
    have hi := hi h.left
    have hnew : (orderedTxns items).find? e.index = none := by
      refine Option.eq_none_iff_forall_ne_some.mpr fun tx' hf => ?_
      have ⟨e', he', hidx, _⟩ := (hi _ _).mp hf
      exact h.right.right _ (mem_map_of_mem he') _ (mem_singleton_self _) hidx
    have hcons : orderedTxns (items ++ [e]) = (orderedTxns items).insert e.index e.txn := by
      rw [orderedTxns, foldl_append]
      exact if_neg (by rw [← orderedTxns, hnew]; exact Bool.false_ne_true)
    rw [hcons, find?_insert]
    split
    case isTrue heq =>
      subst heq
      have hno : ¬∃ e' ∈ items, e'.index = e.index ∧ e'.txn = tx := fun hex => by
        rw [← hi, hnew] at hex
        cases hex
      simp [hno]
    case isFalse hne => simp [hi, Ne.symm hne]

theorem toList_orderedTxns (h : Indexed items) (hp : items'.Perm items) :
    (orderedTxns items').toList = items.map fun e => (e.index, e.txn) := by
  have hn := (hp.map _).nodup_iff.mpr h.nodup
  refine toList_eq ?_ fun i tx => ?_
  · have hlt : (items.map TxApplied.index).Pairwise (· < ·) := h ▸ pairwise_lt_range
    exact pairwise_map.mpr (pairwise_map.mp hlt)
  · rw [find?_orderedTxns hn]
    simp [hp.mem_iff]

theorem replay_eq (h : Indexed items) (hp : items'.Perm items) (v : V) (flags : ApplyFlags) :
    replay apply v (orderedTxns items') flags =
      (items.map TxApplied.txn).foldl (step apply flags) (v, []) := by
  rw [replay, toList_orderedTxns h hp, map_map]
  rfl

end LedgerReplay

namespace applyTransactions

-- What a state of the passes has come from: transactions that have been applied and can be applied
-- again, transactions that have failed and those that are left.
structure Inv (apply : Apply V) (v₀ : V) (failed₀ : Finset UInt256) (all : List STTx)
    (a : Applying V) : Prop where
  indexed : LedgerReplay.Indexed a.applied
  replays : (a.applied.map TxApplied.txn).foldl (step apply tapNONE) (v₀, []) =
    (a.view, a.applied.map fun e => .Success e.ter)
  parts   : ∃ failed : List STTx, (a.failed = failed₀ ∪ (failed.map STTx.txID).toFinset) ∧
    (a.applied.map TxApplied.txn ++ failed ++ a.txns.txns).Perm all

variable {v₀ : V} {failed₀ : Finset UInt256} {all : List STTx} {a : Applying V}
variable {it : CanonicalTXSet.Key × STTx} {built : ReadView.Ledger} {n i : Nat} {c : Bool}

theorem perm_erase {s : CanonicalTXSet} (h : s.map_.find? it.1 = some it.2) :
    s.txns.Perm (it.2 :: (s.erase it.1).txns) :=
  (OrderedMap.perm_erase h).map _

section

variable (ha : apply.KeepsView) (hc : apply.IgnoresRetry) (hb : built.txMap = ∅)
  (h : Inv apply v₀ failed₀ all a)

include ha hc hb h

theorem Inv.visit (hit : a.txns.map_.find? it.1 = some it.2) :
    ∃ a' m, visit apply built i c (a, n) it = (a', m) ∧ Inv apply v₀ failed₀ all a' ∧
      (∀ k ≠ it.1, a'.txns.map_.find? k = a.txns.map_.find? k) ∧
      (a'.applied.length + n = a.applied.length + m) := by
  have hne : built.txExists it.1.txId_ = false := by rw [txExists, hb]; rfl
  have hid : it.1.txId_ = it.2.txID := by rw [a.txns.keyed _ _ hit]; rfl
  have herase (k : CanonicalTXSet.Key) (hk : k ≠ it.1) :
      (a.txns.erase it.1).map_.find? k = a.txns.map_.find? k :=
    (find?_erase ..).trans (if_neg hk)
  have ⟨failed, hf, hp⟩ := h.parts
  unfold applyTransactions.visit
  dsimp only
  rw [if_neg (by simp [hne])]
  split
  case h_1 view ter hap =>
    have hfin := applyTransaction_final hc hap
    refine ⟨_, _, rfl, ⟨h.indexed.concat it.2 ter, ?_, failed, hf, ?_⟩, herase, ?_⟩
    · rw [map_append, foldl_append, h.replays, map_append]
      simp [step, hfin]
    · rw [map_append, map_singleton]
      refine .trans ?_ ((perm_erase hit).append_left _ |>.symm.trans hp)
      simp only [append_assoc, singleton_append]
      exact perm_middle.symm.append_left _
    · rw [length_append, length_singleton]
      omega
  case h_2 view hap =>
    have hv := view_of_applyTransaction ha hap nofun
    subst hv
    refine ⟨_, _, rfl, ⟨h.indexed, h.replays, failed ++ [it.2], ?_, ?_⟩, herase, rfl⟩
    · rw [hid, hf]
      simp
    · refine .trans ?_ ((perm_erase hit).append_left _ |>.symm.trans hp)
      simp
  case h_3 view hap =>
    have hv := view_of_applyTransaction ha hap nofun
    subst hv
    exact ⟨_, _, rfl, h, fun _ _ => rfl, rfl⟩

theorem Inv.foldl (its : List (CanonicalTXSet.Key × STTx)) (hn : (its.map Prod.fst).Nodup)
    (hits : ∀ it ∈ its, a.txns.map_.find? it.1 = some it.2) :
    ∃ a' m, its.foldl (applyTransactions.visit apply built i c) (a, n) = (a', m) ∧
      Inv apply v₀ failed₀ all a' ∧ (a'.applied.length + n = a.applied.length + m) := by
  induction its generalizing a n
  case nil => exact ⟨a, n, rfl, h, rfl⟩
  case cons it its hi =>
    rw [map_cons, nodup_cons] at hn
    have ⟨a₁, m₁, hv, h₁, hkeep, hlen₁⟩ := h.visit (n := n) (i := i) (c := c) ha hc hb
      (hits it (mem_cons_self ..))
    have ⟨a₂, m₂, hf, h₂, hlen₂⟩ := hi (n := m₁) h₁ hn.right fun it' hit' => by
      have hne : it'.1 ≠ it.1 := fun h => hn.left (h ▸ mem_map_of_mem hit')
      rw [hkeep _ hne]
      exact hits it' (mem_cons_of_mem _ hit')
    refine ⟨a₂, m₂, ?_, h₂, by omega⟩
    rw [foldl_cons, hv, hf]

theorem Inv.pass :
    ∃ a' m, pass apply built i c a = (a', m) ∧ Inv apply v₀ failed₀ all a' ∧
      (a'.applied.length = a.applied.length + m) := by
  refine h.foldl ha hc hb _ ?_ fun it hit => mem_toList.mp hit
  rw [keys_toList]
  exact nodup_keys _

theorem Inv.passes (hn : a.applied.length = n) (left : Nat) :
    ∃ a' m, passes apply built left i c (a, n) = (a', m) ∧ Inv apply v₀ failed₀ all a' ∧
      (a'.applied.length = m) := by
  induction left generalizing a n i c
  case zero => exact ⟨a, n, rfl, h, hn⟩
  case succ left hi =>
    have ⟨a₁, m₁, hp, h₁, hlen⟩ := h.pass (i := i) (c := c) ha hc hb
    rw [applyTransactions.passes, hp]
    dsimp only
    split
    case isTrue => exact ⟨a₁, n + m₁, rfl, h₁, by omega⟩
    case isFalse => exact hi h₁ (by omega)

end

theorem inv_init (apply : Apply V) (v₀ : V) (failed₀ : Finset UInt256) (txns : CanonicalTXSet) :
    Inv apply v₀ failed₀ txns.txns { view := v₀, txns := txns, failed := failed₀ } where
  indexed := rfl
  replays := rfl
  parts := ⟨[], by simp, .refl _⟩

end applyTransactions

theorem CanonicalTXSet.nodup_txns (s : CanonicalTXSet) : s.txns.Nodup := by
  have hk : (s.map_.toList.map Prod.fst).Nodup := by
    rw [keys_toList]
    exact s.map_.nodup_keys
  have hkey : s.map_.toList.map Prod.fst = s.txns.map (CanonicalTXSet.key s.salt_) := by
    rw [CanonicalTXSet.txns, map_map]
    exact map_congr_left fun e he => s.keyed e.1 e.2 (mem_toList.mp he)
  exact .of_map _ (hkey ▸ hk)

namespace BuildLedger

open ReadView

theorem txMap_rawReplace {l : Ledger} (h : l.rawReplace p = .ok l') : l'.txMap = l.txMap := by
  unfold Ledger.rawReplace at h
  split_ifs at h
  cases h
  rfl

theorem txMap_rawErase {l : Ledger} (h : l.rawErase p = .ok l') : l'.txMap = l.txMap := by
  unfold Ledger.rawErase at h
  split_ifs at h
  cases h
  rfl

variable [Digest] {parent built : Ledger} {closeTime : UInt32}

theorem txMap_updateNegativeUNL {l : Ledger} (h : l.updateNegativeUNL = .ok l') :
    l'.txMap = l.txMap := by
  unfold Ledger.updateNegativeUNL at h
  split at h
  case h_1 => cases h; rfl
  split_ifs at h
  case pos => cases h; rfl
  split at h
  case h_1 => exact txMap_rawReplace h
  case h_2 => exact txMap_rawErase h

theorem txMap_start (h : start parent closeTime = .ok built) : built.txMap = ∅ := by
  unfold start at h
  dsimp only at h
  split at h
  case isTrue => rw [txMap_updateNegativeUNL h]; rfl
  case isFalse => cases h; rfl

-- The transactions that have been applied give the same view and the same results if they are
-- applied once more, in their order.
theorem applyTransactions_replays (ha : apply.KeepsView) (hc : apply.IgnoresRetry)
    (hb : start parent closeTime = .ok built) (txns : CanonicalTXSet) (failed : Finset UInt256)
    (v : V) :
    ∃ a count, applyTransactions apply built txns failed v = (a, count) ∧
      (∀ items, items.Perm a.applied →
        replay apply v (orderedTxns items) tapNONE =
          (a.view, a.applied.map fun e => .Success e.ter)) ∧
      (count = a.applied.length) ∧ (a.applied.map TxApplied.txn).Nodup ∧
      ∃ failedTxns, (a.failed = failed ∪ (failedTxns.map STTx.txID).toFinset) ∧
        (a.applied.map TxApplied.txn ++ failedTxns ++ a.txns.txns).Perm txns.txns := by
  have ⟨a, count, hp, hi, hcount⟩ := (applyTransactions.inv_init apply v failed txns).passes
    (i := 0) (c := true) ha hc (txMap_start hb) rfl LEDGER_TOTAL_PASSES
  have ⟨failedTxns, hf, hparts⟩ := hi.parts
  refine ⟨a, count, hp, fun items hitems => ?_, hcount.symm, ?_, failedTxns, hf, hparts⟩
  · rw [replay_eq hi.indexed hitems, hi.replays]
  · have hn := hparts.nodup_iff.mpr txns.nodup_txns
    exact (nodup_append.mp (nodup_append.mp hn).left).left

theorem replayLedger_eq {apply : Apply OpenView} (ha : apply.KeepsView) (hc : apply.IgnoresRetry)
    {count : Nat} {items : List TxApplied}
    (h : buildLedger apply setAccepted parent closeTime txns failed = .ok (l, a, count))
    (hp : items.Perm a.applied) :
    replayLedger apply setAccepted parent closeTime (orderedTxns items) tapNONE =
      .ok (l, a.applied.map fun e => .Success e.ter) := by
  have ⟨built, hb, h⟩ := Except.bind_eq_ok.mp h
  have ⟨a', count', happ, hrep, _⟩ := applyTransactions_replays ha hc hb txns failed
    (OpenView.make built.view)
  simp only [happ] at h
  have ⟨l₁, hl₁, h⟩ := Except.bind_eq_ok.mp h
  have ⟨l₂, hl₂, h⟩ := Except.bind_eq_ok.mp h
  cases h
  unfold replayLedger buildLedgerImpl
  rw [hb]
  simp only [bind, Except.bind, hrep items hp, hl₁, hl₂]
  rfl

end BuildLedger

namespace BuildLedger

section TwoTransactions

attribute [local instance] oneDigest

-- A transaction is applied if it has not been applied before. The view is a list of transactions.
def applyOnce : Apply (List UInt256) := fun v tx _ =>
  if tx.txID ∈ v then (v, .ok (tefALREADY, false)) else (v ++ [tx.txID], .ok (tesSUCCESS, true))

theorem keepsView_applyOnce : applyOnce.KeepsView := by
  intro v tx flags h
  unfold applyOnce at h ⊢
  split at h
  case isTrue hm => rw [if_pos hm]
  case isFalse => exact absurd rfl (h tesSUCCESS)

theorem ignoresRetry_applyOnce : applyOnce.IgnoresRetry :=
  fun _ _ _ _ _ => rfl

def twoTransactions : CanonicalTXSet :=
  ((CanonicalTXSet.make 0).insert ⟨2, .ttPAYMENT, fun _ => none⟩).insert
    ⟨1, .ttPAYMENT, fun _ => none⟩

theorem replays_twoTransactions : ∃ a, applyTransactions applyOnce
    ((ReadView.Ledger.blank { seq := 1, drops := 0 } fun _ => false).next 0) twoTransactions ∅ [] =
      (a, 2) ∧ replay applyOnce [] (orderedTxns a.applied) tapNONE =
      ([1, 2], [.Success tesSUCCESS, .Success tesSUCCESS]) := by
  have hb : start (.blank { seq := 1, drops := 0 } fun _ => false) 0 =
    .ok ((blank { seq := 1, drops := 0 } fun _ => false).next 0) := rfl
  have ⟨a, count, ha, hr, _⟩ := applyTransactions_replays keepsView_applyOnce ignoresRetry_applyOnce
    hb twoTransactions ∅ []
  have he : applyTransactions applyOnce
    ((blank { seq := 1, drops := 0 } fun _ => false).next 0) twoTransactions ∅ [] =
      (⟨[1, 2], _, _, [⟨0, _, 0⟩, ⟨1, _, 0⟩]⟩, 2) := rfl
  cases ha.symm.trans he
  exact ⟨_, ha, hr _ (.refl _)⟩

end TwoTransactions

end BuildLedger
