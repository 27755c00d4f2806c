import Bixd.Consensus.Validations.Theorems.Trie

open HashMap

open LedgerTrie (Ledger)

namespace Validations

open Consistent

variable {A L I N : Type}

-- The two states differ in what the trie does not depend on.
structure Same (s s' : Validations A L I N) : Prop where
  current    : s'.current = s.current
  lastLedger : s'.lastLedger = s.lastLedger
  acquiring  : s'.acquiring = s.acquiring
  trie       : s'.trie = s.trie
  parms      : s'.parms = s.parms

variable {s s' : Validations A L I N}

theorem Same.refl : Same s s :=
  ⟨rfl, rfl, rfl, rfl, rfl⟩

theorem Same.trans (h₁ : Same s s') (h₂ : Same s' s'') : Same s s'' where
  current := h₂.current.trans h₁.current
  lastLedger := h₂.lastLedger.trans h₁.lastLedger
  acquiring := h₂.acquiring.trans h₁.acquiring
  trie := h₂.trie.trans h₁.trie
  parms := h₂.parms.trans h₁.parms

theorem Same.foldl {α : Type} {f : Validations A L I N → α → Validations A L I N}
    (hf : ∀ s a, Same s (f s a)) (as : List α) (s : Validations A L I N) :
    Same s (as.foldl f s) := by
  induction as generalizing s
  case nil => exact .refl
  case cons a as ih => exact (hf s a).trans (ih _)

variable [Ledger L I] [LinearOrder I] [DecidableEq N]
variable {strict : Prop} {nodes : Finset N}

theorem Consistent.of_same (h : Consistent strict nodes pending s) (hs : Same s s') :
    Consistent strict nodes pending s' := by
  unfold Consistent
  rw [hs.current, hs.lastLedger, hs.acquiring, hs.trie]
  exact h

variable {n : N} {v : Validation I}

omit [LinearOrder I] in

theorem find?_insert_ne (current : HashMap N (Validation I)) (n : N) (v : Validation I) :
    ∀ m, m ≠ n → (current.insert n v).find? m = current.find? m :=
  fun m hm => by rw [find?_insert, if_neg hm]

theorem Consistent.add_first (h : Consistent strict nodes none s) (hn : n ∈ nodes)
    (ho : s.current.find? n = none) :
    Inv strict nodes (some n) (s.current.insert n v) s.lastLedger s.acquiring s.trie := by
  refine (h.pend n).of_current (find?_insert_ne s.current n v) hn
    (fun p hp => absurd hp (h.not_waiting_of_none ho p)) fun hs l hl => ?_
  have ⟨_, hc, _⟩ := h.last_cur hs hl
  simp [ho] at hc

theorem Consistent.add_untrusted (h : Consistent strict nodes none s) (hn : n ∈ nodes)
    (ht : v.trusted = false) (hw : ∀ p, s.acquiring.Waiting p n → p = v.pair ∧ ¬strict)
    (hl : strict → s.lastLedger.find? n = none) :
    Consistent strict nodes none { s with current := s.current.insert n v } := by
  have hv : (s.current.insert n v).find? n = some v := by simp [find?_insert]
  refine (h.pend n).of_current (find?_insert_ne s.current n v) hn ?_ ?_ |>.settle ?_
  · intro p hp
    obtain ⟨he, hns⟩ := hw p hp
    exact ⟨v, hv, he.symm, fun hs => absurd hs hns⟩
  · intro hs l hl'
    simp [hl hs] at hl'
  · intro w hw ht'
    obtain rfl : v = w := by simpa [hv] using hw
    simp [ht] at ht'

variable [Adaptor A L]

theorem vet_same : Same s (s.vet n v).2 := by
  unfold vet
  dsimp only
  split
  case isTrue => exact ⟨rfl, rfl, rfl, rfl, rfl⟩
  split
  case isTrue => exact ⟨rfl, rfl, rfl, rfl, rfl⟩
  split
  case isTrue =>
    split
    case isTrue => exact ⟨rfl, rfl, rfl, rfl, rfl⟩
    case isFalse => split <;> exact ⟨rfl, rfl, rfl, rfl, rfl⟩
  case isFalse => exact ⟨rfl, rfl, rfl, rfl, rfl⟩

theorem storeByLedger_same : Same s (s.storeByLedger n v) :=
  ⟨rfl, rfl, rfl, rfl, rfl⟩

omit [DecidableEq N] in

theorem keep_same (seq : Nat) : Same s (s.keep seq) := by
  unfold keep
  dsimp only
  refine Same.trans ?_ (Same.foldl ?_ _ _)
  · refine Same.trans ?_ (Same.foldl ?_ _ _)
    · exact ⟨rfl, rfl, rfl, rfl, rfl⟩
    · intro s e
      split
      case h_1 => split <;> exact ⟨rfl, rfl, rfl, rfl, rfl⟩
      case h_2 => exact ⟨rfl, rfl, rfl, rfl, rfl⟩
  · intro s e
    split <;> exact ⟨rfl, rfl, rfl, rfl, rfl⟩

omit [DecidableEq N] in

theorem expire_same : Same s s.expire := by
  unfold expire
  match s.toKeep with
  | none => exact ⟨rfl, rfl, rfl, rfl, rfl⟩
  | some seq => exact (keep_same seq).trans ⟨rfl, rfl, rfl, rfl, rfl⟩

omit [DecidableEq N] in

theorem iterByLedger_same {β : Type} (i : I) (b : β) (f : β → N → Validation I → β) :
    Same s (s.iterByLedger i b f).2 := by
  unfold iterByLedger
  split <;> exact ⟨rfl, rfl, rfl, rfl, rfl⟩

-- The last ledger of the node, if it has one, is the one of its current validation.
def Matched (s : Validations A L I N) (n : N) : Prop :=
  ∀ v l, s.current.find? n = some v → s.lastLedger.find? n = some l → Ledger.id l = v.ledgerID

omit [LinearOrder I] [Adaptor A L] in

theorem Matched.of_follows (h : Matched s n) (hc : s'.current.find? n = s.current.find? n)
    (hf : Follows s s') : Matched s' n := by
  intro v l hv hl
  rw [hc] at hv
  match hf hl with
  | .inl hl => exact h v l hv hl
  | .inr ⟨w, hw, hid⟩ =>
    obtain rfl : w = v := by simpa [hv] using hw.symm
    exact hid

-- The entries that a loop over the current validations has not reached yet.
structure Pending (current : HashMap N (Validation I)) (es : List (N × Validation I)) : Prop where
  nodup : (es.map Prod.fst).Nodup
  find  : ∀ e ∈ es, current.find? e.1 = some e.2

omit [LinearOrder I] in

theorem Pending.tail {current current' : HashMap N (Validation I)} (h : Pending current (e :: es))
    (hc : ∀ m, m ≠ e.1 → current'.find? m = current.find? m) :
    Pending current' es ∧ ∀ d ∈ es, d.1 ≠ e.1 := by
  have ⟨hn₁, hn₂⟩ := List.nodup_cons.mp h.nodup
  have hne : ∀ d ∈ es, d.1 ≠ e.1 := fun d hd he => hn₁ (he ▸ List.mem_map_of_mem hd)
  exact ⟨⟨hn₂, fun d hd => by rw [hc _ (hne d hd), h.find d (by simp [hd])]⟩, hne⟩

omit [LinearOrder I] in

theorem order_pending (s : Validations A L I N) :
    Pending s.current (s.order s.current.toList).1 ∧
    ∀ {n v}, s.current.find? n = some v → (n, v) ∈ (s.order s.current.toList).1 := by
  have hp := order_perm s s.current.toList
  refine ⟨⟨?_, fun e he => mem_toList.mp (hp.subset he)⟩, fun h => ?_⟩
  · rw [(hp.map Prod.fst).nodup_iff, keys_toList]
    exact s.current.keys_nodup
  · exact hp.mem_iff.mpr (mem_toList.mpr h)

section Flush

variable {β : Type}

-- A stale entry is flushed.
omit [Adaptor A L] in

theorem Consistent.flushEntry (h : Consistent strict nodes none s)
    (hv : s.current.find? n = some v) (hm : strict → Matched s n) :
    let s' := { s.removeTrie n v with current := (s.removeTrie n v).current.erase n }
    Consistent strict nodes none s' ∧ s'.parms = s.parms ∧ s'.current.find? n = none ∧
    ∀ m, m ≠ n → s'.current.find? m = s.current.find? m ∧
      s'.lastLedger.find? m = s.lastLedger.find? m := by
  have hk : Keeps s (s.removeTrie n v) := removeTrie_keeps
  have ho : ∀ m, m ≠ n → (s.current.erase n).find? m = s.current.find? m :=
    fun m hm => by simp [find?_erase, hm]
  have hn : (s.current.erase n).find? n = none := by simp [find?_erase]
  rw [hk.current]
  refine ⟨?_, hk.parms, hn, fun m hm => ⟨ho m hm, removeTrie_lastLedger hm⟩⟩
  exact h.removeTrie hv (fun hs _ hl => hm hs v _ hv hl) ho (by simp [hn])

-- What the loop of `current` does: stale entries that it has passed are gone.
omit [Adaptor A L] in

theorem Consistent.foldl_currentEntry (h : Consistent strict nodes none s)
    {es : List (N × Validation I)} (hp : Pending s.current es)
    (hm : strict → ∀ e ∈ es, isCurrent s.parms t e.2.signTime e.2.seenTime = false → Matched s e.1)
    (hcur : ∀ {n v}, s.current.find? n = some v →
      (n, v) ∈ es ∨ isCurrent s.parms t v.signTime v.seenTime = true) (b : β) :
    Consistent strict nodes none (es.foldl (currentEntry t f) (b, s)).2 ∧
    (es.foldl (currentEntry t f) (b, s)).2.parms = s.parms ∧
    ∀ {n v}, (es.foldl (currentEntry t f) (b, s)).2.current.find? n = some v →
      isCurrent s.parms t v.signTime v.seenTime = true := by
  induction es generalizing s b
  case nil => exact ⟨h, rfl, fun hv => by simpa using hcur hv⟩
  case cons e es ih =>
    rw [List.foldl_cons]
    by_cases hc : isCurrent s.parms t e.2.signTime e.2.seenTime = true
    case pos =>
      rw [currentEntry, if_pos hc]
      refine ih (s := { s with adaptor := (f b e.1 e.2 s.adaptor).2 }) h
        (hp.tail fun _ _ => rfl).left (fun hs d hd => hm hs d (by simp [hd])) ?_ _
      intro n v hv
      match hcur hv with
      | .inr hc' => exact .inr hc'
      | .inl hmem =>
        match List.mem_cons.mp hmem with
        | .inl he => exact .inr (by rw [← he] at hc; exact hc)
        | .inr hmem => exact .inl hmem
    case neg =>
      have hv := hp.find e (by simp)
      have ⟨hf, hpar, hnone, ho⟩ := h.flushEntry hv fun hs => hm hs e (by simp) (by simpa using hc)
      have ⟨hp', hne⟩ := hp.tail fun m hm => (ho m hm).left
      rw [currentEntry, if_neg hc]
      rw [← hpar] at hm hcur ⊢
      apply ih hf hp'
      · intro hs d hd hst w l hw hl
        have hd' := hne d hd
        rw [(ho _ hd').left] at hw
        rw [(ho _ hd').right] at hl
        exact hm hs d (by simp [hd]) hst w l hw hl
      · intro m w hw
        have hmn : m ≠ e.1 := by
          intro he
          rw [he, hnone] at hw
          contradiction
        rw [(ho m hmn).left] at hw
        match hcur hw with
        | .inr hc' => exact .inr hc'
        | .inl hmem =>
          match List.mem_cons.mp hmem with
          | .inl he => exact absurd (congrArg Prod.fst he) hmn
          | .inr hmem => exact .inl hmem

theorem Consistent.iterCurrent (h : Consistent strict nodes none s)
    (hm : strict → ∀ n v, s.current.find? n = some v →
      isCurrent s.parms s.askNow.1 v.signTime v.seenTime = false → Matched s n) (b : β) :
    let r := s.iterCurrent b f
    r.1 = s.askNow.1 ∧ Consistent strict nodes none r.2.2 ∧ r.2.2.parms = s.parms ∧
    ∀ {n v}, r.2.2.current.find? n = some v →
      isCurrent s.parms s.askNow.1 v.signTime v.seenTime = true := by
  have ⟨hp, hall⟩ := order_pending s.askNow.2
  refine ⟨rfl, ?_⟩
  refine foldl_currentEntry (s := (s.askNow.2.order s.current.toList).2) h
    hp ?_ ?_ b
  · exact fun hs e he hst => hm hs e.1 e.2 (hp.find e he) hst
  · exact fun hv => .inl (hall hv)

theorem Consistent.withTrieState (h : Consistent strict nodes none s) (hb : nodes.card < 2 ^ 32)
    (hm : strict → ∀ n v, s.current.find? n = some v →
      isCurrent s.parms s.askNow.1 v.signTime v.seenTime = false → Matched s n) :
    s.withTrieState.1 = s.askNow.1 ∧ Consistent strict nodes none s.withTrieState.2 ∧
    s.withTrieState.2.parms = s.parms ∧
    ∀ {n v}, s.withTrieState.2.current.find? n = some v →
      isCurrent s.parms s.askNow.1 v.signTime v.seenTime = true := by
  have ⟨ht, hc, hp, hcur⟩ := h.iterCurrent hm () (f := fun _ _ _ a => ((), a))
  have hk : Keeps _ _ := checkAcquired_keeps (s := (s.iterCurrent () fun _ _ _ a => ((), a)).2.2)
  exact ⟨ht, (hc.checkAcquired hb).left, hk.parms.trans hp, fun hv => hcur (hk.current ▸ hv)⟩

theorem Consistent.withTrie (h : Consistent strict nodes none s) (hb : nodes.card < 2 ^ 32)
    (hm : strict → ∀ n v, s.current.find? n = some v →
      isCurrent s.parms s.askNow.1 v.signTime v.seenTime = false → Matched s n)
    {f : LedgerTrie L → β × LedgerTrie L}
    (hf : ∀ {t M}, LedgerTrie.Represents t M → LedgerTrie.Represents (f t).2 M) :
    Consistent strict nodes none (s.withTrie f).2 := by
  have ⟨_, hc, _⟩ := h.withTrieState hb hm
  exact { hc with trie := hf hc.trie }

end Flush

section Add

section

variable (h : Consistent strict nodes none s) (hb : nodes.card < 2 ^ 32) (hn : n ∈ nodes)

include h hb hn

theorem Consistent.add_trusted (ht : v.trusted = true) (ho : s.current.find? n = some old) :
    Consistent strict nodes none
      ({ s with current := s.current.insert n v }.updateTrie n v (some old.pair)) := by
  have hv : (s.current.insert n v).find? n = some v := by simp [find?_insert]
  have hi := (h.pend n).erase_waiting old.pair |>.of_current (find?_insert_ne s.current n v) hn
    (fun p hp => absurd hp (h.not_waiting_erase ho p)) (fun _ _ _ => ⟨v, hv, ht⟩)
  exact (updateTrie_none
    (s := { s with current := s.current.insert n v }.eraseAcquiring old.pair n) hi hb hv ht).left

theorem Consistent.add
    (hu : (s.add n v).1 = .current → v.trusted = false → (∀ p, s.acquiring.Waiting p n →
      p = v.pair ∧ ¬strict) ∧ (strict → s.lastLedger.find? n = none)) :
    Consistent strict nodes none (s.add n v).2 := by
  unfold Validations.add at hu ⊢
  have ha : Same s (s.vet n v).2 := vet_same
  generalize s.vet n v = r at ha hu ⊢
  obtain ⟨status, s₁⟩ := r
  cases status with
  | some status => exact h.of_same ha
  | none =>
    have hs : Same s (s₁.storeByLedger n v) := ha.trans storeByLedger_same
    rw [← hs.acquiring, ← hs.lastLedger] at hu
    dsimp only at hu ⊢
    generalize s₁.storeByLedger n v = s₂ at hs hu ⊢
    have h := h.of_same hs
    cases ho : s₂.current.find? n with
    | none =>
      cases ht : v.trusted
      case false =>
        simp only [ho, ht, Bool.false_eq_true, if_false] at hu ⊢
        obtain ⟨hw, hl⟩ := hu trivial trivial
        exact h.add_untrusted hn ht hw hl
      case true =>
        have hv : (s₂.current.insert n v).find? n = some v := by simp [find?_insert]
        exact (updateTrie_none (s := { s₂ with current := s₂.current.insert n v })
          (h.add_first hn ho) hb hv ht).left
    | some old =>
      by_cases hnew : v.signTime > old.signTime
      case neg =>
        simp only [hnew, if_false]
        exact h
      cases ht : v.trusted
      case false =>
        simp only [ho, ht, hnew, Bool.false_eq_true, if_false, if_true] at hu ⊢
        obtain ⟨hw, hl⟩ := hu trivial trivial
        exact h.add_untrusted hn ht hw hl
      case true =>
        simp only [hnew, if_true]
        exact h.add_trusted hb hn ht ho

end

end Add

section Trust

omit [Adaptor A L] in

theorem removeTrie_setUntrusted (s : Validations A L I N) (n : N) (v : Validation I)
    (current : HashMap N (Validation I)) :
    { s with current }.removeTrie n v.setUntrusted = { s.removeTrie n v with current } := by
  unfold removeTrie eraseAcquiring
  dsimp only [Validation.pair, Validation.setUntrusted]
  split
  case h_1 => rfl
  case h_2 l _ => by_cases hid : Ledger.id l = v.ledgerID <;> simp [hid]

-- What the loop of `trustChanged` does for one node.
theorem Consistent.trustEntry (h : Consistent strict nodes none s) (hb : nodes.card < 2 ^ 32)
    (hv : s.current.find? n = some v)
    (hm : strict → n ∈ removed → n ∉ added → Matched s n) :
    Consistent strict nodes none (s.trustEntry added removed (n, v)) ∧
    ∀ m, m ≠ n →
      (s.trustEntry added removed (n, v)).current.find? m = s.current.find? m ∧
      (Matched s m → Matched (s.trustEntry added removed (n, v)) m) := by
  have hmem := h.cur_mem hv
  unfold Validations.trustEntry
  split
  case isTrue ha =>
    have hv' : (s.current.insert n v.setTrusted).find? n = some v.setTrusted := by
      simp [find?_insert]
    have hi := (h.pend n).of_current (find?_insert_ne s.current n v.setTrusted) hmem
      (fun p hp => by
        obtain ⟨w, hw, hwp, _⟩ := h.acq_cur hp
        obtain rfl : v = w := by simpa [hv] using hw
        exact ⟨_, hv', hwp, fun _ => rfl⟩)
      (fun _ _ _ => ⟨_, hv', rfl⟩)
    obtain ⟨hc, hf⟩ := updateTrie_none
      (s := { s with current := s.current.insert n v.setTrusted }) hi hb hv' rfl
    have hk := updateTrie_keeps (s := { s with current := s.current.insert n v.setTrusted })
      (n := n) (v := v.setTrusted) none
    refine ⟨hc, fun m hm => ?_⟩
    have ho := find?_insert_ne s.current n v.setTrusted m hm
    refine ⟨by rw [hk.current, ho], fun hmt => ?_⟩
    refine Matched.of_follows (s := { s with current := s.current.insert n v.setTrusted }) ?_
      (by rw [hk.current]) hf
    exact fun w l hw hl => hmt w l (ho ▸ hw) hl
  case isFalse ha =>
    split
    case isTrue hr =>
      have ho := find?_insert_ne s.current n v.setUntrusted
      have hv' : (s.current.insert n v.setUntrusted).find? n = some v.setUntrusted := by
        simp [find?_insert]
      rw [removeTrie_setUntrusted]
      refine ⟨h.removeTrie hv (fun hs _ hl => hm hs hr ha v _ hv hl) ho ?_, fun m hmn => ?_⟩
      · intro w hw
        obtain rfl : v.setUntrusted = w := by simpa [hv'] using hw
        rfl
      · refine ⟨ho m hmn, fun hmt w l hw hl => ?_⟩
        rw [removeTrie_lastLedger hmn] at hl
        exact hmt w l (ho m hmn ▸ hw) hl
    case isFalse => exact ⟨h, fun _ _ => ⟨rfl, id⟩⟩

theorem Consistent.foldl_trustEntry (h : Consistent strict nodes none s)
    (hb : nodes.card < 2 ^ 32) {es : List (N × Validation I)} (hp : Pending s.current es)
    (hm : strict → ∀ e ∈ es, e.1 ∈ removed → e.1 ∉ added → Matched s e.1) :
    Consistent strict nodes none (es.foldl (Validations.trustEntry · added removed) s) := by
  induction es generalizing s
  case nil => exact h
  case cons e es ih =>
    have ⟨hc, ho⟩ := h.trustEntry hb (hp.find e (by simp)) fun hs hr ha => hm hs e (by simp) hr ha
    have ⟨hp', hne⟩ := hp.tail fun m hm => (ho m hm).left
    exact ih hc hp' fun hs d hd hr ha => (ho _ (hne d hd)).right (hm hs d (by simp [hd]) hr ha)

-- The second loop of `trustChanged` is about the validations by ledger.
theorem trustChanged_same :
    Same ((s.order s.current.toList).1.foldl (trustEntry · added removed)
      (s.order s.current.toList).2) (s.trustChanged added removed) := by
  refine Same.foldl ?_ _ _
  exact fun _ _ => ⟨rfl, rfl, rfl, rfl, rfl⟩

theorem Consistent.trustChanged (h : Consistent strict nodes none s) (hb : nodes.card < 2 ^ 32)
    (hm : strict → ∀ n ∈ removed, n ∉ added → Matched s n) :
    Consistent strict nodes none (s.trustChanged added removed) := by
  have ⟨hp, _⟩ := order_pending s
  have hc := Consistent.foldl_trustEntry (s := (s.order s.current.toList).2) h hb hp
    fun hs e _ hr ha => hm hs e.1 hr ha
  exact hc.of_same trustChanged_same

end Trust

-- Every stale current validation is for the last ledger of its node.
def StaleMatched (s : Validations A L I N) : Prop :=
  ∀ n v, s.current.find? n = some v →
    isCurrent s.parms s.askNow.1 v.signTime v.seenTime = false → Matched s n

-- What the calls of a run are to respect.
def Ok (strict : Prop) (nodes : Finset N) (s : Validations A L I N) : Op L I N → Prop
  | .add n v =>
    n ∈ nodes ∧ ((s.add n v).1 = .current → v.trusted = false →
      (∀ p, s.acquiring.Waiting p n → p = v.pair ∧ ¬strict) ∧
      (strict → s.lastLedger.find? n = none))
  | .trustChanged added removed => strict → ∀ n ∈ removed, n ∉ added → Matched s n
  | .getPreferred .. => strict → StaleMatched s
  | .getPreferredMin .. => strict → StaleMatched s
  | .getPreferredLCL .. => strict → StaleMatched s
  | .getNodesAfter l i => strict → Ledger.id l = i → StaleMatched s
  | .currentTrusted => strict → StaleMatched s
  | .getCurrentNodeIDs => strict → StaleMatched s
  | .laggards .. => strict → StaleMatched s
  | _ => True

theorem Consistent.getPreferred (h : Consistent strict nodes none s) (hb : nodes.card < 2 ^ 32)
    (hm : strict → StaleMatched s) (ps : LedgerTrie.PartialSort L) (curr : L) :
    Consistent strict nodes none (s.getPreferred ps curr).2 := by
  have hw := h.withTrie hb hm (f := fun t => t.getPreferred ps s.localSeqEnforcer.largest)
    fun h => h.getPreferred ps _
  unfold Validations.getPreferred
  dsimp only
  split <;> exact hw

theorem getPreferredMin_snd (ps : LedgerTrie.PartialSort L) (curr : L) (minValidSeq : Nat) :
    (s.getPreferredMin ps curr minValidSeq).2 = (s.getPreferred ps curr).2 := by
  unfold getPreferredMin
  split
  case h_1 h => rw [h]
  case h_2 h => rw [h]

theorem getPreferredLCL_snd (ps : LedgerTrie.PartialSort L) (lcl : L) (minSeq : Nat)
    (peerCounts : List (I × Nat)) :
    (s.getPreferredLCL ps lcl minSeq peerCounts).2 = (s.getPreferred ps lcl).2 := by
  unfold getPreferredLCL
  split
  case h_1 h => rw [h]
  case h_2 h => rw [h]; split <;> rfl

theorem Consistent.getNodesAfter (h : Consistent strict nodes none s) (hb : nodes.card < 2 ^ 32)
    (hm : strict → Ledger.id l = i → StaleMatched s) :
    Consistent strict nodes none (s.getNodesAfter l i).2 := by
  unfold Validations.getNodesAfter
  split
  case isTrue hid => exact h.withTrie hb (fun hs => hm hs hid) fun hr => hr
  case isFalse => exact h

theorem Consistent.exec (h : Consistent strict nodes none s) (hb : nodes.card < 2 ^ 32)
    (hop : Ok strict nodes s op) : Consistent strict nodes none (s.exec op) := by
  cases op
  case add => exact h.add hb hop.left hop.right
  case trustChanged => exact h.trustChanged hb hop
  case expire => exact h.of_same expire_same
  case setSeqToKeep => exact h
  case canValidateSeq => exact h
  case getPreferred ps curr => exact h.getPreferred hb hop ps curr
  case getPreferredMin ps curr m =>
    rw [Validations.exec, getPreferredMin_snd]
    exact h.getPreferred hb hop ps curr
  case getPreferredLCL ps lcl m counts =>
    rw [Validations.exec, getPreferredLCL_snd]
    exact h.getPreferred hb hop ps lcl
  case getNodesAfter => exact h.getNodesAfter hb hop
  case currentTrusted => exact (h.iterCurrent hop _).2.1
  case getCurrentNodeIDs => exact (h.iterCurrent hop _).2.1
  case laggards => exact (h.iterCurrent hop _).2.1
  case numTrustedForLedger => exact h.of_same (iterByLedger_same ..)
  case getTrustedForLedger => exact h.of_same (iterByLedger_same ..)
  case fees => exact h.of_same (iterByLedger_same ..)

theorem Reachable.consistent (h : Reachable ok s) (hb : nodes.card < 2 ^ 32)
    (hok : ∀ s op, ok s op → Ok strict nodes s op) : Consistent strict nodes none s := by
  induction h
  case init p a => exact consistent_init p a
  case step s a op _ hop ih =>
    exact Consistent.exec (s := { s with adaptor := a }) ih hb (hok _ _ hop)

omit [Adaptor A L] in

theorem Consistent.tipSupport [DecidableEq L] (h : Consistent strict nodes pending s) (l : L) :
    s.trie.tipSupport l = s.lastLedger.values.count l := by
  rw [LedgerTrie.tipSupport_eq h.trie.valid, h.trie.count_eq]

-- A validation that is not trusted becomes the current one of a node only if the node does not wait
-- for another ledger.
def KeepsWaiting (nodes : Finset N) (s : Validations A L I N) : Op L I N → Prop
  | .add n v => n ∈ nodes ∧
    ((s.add n v).1 = .current → v.trusted = false → ∀ p, s.acquiring.Waiting p n → p = v.pair)
  | _ => True

theorem KeepsWaiting.ok (h : KeepsWaiting nodes s op) : Ok False nodes s op := by
  cases op
  case add =>
    refine ⟨h.left, fun hc ht => ⟨fun p hp => ⟨h.right hc ht p hp, id⟩, fun hs => ?_⟩⟩
    contradiction
  all_goals first | trivial | exact fun hs => absurd hs id

section Site

open Site
open LedgerTrie (Chain)

end Site

end Validations
