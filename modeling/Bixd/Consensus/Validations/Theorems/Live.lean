import Bixd.Consensus.Validations.Theorems.Bookkeeping

open LedgerTrie (Ledger)

namespace Validations

variable {A L I N : Type} [Ledger L I] [LinearOrder I] [DecidableEq N]
variable {s s' : Validations A L I N}

-- The node has no trusted current validation.
def Silent (s : Validations A L I N) (n : N) : Prop :=
  ∀ v, s.current.find? n = some v → v.trusted = false

-- The call is neither a validation of the node, nor does it make the node trusted.
def Op.Quiet (n : N) : Op L I N → Prop
  | .add m _ => m ≠ n
  | .trustChanged added _ => n ∉ added
  | _ => True

omit [Ledger L I] [LinearOrder I] in

theorem Silent.of_find (h : Silent s n)
    (hc : ∀ {v}, s'.current.find? n = some v → s.current.find? n = some v) : Silent s' n :=
  fun v hv => h v (hc hv)

omit [Ledger L I] [LinearOrder I] in

theorem Silent.of_current (h : Silent s n) (hc : s'.current = s.current) : Silent s' n :=
  h.of_find fun hv => hc ▸ hv

omit [Ledger L I] [LinearOrder I] in

theorem Silent.insert (h : Silent s n) (hm : m ≠ n) :
    Silent { s with current := s.current.insert m v } n :=
  h.of_find fun hv => by rwa [find?_insert_ne s.current m v n hm.symm] at hv

theorem foldl_currentEntry_find {β : Type} {f : β → N → Validation I → A → β × A}
    {es : List (N × Validation I)} {b : β}
    (hv : (es.foldl (currentEntry t f) (b, s)).2.current.find? n = some v) :
    s.current.find? n = some v := by
  induction es generalizing s b
  case nil => exact hv
  case cons e es ih =>
    rw [List.foldl_cons] at hv
    unfold currentEntry at hv
    dsimp only at hv
    split at hv
    case isTrue => exact ih (s := { s with adaptor := (f b e.1 e.2 s.adaptor).2 }) hv
    have hk : Keeps s (s.removeTrie e.1 e.2) := removeTrie_keeps
    have hv := ih hv
    rw [HashMap.find?_erase, hk.current] at hv
    split at hv
    case isTrue => contradiction
    case isFalse => exact hv

variable [Adaptor A L]

theorem iterCurrent_find {β : Type} {b : β} {f : β → N → Validation I → A → β × A}
    (hv : (s.iterCurrent b f).2.2.current.find? n = some v) : s.current.find? n = some v :=
  foldl_currentEntry_find (s := (s.askNow.2.order s.current.toList).2) hv

theorem withTrieState_find (hv : s.withTrieState.2.current.find? n = some v) :
    s.current.find? n = some v := by
  have hk := checkAcquired_keeps (s := (s.iterCurrent () fun _ _ _ a => ((), a)).2.2)
  exact iterCurrent_find (hk.current ▸ hv)

theorem Silent.withTrieState (h : Silent s n) : Silent s.withTrieState.2 n :=
  h.of_find withTrieState_find

theorem Silent.getPreferred (h : Silent s n) (ps : LedgerTrie.PartialSort L) (curr : L) :
    Silent (s.getPreferred ps curr).2 n := by
  unfold Validations.getPreferred
  dsimp only
  split <;> exact h.withTrieState

theorem Silent.getNodesAfter (h : Silent s n) (l : L) (i : I) :
    Silent (s.getNodesAfter l i).2 n := by
  unfold Validations.getNodesAfter
  split
  case isTrue => exact h.withTrieState
  case isFalse => exact h

theorem Silent.add (h : Silent s n) (hm : m ≠ n) : Silent (s.add m v).2 n := by
  have hu : ∀ {s : Validations A L I N} prior, Silent s n → Silent (s.updateTrie m v prior) n :=
    fun prior h => h.of_current (updateTrie_keeps prior).current
  unfold Validations.add
  have ha : Same s (s.vet m v).2 := vet_same
  generalize s.vet m v = r at ha ⊢
  have ⟨status, s₁⟩ := r
  match status with
  | some _ => exact h.of_current ha.current
  | none =>
    have hs := h.of_current ha.current
    have hi := hs.insert (v := v) hm
    dsimp only
    split
    case h_1 =>
      split
      case isTrue =>
        dsimp only
        split
        case isTrue => exact hu _ hi
        case isFalse => exact hi
      case isFalse => exact hs
    case h_2 =>
      dsimp only
      split
      case isTrue => exact hu _ hi
      case isFalse => exact hi

section Trust

theorem Silent.trustEntry (h : Silent s n) (ha : n ∉ added) (e : N × Validation I) :
    Silent (s.trustEntry added removed e) n := by
  unfold Validations.trustEntry
  split
  case isTrue he =>
    have hne : e.1 ≠ n := fun hn => ha (hn ▸ he)
    exact (h.insert hne).of_current (updateTrie_keeps none).current
  split
  case isFalse => exact h
  refine Silent.of_current (s := { s with current := s.current.insert e.1 e.2.setUntrusted })
    ?_ removeTrie_keeps.current
  by_cases hn : e.1 = n
  case neg => exact h.insert hn
  intro v hv
  simp only [HashMap.find?_insert, hn, if_true] at hv
  cases hv
  rfl

-- The node of the entry lost its trust.
theorem silent_trustEntry {e : N × Validation I} (ha : e.1 ∉ added) (hr : e.1 ∈ removed) :
    Silent (s.trustEntry added removed e) e.1 := by
  unfold trustEntry
  rw [if_neg ha, if_pos hr]
  refine Silent.of_current (s := { s with current := s.current.insert e.1 e.2.setUntrusted })
    (fun v hv => ?_) removeTrie_keeps.current
  simp only [HashMap.find?_insert, if_true] at hv
  cases hv
  rfl

theorem silent_foldl_trustEntry {es : List (N × Validation I)} (ha : n ∉ added)
    (h : Silent s n ∨ n ∈ removed ∧ n ∈ es.map Prod.fst) :
    Silent (es.foldl (trustEntry · added removed) s) n := by
  induction es generalizing s
  case nil => simpa using h
  case cons e es ih =>
    apply ih
    match h with
    | .inl h => exact .inl (h.trustEntry ha e)
    | .inr ⟨hr, hm⟩ =>
      match List.mem_cons.mp hm with
      | .inl he => exact .inl (he ▸ silent_trustEntry (he ▸ ha) (he ▸ hr))
      | .inr hm => exact .inr ⟨hr, hm⟩

theorem silent_trustChanged (ha : n ∉ added) (h : Silent s n ∨ n ∈ removed) :
    Silent (s.trustChanged added removed) n := by
  have hs : Silent s n ∨ n ∈ removed ∧ n ∈ (s.order s.current.toList).1.map Prod.fst := by
    match hc : s.current.find? n, h with
    | none, _ => exact .inl fun v hv => by simp [hc] at hv
    | some _, .inl h => exact .inl h
    | some v, .inr hr => exact .inr ⟨hr, List.mem_map.mpr ⟨(n, v), (order_pending s).right hc, rfl⟩⟩
  have hf := silent_foldl_trustEntry (s := (s.order s.current.toList).2) ha hs
  exact hf.of_current trustChanged_same.current

end Trust

theorem Silent.exec (h : Silent s n) {op : Op L I N} (hop : op.Quiet n) :
    Silent (s.exec op) n := by
  cases op
  case add => exact h.add hop
  case trustChanged => exact silent_trustChanged hop (.inl h)
  case expire => exact h.of_current expire_same.current
  case setSeqToKeep => exact h
  case canValidateSeq => exact h
  case getPreferred ps curr => exact h.getPreferred ps curr
  case getPreferredMin ps curr _ =>
    rw [Validations.exec, getPreferredMin_snd]
    exact h.getPreferred ps curr
  case getPreferredLCL ps lcl _ _ =>
    rw [Validations.exec, getPreferredLCL_snd]
    exact h.getPreferred ps lcl
  case getNodesAfter l i => exact h.getNodesAfter l i
  case currentTrusted => exact h.of_find iterCurrent_find
  case getCurrentNodeIDs => exact h.of_find iterCurrent_find
  case laggards => exact h.of_find iterCurrent_find
  case numTrustedForLedger => exact h.of_current (iterByLedger_same ..).current
  case getTrustedForLedger => exact h.of_current (iterByLedger_same ..).current
  case fees => exact h.of_current (iterByLedger_same ..).current

-- No call lets a node lose its current validation, or the trust in it, while an older ledger of the
-- node is in the trie.
def KeepsLive (nodes : Finset N) (s : Validations A L I N) : Op L I N → Prop
  | .add n v => n ∈ nodes ∧
    ((s.add n v).1 = .current → v.trusted = false →
      (∀ p, ¬s.acquiring.Waiting p n) ∧ s.lastLedger.find? n = none)
  | .trustChanged added removed => ∀ n ∈ removed, n ∉ added → Matched s n
  | .getPreferred .. => StaleMatched s
  | .getPreferredMin .. => StaleMatched s
  | .getPreferredLCL .. => StaleMatched s
  | .getNodesAfter l i => Ledger.id l = i → StaleMatched s
  | .currentTrusted => StaleMatched s
  | .getCurrentNodeIDs => StaleMatched s
  | .laggards .. => StaleMatched s
  | _ => True

variable {nodes : Finset N}

theorem KeepsLive.ok (h : KeepsLive nodes s op) : Ok True nodes s op := by
  cases op
  case add =>
    refine ⟨h.left, fun hc ht => ?_⟩
    have ⟨hw, hl⟩ := h.right hc ht
    exact ⟨fun p hp => absurd hp (hw p), fun _ => hl⟩
  all_goals first | trivial | exact fun _ => h

section Site

open Site
open LedgerTrie (Chain)

end Site

end Validations
