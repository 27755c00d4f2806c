import Bixd.Consensus.Validations.Run
import Bixd.Consensus.LedgerTrie.Theorems.Runs

open HashMap Acquiring List

open LedgerTrie (Ledger)

namespace Acquiring

variable {I N : Type}

section

variable [DecidableEq I]

def Waiting (acq : Acquiring I N) (p : Nat × I) (n : N) : Prop :=
  ∃ ns, acq.find? p = some ns ∧ n ∈ ns

-- No ledger is acquired that no node waits for.
def NonEmpty (acq : Acquiring I N) : Prop :=
  ∀ p ns, acq.find? p = some ns → ns ≠ []

end

variable [DecidableEq I] {acq : Acquiring I N} {p q : Nat × I} {n m : N}

theorem waiting_drop : Waiting (HashMap.erase acq p) q m ↔ Waiting acq q m ∧ q ≠ p := by
  unfold Waiting
  rw [find?_erase]
  by_cases hq : q = p
  case pos => simp [hq]
  case neg => simp [hq]

theorem NonEmpty.drop (h : NonEmpty acq) : NonEmpty (HashMap.erase acq p) := by
  intro q ms
  rw [find?_erase]
  split
  case isTrue => exact fun h => by contradiction
  case isFalse => exact h q ms

variable [DecidableEq N]

theorem waiting_erase : Waiting (erase acq p n) q m ↔ Waiting acq q m ∧ (q = p → m ≠ n) := by
  unfold erase Waiting
  split
  case h_1 hp =>
    constructor
    case mp =>
      rintro ⟨ns, h, hm⟩
      exact ⟨⟨ns, h, hm⟩, fun hq => by simp [hq, hp] at h⟩
    case mpr => exact And.left
  case h_2 ns hp =>
    dsimp only
    by_cases hq : q = p
    case neg => split <;> simp [find?_erase, find?_insert, hq]
    subst hq
    have : m ∈ ns.filter (· ≠ n) ↔ m ∈ ns ∧ m ≠ n := by simp
    split
    case isTrue he =>
      rw [List.isEmpty_iff] at he
      simp only [he, List.not_mem_nil, false_iff, not_and, not_not] at this
      simp [find?_erase, hp]
      exact this
    case isFalse he =>
      simp only [find?_insert, if_true, Option.some.injEq, exists_eq_left', this, hp, true_implies]

theorem NonEmpty.erase (h : NonEmpty acq) : NonEmpty (erase acq p n) := by
  unfold Acquiring.erase
  split
  case h_1 => exact h
  case h_2 ns hp =>
    intro q ms
    dsimp only
    split
    case isTrue he =>
      rw [find?_erase]
      split
      case isTrue => exact fun h => by contradiction
      case isFalse => exact h q ms
    case isFalse he =>
      rw [find?_insert]
      split
      case isTrue => exact fun hq => by cases hq; simpa using he
      case isFalse => exact h q ms

theorem waiting_insert : Waiting (insert acq p n) q m ↔ Waiting acq q m ∨ q = p ∧ m = n := by
  unfold insert Waiting
  rw [find?_insert]
  by_cases hq : q = p
  case neg => simp [hq]
  subst hq
  cases hp : acq.find? q with
  | none => simp
  | some ns => simp [mem_insert_iff, or_comm]

theorem NonEmpty.insert (h : NonEmpty acq) : NonEmpty (insert acq p n) := by
  intro q ms
  unfold Acquiring.insert
  rw [find?_insert]
  split
  case isTrue =>
    intro he hn
    cases he
    simpa [hn] using mem_insert_self (a := n) (l := (acq.find? p).getD [])
  case isFalse => exact h q ms

end Acquiring

namespace Validations

variable {A L I N : Type}

-- Work on the trie keeps the current validations and the parameters.
structure Keeps (s s' : Validations A L I N) : Prop where
  current : s'.current = s.current
  parms   : s'.parms = s.parms

variable {s : Validations A L I N}

theorem Keeps.refl : Keeps s s :=
  ⟨rfl, rfl⟩

theorem Keeps.trans (h₁ : Keeps s s') (h₂ : Keeps s' s'') : Keeps s s'' :=
  ⟨h₂.current.trans h₁.current, h₂.parms.trans h₁.parms⟩

theorem Keeps.foldl {α : Type} {f : Validations A L I N → α → Validations A L I N}
    (hf : ∀ s a, Keeps s (f s a)) (as : List α) (s : Validations A L I N) :
    Keeps s (as.foldl f s) := by
  induction as generalizing s
  case nil => exact .refl
  case cons a as ih => exact (hf s a).trans (ih _)

variable [Ledger L I] [LinearOrder I] [DecidableEq N]

-- How the current validations, the last ledgers, the ledgers being acquired and the trie belong
-- together. While a new validation of the node `pending` is processed, its ledger is not yet
-- accounted for. Under `strict` only nodes with a trusted current validation count.
structure Inv (strict : Prop) (nodes : Finset N) (pending : Option N)
    (current : HashMap N (Validation I)) (lastLedger : HashMap N L)
    (acquiring : Acquiring I N) (trie : LedgerTrie L) : Prop where
  trie      : LedgerTrie.Represents trie lastLedger.values
  last_mem  : ∀ {n l}, lastLedger.find? n = some l → n ∈ nodes
  cur_mem   : ∀ {n v}, current.find? n = some v → n ∈ nodes
  acq_ne    : acquiring.NonEmpty
  acq_cur   : ∀ {p n}, acquiring.Waiting p n →
                ∃ v, current.find? n = some v ∧ v.pair = p ∧ (strict → v.trusted = true)
  last_cur  : strict → ∀ {n l}, lastLedger.find? n = some l →
                ∃ v, current.find? n = some v ∧ v.trusted = true
  trusted   : ∀ {n v}, pending ≠ some n → current.find? n = some v → v.trusted = true →
                acquiring.Waiting v.pair n ∨
                ∃ l, lastLedger.find? n = some l ∧ Ledger.id l = v.ledgerID

abbrev Consistent (strict : Prop) (nodes : Finset N) (pending : Option N)
    (s : Validations A L I N) : Prop :=
  Inv strict nodes pending s.current s.lastLedger s.acquiring s.trie

variable {strict : Prop} {nodes : Finset N} {pending : Option N}

theorem consistent_init (p : ValidationParms) (a : A) :
    Consistent strict nodes none (init p a : Validations A L I N) where
  trie := LedgerTrie.represents_empty
  last_mem := by simp [init]
  cur_mem := by simp [init]
  acq_ne := by simp [init, Acquiring.NonEmpty]
  acq_cur := by simp [init, Acquiring.Waiting]
  last_cur := by simp [init]
  trusted := by simp [init]

section Inv

variable {current current' : HashMap N (Validation I)} {lastLedger : HashMap N L}
variable {acquiring : Acquiring I N} {trie : LedgerTrie L} {n : N} {v : Validation I} {l : L}

namespace Inv

theorem represents_erase (h : LedgerTrie.Represents trie lastLedger.values)
    (hn : lastLedger.find? n = some l) :
    LedgerTrie.Represents (trie.remove l).2 (lastLedger.erase n).values := by
  have := Classical.decEq L
  rw [values_of_find? hn] at h
  have hr : LedgerTrie.Represents (trie.remove l 1).2 _ := h.remove
  simpa using hr

theorem pend (h : Inv strict nodes none current lastLedger acquiring trie) (n : N) :
    Inv strict nodes (some n) current lastLedger acquiring trie :=
  { h with trusted := fun _ => h.trusted (by simp) }

theorem settle (h : Inv strict nodes (some n) current lastLedger acquiring trie)
    (ht : ∀ {v}, current.find? n = some v → v.trusted = true →
      acquiring.Waiting v.pair n ∨ ∃ l, lastLedger.find? n = some l ∧ Ledger.id l = v.ledgerID) :
    Inv strict nodes none current lastLedger acquiring trie :=
  { h with
    trusted := by
      intro m v _ hc hv
      by_cases he : m = n
      case pos => exact he ▸ ht (he ▸ hc) hv
      case neg => exact h.trusted (by simpa using Ne.symm he) hc hv }

theorem not_waiting_of_none (h : Inv strict nodes pending current lastLedger acquiring trie)
    (hc : current.find? n = none) (p : Nat × I) : ¬acquiring.Waiting p n := by
  intro hw
  have ⟨_, hv, _⟩ := h.acq_cur hw
  simp [hc] at hv

theorem erase_waiting (h : Inv strict nodes (some n) current lastLedger acquiring trie)
    (p : Nat × I) : Inv strict nodes (some n) current lastLedger (acquiring.erase p n) trie :=
  { h with
    acq_ne := h.acq_ne.erase
    acq_cur := fun hw => h.acq_cur (waiting_erase.mp hw).left
    trusted := fun hp hc hv => by
      refine h.trusted hp hc hv |>.imp_left fun hw => waiting_erase.mpr ⟨hw, ?_⟩
      exact fun _ he => hp (he ▸ rfl) }

theorem not_waiting_erase (h : Inv strict nodes pending current lastLedger acquiring trie)
    (hc : current.find? n = some v) (p : Nat × I) : ¬(acquiring.erase v.pair n).Waiting p n := by
  intro hw
  have ⟨hw, hne⟩ := waiting_erase.mp hw
  have ⟨v', hv', hp, _⟩ := h.acq_cur hw
  obtain rfl : v' = v := by simpa [hc] using hv'.symm
  exact hne hp.symm rfl

theorem insert_waiting (h : Inv strict nodes (some n) current lastLedger acquiring trie)
    (hc : current.find? n = some v) (ht : v.trusted = true) :
    Inv strict nodes none current lastLedger (acquiring.insert v.pair n) trie := by
  have h' : Inv strict nodes (some n) current lastLedger (acquiring.insert v.pair n) trie :=
    { h with
      acq_ne := h.acq_ne.insert
      acq_cur := fun hw => by
        match waiting_insert.mp hw with
        | .inl hw => exact h.acq_cur hw
        | .inr ⟨hp, hm⟩ => exact ⟨v, hm ▸ hc, hp.symm, fun _ => ht⟩
      trusted := fun hp hc hv => h.trusted hp hc hv |>.imp_left fun hw =>
        waiting_insert.mpr (.inl hw) }
  refine h'.settle fun {v'} hv' _ => .inl <| waiting_insert.mpr (.inr ⟨?_, rfl⟩)
  obtain rfl : v = v' := by simpa [hc] using hv'
  rfl

theorem drop (h : Inv strict nodes pending current lastLedger acquiring trie)
    (hl : ∀ {n v}, acquiring.Waiting p n → current.find? n = some v →
      ∃ l, lastLedger.find? n = some l ∧ Ledger.id l = v.ledgerID) :
    Inv strict nodes pending current lastLedger (HashMap.erase acquiring p) trie :=
  { h with
    acq_ne := h.acq_ne.drop
    acq_cur := fun hw => h.acq_cur (waiting_drop.mp hw).left
    trusted := fun {n v} hp hc hv => by
      match h.trusted hp hc hv with
      | .inr hl => exact .inr hl
      | .inl hw =>
        by_cases he : v.pair = p
        case pos => exact .inr (hl (he ▸ hw) hc)
        case neg => exact .inl (waiting_drop.mpr ⟨hw, he⟩) }

theorem erase_last (h : Inv strict nodes (some n) current lastLedger acquiring trie)
    (hn : lastLedger.find? n = some l) :
    Inv strict nodes (some n) current (lastLedger.erase n) acquiring (trie.remove l).2 where
  trie := represents_erase h.trie hn
  last_mem {m _} hl := by
    rw [find?_erase] at hl
    split at hl
    case isTrue => contradiction
    case isFalse => exact h.last_mem hl
  cur_mem := h.cur_mem
  acq_ne := h.acq_ne
  acq_cur := h.acq_cur
  last_cur hs m _ hl := by
    rw [find?_erase] at hl
    split at hl
    case isTrue => contradiction
    case isFalse => exact h.last_cur hs hl
  trusted {m _} hp hc hv := by
    refine h.trusted hp hc hv |>.imp_right (Exists.imp fun l => .imp_left fun hl => ?_)
    have he : m ≠ n := fun he => hp (he ▸ rfl)
    rw [find?_erase, if_neg he, hl]

theorem insert_last (h : Inv strict nodes pending current lastLedger acquiring trie)
    (hb : nodes.card < 2 ^ 32) (hc : current.find? n = some v) (ht : strict → v.trusted = true)
    (hl : Ledger.id l = v.ledgerID) (hr : LedgerTrie.Represents trie' (lastLedger.erase n).values) :
    Inv strict nodes pending current (lastLedger.insert n l) acquiring (trie'.insert l) := by
  have hmem : ∀ {m k}, (lastLedger.insert n l).find? m = some k → m ∈ nodes := by
    intro m k hk
    rw [find?_insert] at hk
    split at hk
    case isTrue he => exact he ▸ h.cur_mem hc
    case isFalse => exact h.last_mem hk
  have hcard : (lastLedger.erase n).values.card ≤ nodes.card - 1 := by
    rw [← Finset.card_erase_of_mem (h.cur_mem hc)]
    apply card_values_le
    intro m k hk
    rw [find?_erase] at hk
    split at hk
    case isTrue => contradiction
    case isFalse he => exact Finset.mem_erase.mpr ⟨he, h.last_mem hk⟩
  refine ⟨?_, hmem, h.cur_mem, h.acq_ne, h.acq_cur, ?_, ?_⟩
  · rw [values_insert]
    have hi := hr.insert (l := l) Nat.one_pos (by omega)
    rwa [Multiset.replicate_one, Multiset.add_comm, Multiset.singleton_add] at hi
  · intro hs m k hk
    rw [find?_insert] at hk
    split at hk
    case isTrue he => exact he ▸ ⟨v, hc, ht hs⟩
    case isFalse => exact h.last_cur hs hk
  · intro m w hp hm hw
    refine h.trusted hp hm hw |>.imp_right ?_
    rintro ⟨k, hk, hid⟩
    rw [find?_insert]
    split
    case isTrue he =>
      subst he
      obtain rfl : v = w := by simpa [hc] using hm
      exact ⟨l, rfl, hl⟩
    case isFalse => exact ⟨k, hk, hid⟩

theorem of_current (h : Inv strict nodes (some n) current lastLedger acquiring trie)
    (ho : ∀ m, m ≠ n → current'.find? m = current.find? m) (hm : n ∈ nodes)
    (hw : ∀ p, acquiring.Waiting p n →
      ∃ v, current'.find? n = some v ∧ v.pair = p ∧ (strict → v.trusted = true))
    (hl : strict → ∀ {l}, lastLedger.find? n = some l →
      ∃ v, current'.find? n = some v ∧ v.trusted = true) :
    Inv strict nodes (some n) current' lastLedger acquiring trie where
  trie := h.trie
  last_mem := h.last_mem
  cur_mem {m _} hc := by
    by_cases he : m = n
    case pos => exact he ▸ hm
    case neg => exact h.cur_mem (ho m he ▸ hc)
  acq_ne := h.acq_ne
  acq_cur {_ m} hq := by
    by_cases he : m = n
    case pos => exact he ▸ hw _ (he ▸ hq)
    case neg => exact ho m he ▸ h.acq_cur hq
  last_cur hs {m _} hm := by
    by_cases he : m = n
    case pos => exact he ▸ hl hs (he ▸ hm)
    case neg => exact ho m he ▸ h.last_cur hs hm
  trusted {m _} hp hc ht := h.trusted hp (ho m (fun he => hp (he ▸ rfl)) ▸ hc) ht

end Inv

end Inv

variable {n m : N} {v : Validation I} {l : L}

theorem removeTrie_keeps : Keeps s (s.removeTrie n v) := by
  unfold removeTrie eraseAcquiring
  dsimp only
  split
  case h_1 => exact ⟨rfl, rfl⟩
  case h_2 => split <;> exact ⟨rfl, rfl⟩

theorem removeTrie_lastLedger (hm : m ≠ n) :
    (s.removeTrie n v).lastLedger.find? m = s.lastLedger.find? m := by
  unfold removeTrie eraseAcquiring
  dsimp only
  split
  case h_1 => rfl
  split
  case isTrue => simp [find?_erase, hm]
  case isFalse => rfl

-- Dropping the support of a node whose current validation goes away or is no longer trusted. Where
-- the last ledger of the node is not the one of its current validation, it stays.
theorem Consistent.removeTrie (h : Consistent strict nodes none s)
    (hv : s.current.find? n = some v)
    (hl : strict → ∀ {l}, s.lastLedger.find? n = some l → Ledger.id l = v.ledgerID)
    {current : HashMap N (Validation I)}
    (ho : ∀ m, m ≠ n → current.find? m = s.current.find? m)
    (hn : ∀ {v}, current.find? n = some v → v.trusted = false) :
    Consistent strict nodes none { s.removeTrie n v with current } := by
  have he := (h.pend n).erase_waiting v.pair
  have hw := h.not_waiting_erase hv
  have hmem := h.cur_mem hv
  have hset : ∀ {lastLedger : HashMap N L} {trie : LedgerTrie L},
      Inv strict nodes (some n) s.current lastLedger (s.acquiring.erase v.pair n) trie →
      (strict → lastLedger.find? n = none) →
      Inv strict nodes none current lastLedger (s.acquiring.erase v.pair n) trie := by
    intro lastLedger trie hi hno
    refine hi.of_current ho hmem (fun p hp => absurd hp (hw p)) ?_ |>.settle ?_
    · intro hs l hl
      simp [hno hs] at hl
    · intro v hv ht
      simp [hn hv] at ht
  unfold Validations.removeTrie eraseAcquiring
  dsimp only
  split
  case h_1 hnone => exact hset he fun _ => hnone
  case h_2 l hsome =>
    split
    case isTrue => exact hset (he.erase_last hsome) fun _ => by simp [find?_erase]
    case isFalse hne => exact hset he fun hs => absurd (hl hs hsome) hne

theorem updateTrieLedger_lastLedger :
    (s.updateTrieLedger n l).lastLedger.find? m =
      if m = n then some l else s.lastLedger.find? m := by
  simp [updateTrieLedger, find?_insert]

theorem Consistent.updateTrieLedger (h : Consistent strict nodes pending s)
    (hb : nodes.card < 2 ^ 32) (hc : s.current.find? n = some v) (ht : strict → v.trusted = true)
    (hl : Ledger.id l = v.ledgerID) :
    Consistent strict nodes pending (s.updateTrieLedger n l) := by
  refine h.insert_last hb hc ht hl ?_
  split
  case h_1 hn => rw [values_erase_of_find?_none hn]; exact h.trie
  case h_2 hn => exact Inv.represents_erase h.trie hn

theorem foldl_updateTrieLedger (ns : List N) (s : Validations A L I N) (l : L) :
    let s' := ns.foldl (fun s n => s.updateTrieLedger n l) s
    s'.acquiring = s.acquiring ∧
    ∀ m, s'.lastLedger.find? m = if m ∈ ns then some l else s.lastLedger.find? m := by
  induction ns generalizing s
  case nil => exact ⟨rfl, by simp⟩
  case cons n ns ih =>
    obtain ⟨h₁, h₂⟩ := ih (s.updateTrieLedger n l)
    refine ⟨h₁, fun m => ?_⟩
    rw [foldl_cons, h₂ m, updateTrieLedger_lastLedger]
    by_cases hm : m = n
    case pos => simp [hm]
    case neg => simp [hm]

theorem Consistent.foldl_updateTrieLedger (h : Consistent strict nodes pending s)
    (hb : nodes.card < 2 ^ 32) {ns : List N}
    (hns : ∀ n ∈ ns, ∃ v, s.current.find? n = some v ∧ (strict → v.trusted = true) ∧
      Ledger.id l = v.ledgerID) :
    Consistent strict nodes pending (ns.foldl (fun s n => s.updateTrieLedger n l) s) := by
  induction ns generalizing s
  case nil => exact h
  case cons n ns ih =>
    have ⟨v, hc, ht, hl⟩ := hns n (by simp)
    exact ih (h.updateTrieLedger hb hc ht hl) fun m hm => hns m (by simp [hm])

variable [Adaptor A L]

omit [LinearOrder I] [DecidableEq N] in

theorem order_perm {α : Type} (s : Validations A L I N) (l : List α) : (s.order l).1.Perm l :=
  Adaptor.order_perm (L := L) s.adaptor l

omit [LinearOrder I] [DecidableEq N] in

theorem order_snd {α : Type} (s : Validations A L I N) (l : List α) :
    ∃ a, (s.order l).2 = { s with adaptor := a } :=
  ⟨_, rfl⟩

omit [LinearOrder I] [DecidableEq N] in

theorem acquire_some (h : s.acquire i = (some l, s₁)) :
    Ledger.id l = i ∧ ∃ a, s₁ = { s with adaptor := a } :=
  have ⟨hl, hs⟩ := Prod.mk.inj h
  ⟨Adaptor.acquire_id hl, _, hs.symm⟩

omit [LinearOrder I] [DecidableEq N] in

theorem acquire_none (h : s.acquire i = (none, s₁)) : ∃ a, s₁ = { s with adaptor := a } :=
  ⟨_, (Prod.mk.inj h).right.symm⟩

-- The last ledger of a node changes only to the ledger of its current validation.
def Follows (s s' : Validations A L I N) : Prop :=
  ∀ {n l}, s'.lastLedger.find? n = some l →
    s.lastLedger.find? n = some l ∨ ∃ v, s.current.find? n = some v ∧ Ledger.id l = v.ledgerID

omit [LinearOrder I] [Adaptor A L] in

theorem Follows.trans (h₁ : Follows s s') (hk : Keeps s s') (h₂ : Follows s' s'') :
    Follows s s'' := by
  intro n l hl
  match h₂ hl with
  | .inl hl => exact h₁ hl
  | .inr hv => exact .inr (hk.current ▸ hv)

theorem acquired_keeps (e : (Nat × I) × List N) (l : L) : Keeps s (s.acquired e l) := by
  have hf : Keeps _ _ := Keeps.foldl (f := fun s n => s.updateTrieLedger n l)
    (fun _ _ => ⟨rfl, rfl⟩) (s.order e.2).1 (s.order e.2).2
  exact ⟨hf.current, hf.parms⟩

theorem checkEntry_keeps (e : (Nat × I) × List N) : Keeps s (s.checkEntry e) := by
  unfold checkEntry
  split
  case h_1 he =>
    obtain ⟨a, rfl⟩ := acquire_none he
    exact ⟨rfl, rfl⟩
  case h_2 l _ he =>
    obtain ⟨_, a, rfl⟩ := acquire_some he
    have hk := acquired_keeps (s := { s with adaptor := a }) e l
    exact ⟨hk.current, hk.parms⟩

theorem checkAcquired_keeps : Keeps s s.checkAcquired := by
  have hf := Keeps.foldl (f := checkEntry) (fun _ e => checkEntry_keeps e)
    (s.order s.acquiring.toList).1 (s.order s.acquiring.toList).2
  exact ⟨hf.current, hf.parms⟩

theorem updateTrie_keeps (prior : Option (Nat × I)) : Keeps s (s.updateTrie n v prior) := by
  have hk : ∀ {s : Validations A L I N}, Keeps s (s.updateTrie n v none) := by
    intro s
    have hk : Keeps s s.checkAcquired := checkAcquired_keeps
    unfold updateTrie
    dsimp only
    split
    case h_1 => exact ⟨hk.current, hk.parms⟩
    split
    case h_1 he =>
      obtain ⟨_, a, rfl⟩ := acquire_some he
      exact ⟨hk.current, hk.parms⟩
    case h_2 he =>
      obtain ⟨a, rfl⟩ := acquire_none he
      exact ⟨hk.current, hk.parms⟩
  match prior with
  | none => exact hk
  | some p => exact ⟨hk.current, hk.parms⟩

section

variable (h : Consistent strict nodes pending s) (hb : nodes.card < 2 ^ 32)

include h hb

theorem Consistent.acquired (hp : s.acquiring.find? p = some ns) (hl : Ledger.id l = p.2) :
    Consistent strict nodes pending (s.acquired (p, ns) l) ∧ Follows s (s.acquired (p, ns) l) ∧
    ∀ q, q ≠ p → (s.acquired (p, ns) l).acquiring.find? q = s.acquiring.find? q := by
  have hk := acquired_keeps (s := s) (p, ns) l
  unfold Validations.acquired at hk ⊢
  have hperm := order_perm s ns
  obtain ⟨a, ha⟩ := order_snd s ns
  generalize s.order ns = r at hk hperm ha ⊢
  obtain ⟨ns', s₁⟩ := r
  obtain rfl : s₁ = { s with adaptor := a } := ha
  -- the nodes that wait for the ledger have it in their current validation
  have hw : ∀ n ∈ ns', ∃ v, s.current.find? n = some v ∧ (strict → v.trusted = true) ∧
      Ledger.id l = v.ledgerID := by
    intro n hn
    obtain ⟨v, hv, hvp, ht⟩ := h.acq_cur ⟨ns, hp, hperm.subset hn⟩
    exact ⟨v, hv, ht, by rw [hl, ← hvp]; rfl⟩
  have hc := Consistent.foldl_updateTrieLedger (s := { s with adaptor := a }) h hb hw
  obtain ⟨hacq, hlast⟩ := Validations.foldl_updateTrieLedger ns' { s with adaptor := a } l
  refine ⟨?_, ?_, ?_⟩
  · apply hc.drop
    intro n v hwn hv
    rw [hacq] at hwn
    obtain ⟨ms, hms, hn⟩ := hwn
    obtain rfl : ns = ms := by simpa [hp] using hms
    have hn' := hperm.mem_iff.mpr hn
    refine ⟨l, by rw [hlast, if_pos hn'], ?_⟩
    obtain ⟨v', hv', _, hid⟩ := hw n hn'
    have hv : s.current.find? n = some v := hk.current ▸ hv
    obtain rfl : v' = v := by simpa [hv'] using hv
    exact hid
  · intro n k hkn
    rw [hlast] at hkn
    split at hkn
    case isTrue hn =>
      obtain ⟨v, hv, _, hid⟩ := hw n hn
      exact .inr ⟨v, hv, Option.some.inj hkn ▸ hid⟩
    case isFalse => exact .inl hkn
  · intro q hq
    simp [find?_erase, hq, hacq]

-- What the loop of `checkAcquired` does for one ledger.
theorem Consistent.checkEntry (hp : s.acquiring.find? p = some ns) :
    Consistent strict nodes pending (s.checkEntry (p, ns)) ∧ Follows s (s.checkEntry (p, ns)) ∧
    ∀ q, q ≠ p → (s.checkEntry (p, ns)).acquiring.find? q = s.acquiring.find? q := by
  unfold Validations.checkEntry
  split
  case h_1 he =>
    obtain ⟨a, rfl⟩ := acquire_none he
    exact ⟨h, .inl, fun _ _ => rfl⟩
  case h_2 he =>
    obtain ⟨hl, a, rfl⟩ := acquire_some he
    exact Consistent.acquired (s := { s with adaptor := a }) h hb hp hl

theorem Consistent.foldl_checkEntry {es : List ((Nat × I) × List N)}
    (hn : (es.map Prod.fst).Nodup) (hes : ∀ e ∈ es, s.acquiring.find? e.1 = some e.2) :
    Consistent strict nodes pending (es.foldl Validations.checkEntry s) ∧
    Follows s (es.foldl Validations.checkEntry s) := by
  induction es generalizing s
  case nil => exact ⟨h, .inl⟩
  case cons e es ih =>
    have ⟨hn₁, hn₂⟩ := nodup_cons.mp hn
    have ⟨hc, hf, ha⟩ := h.checkEntry hb (hes e (by simp))
    have ⟨hc', hf'⟩ := ih hc hn₂ fun d hd => by
      rw [ha, hes d (by simp [hd])]
      exact fun he => hn₁ (he ▸ mem_map_of_mem hd)
    exact ⟨hc', hf.trans (checkEntry_keeps e) hf'⟩

theorem Consistent.checkAcquired :
    Consistent strict nodes pending s.checkAcquired ∧ Follows s s.checkAcquired := by
  have hp := order_perm s s.acquiring.toList
  have hn : (s.acquiring.toList.map Prod.fst).Nodup := by
    rw [keys_toList]
    exact s.acquiring.keys_nodup
  exact Consistent.foldl_checkEntry (s := (s.order s.acquiring.toList).2) h hb
    ((hp.map Prod.fst).nodup_iff.mpr hn) fun e he => mem_toList.mp (hp.subset he)

end

theorem Consistent.updateTrie_none (h : Consistent strict nodes (some n) s)
    (hb : nodes.card < 2 ^ 32) (hv : s.current.find? n = some v) (ht : v.trusted = true) :
    Consistent strict nodes none (s.updateTrie n v none) ∧ Follows s (s.updateTrie n v none) := by
  have ⟨hc, hf⟩ := h.checkAcquired hb
  have hk : Keeps s s.checkAcquired := checkAcquired_keeps
  have hv' : s.checkAcquired.current.find? n = some v := hk.current ▸ hv
  unfold updateTrie
  dsimp only
  generalize s.checkAcquired = s₁ at hc hf hv'
  split
  case h_1 => exact ⟨hc.insert_waiting hv' ht, hf⟩
  split
  case h_1 l s₂ he =>
    obtain ⟨hl, a, rfl⟩ := acquire_some he
    have hu := Consistent.updateTrieLedger (s := { s₁ with adaptor := a }) hc hb hv'
      (fun _ => ht) hl
    refine ⟨hu.settle fun {w} hw _ => .inr ⟨l, ?_, ?_⟩, ?_⟩
    · rw [updateTrieLedger_lastLedger, if_pos rfl]
    · have hw : s₁.current.find? n = some w := hw
      obtain rfl : v = w := by simpa [hv'] using hw
      exact hl
    · intro m k hm
      rw [updateTrieLedger_lastLedger] at hm
      split at hm
      case isTrue he =>
        cases hm
        exact .inr ⟨v, he ▸ hv, hl⟩
      case isFalse => exact hf hm
  case h_2 s₂ he =>
    obtain ⟨a, rfl⟩ := acquire_none he
    exact ⟨hc.insert_waiting hv' ht, hf⟩

end Validations
