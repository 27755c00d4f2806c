import Bixd.Consensus.LedgerTrie.Theorems.Lookup

open List

namespace LedgerTrie

open Ledger LedgerTrie.Span

variable {L I : Type} [Ledger L I]

theorem add32_eq (h : a + b < 2 ^ 32) : add32 a b = a + b :=
  Nat.mod_eq_of_lt h

theorem sub32_eq (h : b ≤ a) (ha : a < 2 ^ 32) : sub32 a b = a - b := by
  simp only [sub32]
  omega

namespace Span

variable {s : Span L}

omit [Ledger L I] in

theorem from_eq (h : s.start ≤ spot) :
    s.from spot = if spot < s.end then some ⟨spot, s.end, s.ledger⟩ else none := by
  by_cases hs : spot < s.end
  case pos =>
    have h₁ : s.clamp spot = spot := by simp only [clamp]; omega
    have h₂ : s.clamp s.end = s.end := by simp only [clamp]; omega
    simp [«from», sub, h₁, h₂, hs]
  case neg =>
    have h₁ : ¬s.clamp spot < s.clamp s.end := by simp only [clamp]; omega
    simp [«from», sub, h₁, hs]

omit [Ledger L I] in

theorem before_eq (h : s.start < spot) (hs : spot ≤ s.end) :
    s.before spot = some ⟨s.start, spot, s.ledger⟩ := by
  have h₁ : s.clamp spot = spot := by simp only [clamp]; omega
  have h₂ : s.clamp s.start = s.start := by simp only [clamp]; omega
  simp [before, sub, h₁, h₂, h]

end Span

namespace Node

variable {anc : List I} {par : Option Nat} {c m n : Node L} {cs ds : List (Node L)} {l : L}
variable {p : Path} {q count : Nat}

def reparent (par : Option Nat) (n : Node L) : Node L :=
  { n with parent := par }

omit [Ledger L I] in

@[simp]
theorem branchSupport_reparent (n : Node L) : (n.reparent par).branchSupport = n.branchSupport :=
  rfl

@[simp]
theorem startID_reparent (n : Node L) : (n.reparent par).startID = n.startID :=
  rfl

@[simp]
theorem words_reparent (n : Node L) : (n.reparent par).words = n.words := by
  rw [words_eq, words_eq]
  rfl

@[simp]
theorem wordsBelow_reparent (cs : List (Node L)) :
    wordsBelow (cs.map (reparent par)) = wordsBelow cs := by
  induction cs
  case nil => simp
  case cons ih => simp [ih]

theorem Valid.reparent (h : Valid anc par n) (par' : Option Nat) :
    Valid anc par' (n.reparent par') :=
  match h with
  | .intro hp hb hn hv hk => .intro ⟨hp.start_eq, hp.start_lt, hp.end_le, hp.anc_eq, rfl⟩ hb hn hv hk

theorem Valid.replace (h : Valid anc par n) (hcs : n.children = cs ++ c :: ds)
    (hv : Valid n.word (some n.addr) c') (hs : c'.startID = c.startID) (hk : c'.Compact)
    (hb : b + c.branchSupport = n.branchSupport + c'.branchSupport) :
    Valid anc par { n with branchSupport := b, children := cs ++ c' :: ds } := by
  have hp := h.placed
  have hbr := h.branch_eq
  have hn := h.nodup
  have hmem : ∀ d ∈ cs ++ c' :: ds, d = c' ∨ d ∈ n.children := by
    intro d hd
    simp only [hcs, mem_append, mem_cons] at hd ⊢
    tauto
  refine .intro ⟨hp.start_eq, hp.start_lt, hp.end_le, hp.anc_eq, hp.parent_eq⟩ ?_ ?_ ?_ ?_
  · simp only [hcs, map_append, map_cons, sum_append, sum_cons] at hbr ⊢
    omega
  · simpa [hcs, hs] using hn
  · intro d hd
    match hmem d hd with
    | .inl he => exact he ▸ hv
    | .inr hd => exact h.child hd
  · intro d hd
    match hmem d hd with
    | .inl he => exact he ▸ hk
    | .inr hd => exact h.compact hd

theorem words_replace {n' : Node L} (hs : n'.span = n.span) (ht : n'.tipSupport = n.tipSupport)
    (hcs : n.children = cs ++ c :: ds) (hcs' : n'.children = cs ++ c' :: ds)
    (hw : c'.words = c.words + ws) : n'.words = n.words + ws := by
  rw [words_eq, words_eq n]
  simp only [hcs, hcs', hs, ht, wordsBelow_append, wordsBelow_cons, hw, word]
  abel

-- What `insert` does to the node it starts from, for `count` units of support for `l`.
structure Inserted (anc : List I) (par : Option Nat) (l : L) (count : Nat) (n n' : Node L) :
    Prop where
  valid   : Valid anc par n'
  words   : n'.words = n.words + Multiset.replicate count (Ledger.word l)
  startID : n'.startID = n.startID
  addr    : n'.addr = n.addr
  end_le  : n'.span.end ≤ n.span.end
  compact : n.Compact → n'.Compact

theorem split_of_eq (a : Nat) (h : n.span.start ≤ q) (hq : n.span.end ≤ q) : n.split a q = n := by
  rw [split, from_eq h, if_neg (by omega)]

theorem split_of_lt (a : Nat) (h : n.span.start < q) (hq : q < n.span.end) :
    n.split a q =
      { n with
        span := ⟨n.span.start, q, n.span.ledger⟩
        tipSupport := 0
        children := [{
          addr := a
          span := ⟨q, n.span.end, n.span.ledger⟩
          tipSupport := n.tipSupport
          branchSupport := n.branchSupport
          children := n.children.map (reparent (some a))
          parent := some n.addr }] } := by
  rw [split, from_eq (by omega), if_pos hq, before_eq h (by omega)]
  rfl

theorem words_split (a : Nat) (h : n.span.start < q) (hq : q < n.span.end) :
    (n.split a q).words = n.words := by
  rw [split_of_lt a h hq, words_eq, words_eq n]
  simp [words_eq, word]

theorem Valid.split (hv : Valid anc par n) (hk : n.Compact) (a : Nat) (h : n.span.start < q)
    (hq : q < n.span.end) : Valid anc par (n.split a q) := by
  have hp := hv.placed
  have hend := hp.end_le
  rw [split_of_lt a h hq]
  refine .intro ⟨hp.start_eq, h, by dsimp only; omega, hp.anc_eq, hp.parent_eq⟩ ?_ ?_ ?_ ?_
  · simp
  · simp
  · simp only [mem_singleton, forall_eq]
    refine .intro ⟨?_, hq, hp.end_le, ?_, rfl⟩ ?_ ?_ ?_ ?_
    · simp [word]
    · simp [word]
    · simpa [Function.comp_def] using hv.branch_eq
    · simpa [Function.comp_def] using hv.nodup
    · intro d hd
      obtain ⟨c, hc, he⟩ := mem_map.mp hd
      exact he ▸ (hv.child hc).reparent _
    · intro d hd
      obtain ⟨c, hc, he⟩ := mem_map.mp hd
      have hk : c.Compact := hv.compact hc
      exact he ▸ hk
  · simp only [mem_singleton, forall_eq]
    intro h0
    simpa using hk h0

theorem addTip_of_lt (a : Nat) (h0 : count < 2 ^ 32) (hq : q < seq l + 1) :
    m.addTip a q l count =
      m.addChild ⟨a, ⟨q, seq l + 1, l⟩, count, count, [], some m.addr⟩ := by
  have hc : add32 0 count = count := by rw [add32_eq (by omega), Nat.zero_add]
  rw [addTip, from_eq (by simp [ofLedger])]
  simp [ofLedger, hq, ofSpan, hc]

theorem addTip_of_le (a : Nat) (hq : seq l + 1 ≤ q) :
    m.addTip a q l count = { m with tipSupport := add32 m.tipSupport count } := by
  rw [addTip, from_eq (by simp [ofLedger]), if_neg (by simpa [ofLedger] using hq)]

-- The new node below `loc` that holds the suffix of the ledger.
theorem Placed.leaf (a count : Nat) (hq : q ≤ seq l) (h : hist l q = m.word) :
    Placed m.word (some m.addr) ⟨a, ⟨q, seq l + 1, l⟩, count, count, [], some m.addr⟩ := by
  have hl : m.word.length = q := by simp [← h]
  exact ⟨hl.symm, by dsimp only; omega, le_refl _, hl ▸ h, rfl⟩

theorem Valid.tipSupport_le (h : Valid anc par n) : n.tipSupport ≤ n.branchSupport := by
  have := h.branch_eq
  omega

theorem compact_addTip (h0 : 0 < count) (hb : m.tipSupport + count < 2 ^ 32) (a : Nat)
    (hk : m.tipSupport = 0 → 1 ≤ m.children.length) :
    (incBranch count (m.addTip a q l count)).Compact := by
  intro h
  by_cases hlt : q < seq l + 1
  case pos =>
    rw [addTip_of_lt a (by omega) hlt] at h ⊢
    have := hk h
    simp [incBranch, addChild]
    omega
  case neg =>
    rw [addTip_of_le a (by omega)] at h
    simp only [incBranch, add32_eq hb] at h
    omega

theorem Valid.addTip (h : Valid anc par m) (hq : m.span.end ≤ seq l + 1)
    (hl : hist l m.span.end = m.word) (hc : ∀ c ∈ m.children, ¬c.stem <+: Ledger.word l)
    (h0 : 0 < count) (hb : m.branchSupport + count < 2 ^ 32) (a : Nat) :
    Inserted anc par l count m (incBranch count (m.addTip a m.span.end l count)) := by
  have hp := h.placed
  have hbr := h.branch_eq
  have hk := compact_addTip (m := m) (q := m.span.end) (l := l) h0 (by omega) a
  by_cases hlt : m.span.end < seq l + 1
  case pos =>
    rw [addTip_of_lt a (by omega) hlt] at hk ⊢
    have hpl := Placed.leaf a count (by omega) hl
    generalize hd : mk a ⟨m.span.end, seq l + 1, l⟩ count count [] (some m.addr) = d at *
    have hw : d.words = Multiset.replicate count (Ledger.word l) := by
      rw [words_eq, ← hd]
      simp [word, Ledger.word]
    have hds : d.stem <+: Ledger.word l := by
      rw [← hd]
      exact hist_prefix_word l (by dsimp only; omega)
    have hdv : Valid m.word (some m.addr) d := by
      refine .intro hpl ?_ ?_ ?_ ?_ <;> simp [← hd]
    refine ⟨?valid, ?words, rfl, rfl, le_refl _, fun hk' => hk fun h => by have := hk' h; omega⟩
    case valid =>
      refine .intro ⟨hp.start_eq, hp.start_lt, hp.end_le, hp.anc_eq, hp.parent_eq⟩ ?_ ?_ ?_ ?_
      · simp only [incBranch, addChild, map_append, sum_append]
        rw [add32_eq hb, hbr, ← hd]
        simp
        omega
      · simp only [incBranch, addChild, map_append, map_cons, map_nil]
        refine h.nodup.append (by simp) ?_
        simp only [disjoint_singleton, mem_map, not_exists, not_and]
        intro c hm he
        apply hc c hm
        rw [(h.child hm).placed.stem_eq, he, ← hpl.stem_eq]
        exact hds
      · intro c hm
        rcases mem_append.mp hm with hm | hm
        · exact h.child hm
        · exact mem_singleton.mp hm ▸ hdv
      · intro c hm
        rcases mem_append.mp hm with hm | hm
        · exact h.compact hm
        · rw [mem_singleton.mp hm, ← hd]
          intro h
          exact absurd h (by dsimp only; omega)
    case words =>
      rw [words_eq, words_eq m]
      simp only [incBranch, addChild, wordsBelow_append, wordsBelow_cons, wordsBelow_nil, hw, word]
      abel
  case neg =>
    rw [addTip_of_le a (by omega)] at hk ⊢
    have hte : add32 m.tipSupport count = m.tipSupport + count := add32_eq (by omega)
    refine ⟨?valid, ?words, rfl, rfl, le_refl _, fun hk' => hk fun h => by have := hk' h; omega⟩
    case valid =>
      refine .intro ⟨hp.start_eq, hp.start_lt, hp.end_le, hp.anc_eq, hp.parent_eq⟩ ?_ h.nodup
        (fun c hc => h.child hc) (fun c hc => h.compact hc)
      simp only [incBranch]
      rw [add32_eq hb, hte, hbr]
      omega
    case words =>
      have hwl : Ledger.word l = m.word := by
        rw [Ledger.word, ← hl]
        congr 1
        omega
      rw [words_eq, words_eq m, hwl]
      simp only [incBranch, hte, word, Multiset.replicate_add]
      abel

theorem modify_append_cons {α : Type} (f : α → α) (as : List α) (a : α) (bs : List α) :
    (as ++ a :: bs).modify as.length f = as ++ f a :: bs := by
  induction as
  case nil => simp
  case cons ih => simp [ih]

omit [Ledger L I] in

theorem modifyAt_under (hcs : n.children = cs ++ c :: ds) (f : Node L → Node L) (p : Path) :
    n.modifyAt f (cs.length :: p) = { n with children := cs ++ c.modifyAt f p :: ds } := by
  simp [modifyAt, hcs, modify_append_cons]

omit [Ledger L I] in

theorem modifyUp_under (hcs : n.children = cs ++ c :: ds) (f : Node L → Node L) (p : Path) :
    n.modifyUp f (cs.length :: p) = f { n with children := cs ++ c.modifyUp f p :: ds } := by
  simp [modifyUp, hcs, modify_append_cons]

theorem insertAt_under (hcs : n.children = cs ++ c :: ds) (a : Nat) (p : Path) :
    n.insertAt a q l count (cs.length :: p) =
      incBranch count { n with children := cs ++ c.insertAt a q l count p :: ds } := by
  simp only [insertAt]
  rw [modifyAt_under hcs, modifyUp_under rfl]

theorem Found.insertAt (h : Found l n p q) (hv : Valid anc par n)
    (hk : n.Compact ∨ n.span.end = n.span.start + 1) (h0 : 0 < count)
    (hb : n.branchSupport + count < 2 ^ 32) (a : Nat) :
    Inserted anc par l count n (n.insertAt a q l count p) := by
  induction h generalizing anc par
  case here n hs hc =>
    have hp := hv.placed
    have hst := hp.start_lt_diff_iff l |>.mpr hs
    have ⟨hle, hle', he, hne⟩ := hp.diff_spec hst
    show Inserted anc par l count n (incBranch count ((n.split a _).addTip (a + 1) _ l count))
    by_cases hd : n.span.diff l < n.span.end
    case neg =>
      have hd : n.span.diff l = n.span.end := by omega
      rw [split_of_eq a (by omega) (by omega), hd]
      rw [hd] at he
      exact hv.addTip (by omega) he.symm (hc hd) h0 hb (a + 1)
    case pos =>
      have hk : n.Compact := hk.resolve_right (by omega)
      have hsv := hv.split hk a hst hd
      have hsw := words_split a hst hd
      rw [split_of_lt a hst hd] at *
      generalize hm : mk n.addr ⟨n.span.start, n.span.diff l, n.span.ledger⟩ .. = m at *
      have hend : m.span.end = n.span.diff l := by rw [← hm]
      have hb' : m.branchSupport = n.branchSupport := by rw [← hm]
      have hw : hist l m.span.end = m.word := by rw [word, ← hm, he]
      have hns : ∀ c ∈ m.children, ¬c.stem <+: Ledger.word l := by
        simp only [← hm, mem_singleton, forall_eq, stem]
        intro hp
        have hlen := hp.length_le
        simp only [length_hist, length_word] at hlen
        rw [Ledger.word, hist_prefix_hist_iff (by omega)] at hp
        exact hne hd (by omega) <| hist_eq_iff.mp hp _ (by omega)
      have hi := hsv.addTip (by omega) hw hns h0 (by omega) (a + 1)
      have hkm := compact_addTip (m := m) (q := m.span.end) (l := l) h0
        (by have := hsv.tipSupport_le; omega) (a + 1) (by simp [← hm])
      rw [hend] at hi hkm
      refine ⟨hi.valid, by rw [hi.words, hsw], hi.startID.trans ?_, hi.addr.trans ?_, ?_, fun _ => hkm⟩
      · rw [← hm]
        rfl
      · rw [← hm]
      · exact hi.end_le.trans (by omega)
  case under n c cs ds p q hcs hs hf ih =>
    have hmem : c ∈ n.children := by simp [hcs]
    have hble := hv.branchSupport_child_le hmem
    have hi := ih (hv.child hmem) (.inl (hv.compact hmem)) (by omega)
    have hbr : (c.insertAt a q l count p).branchSupport = c.branchSupport + count := by
      rw [← hi.valid.card_words, hi.words, ← (hv.child hmem).card_words]
      simp
    rw [insertAt_under hcs]
    refine ⟨?_, ?_, rfl, rfl, le_refl _, ?_⟩
    · apply hv.replace hcs hi.valid hi.startID (hi.compact (hv.compact hmem))
      rw [hbr, add32_eq hb]
      omega
    · apply words_replace (n := n) _ _ hcs _ hi.words <;> rfl
    · intro hk h0
      simpa [incBranch, hcs] using hk h0

end Node
end LedgerTrie
