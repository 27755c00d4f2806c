import Bixd.Consensus.LedgerTrie.Theorems.Runs
import Bixd.Consensus.LedgerTrie.Walk

open Multiset Nat

namespace LedgerTrie

open Ledger Walk

variable {L I : Type} [Ledger L I]

-- The iterator over the support by sequence number stands before `b`: `uncommitted` is the support
-- of the sequences before `b`, and the entries to come are those from `b` on.
structure Iter (M : Multiset L) (b uncommitted : Nat) (it : List (Nat × Nat)) : Prop where
  uncommitted_eq : uncommitted = M.countP (seq · < b)
  sorted : it.Pairwise (·.1 < ·.1)
  mem_iff : ∀ s c, (s, c) ∈ it ↔ b ≤ s ∧ c = M.countP (seq · = s) ∧ c ≠ 0

namespace Iter

variable {M : Multiset L}

theorem countP_lt_succ (M : Multiset L) (s : Nat) :
    M.countP (seq · < s + 1) = M.countP (seq · < s) + M.countP (seq · = s) := by
  induction M using Multiset.induction_on
  case empty => simp
  case cons l M ih =>
    simp only [countP_cons, ih]
    by_cases h₁ : seq l < s
    case pos => simp [h₁, show seq l < s + 1 by omega, show seq l ≠ s by omega]; omega
    by_cases h₂ : seq l = s
    case pos => simp [h₂, add_assoc]
    case neg => simp [h₁, h₂, show ¬seq l < s + 1 by omega]

theorem skip (h : Iter M b u it) (hb : b ≤ b') (hit : ∀ x ∈ it, b' ≤ x.1) : Iter M b' u it := by
  induction hb
  case refl => exact h
  case step b' hb ih =>
    have hi := ih fun x hx => by have := hit x hx; omega
    have h0 : M.countP (seq · = b') = 0 := by
      by_contra h0
      have := hit _ <| hi.mem_iff b' _ |>.mpr ⟨le_refl _, rfl, h0⟩
      omega
    refine ⟨?_, hi.sorted, fun s c => ?_⟩
    · rw [countP_lt_succ, h0, ← hi.uncommitted_eq, add_zero]
    · rw [hi.mem_iff]
      constructor
      case mp =>
        intro ⟨hs, hc, hne⟩
        refine ⟨?_, hc, hne⟩
        by_contra hlt
        obtain rfl : b' = s := by omega
        exact hne (hc.trans h0)
      case mpr => exact fun ⟨hs, hc⟩ => ⟨by omega, hc⟩

theorem le_of_mem (h : Iter M b u it) (hx : x ∈ it) : b ≤ x.1 :=
  h.mem_iff x.1 x.2 |>.mp hx |>.left

theorem next (h : Iter M b u ((s, c) :: it)) : Iter M (s + 1) (u + c) it := by
  have ⟨hs, hc, _⟩ := h.mem_iff s c |>.mp (by simp)
  have hlt := List.pairwise_cons.mp h.sorted
  have hi := h.skip hs fun x hx => by
    match List.mem_cons.mp hx with
    | .inl hx => rw [hx]
    | .inr hx => exact le_of_lt (hlt.left x hx)
  refine ⟨?_, hlt.right, fun s' c' => ?_⟩
  · rw [countP_lt_succ, ← hi.uncommitted_eq, hc]
  · constructor
    case mp =>
      intro hm
      have hx := hi.mem_iff s' c' |>.mp (by simp [hm])
      exact ⟨hlt.left _ hm, hx.right⟩
    case mpr =>
      intro ⟨hs', hx⟩
      have hm := hi.mem_iff s' c' |>.mpr ⟨by omega, hx⟩
      match List.mem_cons.mp hm with
      | .inl he => cases he; omega
      | .inr hm => exact hm

theorem add32_eq (h : Iter M b u ((s, c) :: it)) (hM : M.card < 2 ^ 32) : add32 u c = u + c := by
  apply LedgerTrie.add32_eq
  rw [h.next.uncommitted_eq]
  exact lt_of_le_of_lt (countP_le_card ..) hM

theorem addUncommitted (h : Iter M b u it) (hM : M.card < 2 ^ 32) (bound : Nat) :
    Iter M (max b bound) (Node.addUncommitted bound u it).1 (Node.addUncommitted bound u it).2 := by
  induction it generalizing b u
  case nil => exact h.skip (by omega) (by simp)
  case cons x it ih =>
    have ⟨s, c⟩ := x
    have hle := h.le_of_mem (x := (s, c)) (by simp)
    rw [Node.addUncommitted]
    split
    case isTrue hs =>
      rw [h.add32_eq hM]
      have := ih h.next
      rwa [show max (s + 1) bound = max b bound by omega] at this
    case isFalse hs =>
      apply h.skip (by omega)
      intro x hx
      match List.mem_cons.mp hx with
      | .inl hx =>
        rw [hx]
        omega
      | .inr hx =>
        have := (List.pairwise_cons.mp h.sorted).left x hx
        omega

end Iter

theorem Represents.iter {M : Multiset L} (h : Represents t M) : Iter M 0 0 t.seqSupport.toList where
  uncommitted_eq := by simp
  sorted := by
    have := t.seqSupport.ordered_keys_toList
    simpa [compare_lt_iff_lt] using this
  mem_iff s c := by
    rw [Std.ExtTreeMap.mem_toList_iff_getElem?_eq_some, h.seqs s]
    split
    case isTrue h0 => simp [h0]
    case isFalse h0 =>
      simp only [Option.some.injEq, Nat.zero_le, true_and]
      constructor
      case mp => exact fun he => ⟨he.symm, he ▸ h0⟩
      case mpr => exact fun he => he.left.symm

variable [LinearOrder I]

namespace Node

omit [LinearOrder I] in

theorem Valid.branchSupport_pos {n : Node L}
    (h : Valid anc par n) (hk : n.Compact) : 0 < n.branchSupport := by
  induction h
  case intro n _ hb _ _ hkc ih =>
    by_cases h0 : n.tipSupport = 0
    case neg => omega
    match hcs : n.children with
    | [] => simpa [hcs] using hk h0
    | c :: _ =>
      have hc : c ∈ n.children := by simp [hcs]
      have := List.le_sum_of_mem (List.mem_map_of_mem (f := branchSupport) hc)
      have := ih c hc (hkc c hc)
      omega

-- The node stands in a trie for `M`: it holds the entries of `M` that extend its stem.
structure Standing (M : Multiset L) (n : Node L) : Prop where
  valid : ∃ anc par, Valid anc par n
  pos   : 0 < n.branchSupport
  words : (M.map Ledger.word).filter (n.stem <+: ·) = n.words

namespace Standing

variable {M : Multiset L}

section

variable {n : Node L} (h : Standing M n)

include h

theorem start_lt : n.span.start < n.span.end :=
  have ⟨_, _, hv⟩ := h.valid
  hv.placed.start_lt

theorem mem_words (hx : x ∈ M) (hs : n.stem <+: Ledger.word x) : Ledger.word x ∈ n.words :=
  h.words ▸ mem_filter.mpr ⟨mem_map_of_mem _ hx, hs⟩

theorem count_eq : M.countP (n.stem <+: Ledger.word ·) = n.branchSupport := by
  have ⟨_, _, hv⟩ := h.valid
  rw [← hv.card_words, ← h.words, ← countP_eq_card_filter, countP_map, countP_eq_card_filter]

theorem exists_mem : ∃ x ∈ M, Ledger.word x ∈ n.words := by
  have := h.pos
  rw [← h.count_eq, countP_pos] at this
  have ⟨x, hx, hst⟩ := this
  exact ⟨x, hx, h.mem_words hx hst⟩

theorem mem_words_of_ancestor (hx : x ∈ M) (hs : n.span.start ≤ s) (he : s < n.span.end)
    (hsx : s ≤ seq x) (ha : ancestor x s = ancestor n.span.ledger s) : Ledger.word x ∈ n.words := by
  have ⟨_, _, hv⟩ := h.valid
  have hle := hv.placed.end_le
  have hh := hist_eq_of_ancestor hsx (by omega) ha
  apply h.mem_words hx
  rw [stem, Ledger.word, hist_prefix_hist_iff (by omega)]
  exact hist_eq_of_le hh (by omega) |>.symm

theorem support_eq (hs : n.span.start ≤ s) (he : s < n.span.end) :
    support M s (ancestor n.span.ledger s) = n.branchSupport := by
  have ⟨_, _, hv⟩ := h.valid
  rw [← h.count_eq, support]
  apply countP_congr rfl
  intro x hx
  apply propext
  constructor
  case mp =>
    intro ⟨hsx, ha⟩
    exact hv.stem_isPrefix <| h.mem_words_of_ancestor hx hs he hsx ha
  intro hst
  have ⟨hh, hle⟩ := hv.hist_of_mem_words (h.mem_words hx hst)
  exact ⟨by omega, hist_eq_iff.mp hh s he⟩

theorem child (hc : c ∈ n.children) : Standing M c := by
  have ⟨_, _, hv⟩ := h.valid
  have hcv := hv.child hc
  refine ⟨⟨_, _, hcv⟩, hcv.branchSupport_pos (hv.compact hc), ?_⟩
  rw [← hv.filter_stem hc, ← h.words, filter_filter]
  apply filter_congr
  intro y _
  constructor
  case mp =>
    intro hy
    have hw : n.word <+: c.stem := hcv.placed.stem_eq ▸ List.prefix_append ..
    exact ⟨hy, hv.placed.stem_prefix_word.trans <| hw.trans hy⟩
  case mpr => exact And.left

theorem supported_iff (hs : n.span.start ≤ s) (he : s + 1 < n.span.end) :
    Walk.Supported M s (ancestor n.span.ledger s) i ↔ i = ancestor n.span.ledger (s + 1) := by
  have ⟨_, _, hv⟩ := h.valid
  constructor
  case mp =>
    intro ⟨x, hx, hsx, ha, hi⟩
    have hw := h.mem_words_of_ancestor hx hs (by omega) (by omega) ha
    rw [← hi, hist_eq_iff.mp (hv.hist_of_mem_words hw).left _ he]
  case mpr =>
    intro hi
    have ⟨x, hx, hw⟩ := h.exists_mem
    have ⟨hh, hle⟩ := hv.hist_of_mem_words hw
    rw [hist_eq_iff] at hh
    exact ⟨x, hx, by omega, hh s (by omega), hi ▸ hh _ he⟩

theorem supported_end_iff :
    Walk.Supported M (n.span.end - 1) (ancestor n.span.ledger (n.span.end - 1)) i ↔
      ∃ c ∈ n.children, c.startID = i := by
  obtain ⟨_, _, hv⟩ := h.valid
  have hlt := h.start_lt
  have hse : n.span.end - 1 + 1 = n.span.end := by omega
  -- what is supported below a child has the first ledger of the child at the end of the span
  have hid : ∀ {c : Node L} {x : L}, c ∈ n.children → Ledger.word x ∈ c.words →
      n.span.end ≤ seq x ∧ ancestor x n.span.end = c.startID := by
    intro c x hc hw
    have hp := hv.child hc |>.placed
    obtain ⟨hh, hle⟩ := hv.child hc |>.hist_of_mem_words hw
    have hs : c.span.start = n.span.end := by simpa [word] using hp.start_eq
    have hlt := hp.start_lt
    exact ⟨by omega, by rw [startID, Span.startID, hs, hist_eq_iff.mp hh _ (by omega)]⟩
  constructor
  case mp =>
    rintro ⟨x, hx, hsx, ha, hi⟩
    have hw := h.mem_words_of_ancestor hx (by omega) (by omega) (by omega) ha
    rw [words_eq, mem_add, mem_wordsBelow] at hw
    rcases hw with hw | ⟨c, hc, hw⟩
    · have hl := congrArg List.length (eq_of_mem_replicate hw)
      simp only [length_word, word, length_hist] at hl
      omega
    · exact ⟨c, hc, by rw [← hi, hse, (hid hc hw).right]⟩
  case mpr =>
    rintro ⟨c, hc, hi⟩
    obtain ⟨x, hx, hw⟩ := (h.child hc).exists_mem
    obtain ⟨hle, ha⟩ := hid hc hw
    have hw' : Ledger.word x ∈ n.words := by
      rw [words_eq, mem_add, mem_wordsBelow]
      exact .inr ⟨c, hc, hw⟩
    have hh := hv.hist_of_mem_words hw' |>.left
    exact ⟨x, hx, by omega, hist_eq_iff.mp hh _ (by omega), by rw [hse, ha, hi]⟩

theorem support_child (hc : c ∈ n.children) :
    support M n.span.end c.startID = c.branchSupport := by
  have ⟨_, _, hv⟩ := h.valid
  have hs : c.span.start = n.span.end := by simpa [word] using (hv.child hc).placed.start_eq
  rw [← (h.child hc).support_eq (le_refl _) (h.child hc).start_lt, startID, Span.startID, hs]

theorem advance_iff (hs : n.span.start ≤ s) (he : s + 1 < n.span.end) :
    Walk.Advance M largestIssued (s, ancestor n.span.ledger s) y ↔
      y = (s + 1, ancestor n.span.ledger (s + 1)) ∧
        uncommitted M largestIssued (s + 1) < n.branchSupport := by
  have hp := h.pos
  rw [advance_iff_of_unique fun _ => h.supported_iff hs he, h.support_eq (by omega) he]
  apply and_congr_right
  intro _
  omega

theorem walk_span (ha : n.span.start < a) (hab : a ≤ b) (hb : b ≤ n.span.end)
    (hu : ∀ q, a ≤ q → q < b → uncommitted M largestIssued q < n.branchSupport) :
    Relation.ReflTransGen (Walk.Advance M largestIssued)
      (a - 1, ancestor n.span.ledger (a - 1)) (b - 1, ancestor n.span.ledger (b - 1)) := by
  induction hab
  case refl => exact .refl
  case step b hab ih =>
    have hab : a ≤ b := hab
    have hb0 : b - 1 + 1 = b := by omega
    refine .tail (ih (by omega) fun q h₁ h₂ => hu q h₁ (by omega)) ?_
    rw [h.advance_iff (by omega) (by omega), hb0]
    exact ⟨rfl, hu b hab (by omega)⟩

theorem walk_until (hs : n.span.start < nextSeq) (hb : nextSeq ≤ b) (he : b ≤ n.span.end)
    (hi : Iter M (max nextSeq largestIssued) u it) (hit : ∀ x ∈ it, b ≤ x.1 + 1)
    (hu : u < n.branchSupport) :
    Relation.ReflTransGen (Walk.Advance M largestIssued)
      (nextSeq - 1, ancestor n.span.ledger (nextSeq - 1))
      (b - 1, ancestor n.span.ledger (b - 1)) := by
  refine h.walk_span hs hb he fun q hq hqb => ?_
  have hsk : Iter M (max q largestIssued) u it := hi.skip (by omega) fun x hx => by
    have := hit x hx
    have := hi.le_of_mem hx
    omega
  rw [uncommitted, ← hsk.uncommitted_eq]
  exact hu

end

-- What holds when the loop along the span has come from `nextSeq` to `r`.
structure Along (M : Multiset L) (n : Node L) (largestIssued nextSeq : Nat)
    (r : Nat × Nat × List (Nat × Nat)) : Prop where
  le     : nextSeq ≤ r.1
  le_end : r.1 ≤ n.span.end
  iter   : Iter M (max r.1 largestIssued) r.2.1 r.2.2
  walk   : Relation.ReflTransGen (Walk.Advance M largestIssued)
            (nextSeq - 1, ancestor n.span.ledger (nextSeq - 1))
            (r.1 - 1, ancestor n.span.ledger (r.1 - 1))
  stop   : r.1 < n.span.end → n.branchSupport ≤ r.2.1

section

variable {n : Node L} (h : Standing M n)

include h

theorem along_end (hs : n.span.start < nextSeq) (he : nextSeq ≤ n.span.end)
    (hi : Iter M (max nextSeq largestIssued) u it) (hu : u < n.branchSupport)
    (hit : ∀ x ∈ it, n.span.end ≤ x.1) : Along M n largestIssued nextSeq (n.span.end, u, it) where
  le := he
  le_end := le_refl _
  iter := hi.skip (by omega) fun x hx => by
    have := hit x hx
    have := hi.le_of_mem hx
    omega
  walk := h.walk_until hs he (le_refl _) hi (fun x hx => by have := hit x hx; omega) hu
  stop h := absurd h (lt_irrefl _)

theorem along_advance (hM : M.card < 2 ^ 32) (hs : n.span.start < nextSeq)
    (he : nextSeq ≤ n.span.end) (hi : Iter M (max nextSeq largestIssued) u it) :
    Along M n largestIssued nextSeq (advance n.span.end n.branchSupport nextSeq u it) := by
  have hdone : ¬(nextSeq < n.span.end ∧ u < n.branchSupport) →
      Along M n largestIssued nextSeq (nextSeq, u, it) :=
    fun hc => ⟨le_refl _, he, hi, .refl, by dsimp only; omega⟩
  induction it generalizing nextSeq u
  case nil =>
    simp only [advance, Bool.and_eq_true, decide_eq_true_eq]
    split
    case isTrue hc => exact h.along_end hs he hi hc.right (by simp)
    case isFalse hc => exact hdone hc
  case cons x it ih =>
    have ⟨s, c⟩ := x
    have hle := hi.le_of_mem (x := (s, c)) (by simp)
    have hlt := (List.pairwise_cons.mp hi.sorted).left
    simp only [advance, Bool.and_eq_true, decide_eq_true_eq]
    split
    case isFalse hc => exact hdone hc
    case isTrue hc =>
      split
      case isFalse hse =>
        refine h.along_end hs he hi hc.right fun x hx => ?_
        match List.mem_cons.mp hx with
        | .inl hx => rw [hx]; dsimp only; omega
        | .inr hx => have := hlt x hx; omega
      case isTrue hse =>
        have hn := hi.next
        rw [show s + 1 = max (s + 1) largestIssued by omega] at hn
        rw [hi.add32_eq hM]
        have ha := ih (by omega) (by omega) hn fun hc => ⟨le_refl _, hse, hn, .refl, by
          dsimp only; omega⟩
        refine ⟨le_trans (by omega) ha.le, ha.le_end, ha.iter, .trans ?_ ha.walk, ha.stop⟩
        refine h.walk_until hs (by omega) (by omega) hi ?_ hc.right
        intro x hx
        match List.mem_cons.mp hx with
        | .inl hx => rw [hx]
        | .inr hx => have := hlt x hx; omega

theorem better_of_not (hc : c ∈ n.children) (ha : a ∈ n.children) (hne : c.startID ≠ a.startID)
    (hb : c.better a = false) : Walk.Better M n.span.end c.startID a.startID := by
  rw [Walk.Better, h.support_child hc, h.support_child ha]
  simp only [better, Bool.or_eq_false_iff, decide_eq_false_iff_not, Bool.and_eq_false_iff,
    beq_eq_false_iff_ne, ne_eq, not_lt] at hb
  by_cases he : c.branchSupport = a.branchSupport
  case neg => exact .inl (by omega)
  case pos =>
    have hle := hb.right.resolve_left fun h => h he.symm
    exact .inr ⟨he, lt_of_le_of_ne hle hne⟩

theorem sort_spec (ps : PartialSort L) (hcs : ps.sort n.children = best :: second :: rest) :
    Walk.Best M (n.span.end - 1) (ancestor n.span.ledger (n.span.end - 1)) best.startID ∧
    Walk.RunnerUp M (n.span.end - 1) (ancestor n.span.ledger (n.span.end - 1))
      best.startID second.startID := by
  have ⟨_, _, hv⟩ := h.valid
  have hlt := h.start_lt
  have hse : n.span.end - 1 + 1 = n.span.end := by omega
  have hp := ps.perm n.children
  have ⟨h₁, h₂⟩ := ps.top hcs
  have hn := (hp.map startID).nodup_iff.mpr hv.nodup
  rw [hcs] at hp
  have hmem : ∀ {c}, c ∈ n.children ↔ c = best ∨ c = second ∨ c ∈ rest := by
    simp [← hp.mem_iff]
  simp only [hcs, List.map_cons, List.nodup_cons, List.mem_cons, not_or] at hn
  have hb : best ∈ n.children := hmem.mpr (by simp)
  have hs : second ∈ n.children := hmem.mpr (by simp)
  simp only [Walk.Best, Walk.RunnerUp, h.supported_end_iff, hse]
  refine ⟨⟨⟨best, hb, rfl⟩, ?best⟩, ⟨second, hs, rfl⟩, Ne.symm hn.left.left, ?second⟩
  case best =>
    intro j ⟨c, hc, hj⟩ hne
    subst hj
    apply h.better_of_not hc hb hne
    match hmem.mp hc with
    | .inl hc => exact absurd (congrArg startID hc) hne
    | .inr (.inl hc) => exact hc ▸ h₁
    | .inr (.inr hc) => exact h₂ c hc |>.left
  case second =>
    intro j ⟨c, hc, hj⟩ hne hne'
    subst hj
    apply h.better_of_not hc hs hne'
    match hmem.mp hc with
    | .inl hc => exact absurd (congrArg startID hc) hne
    | .inr (.inl hc) => exact absurd (congrArg startID hc) hne'
    | .inr (.inr hc) => exact h₂ c hc |>.right

theorem branchSupport_lt (hM : M.card < 2 ^ 32) : n.branchSupport < 2 ^ 32 := by
  rw [← h.count_eq]
  exact lt_of_le_of_lt (countP_le_card ..) hM

theorem margin_eq (hM : M.card < 2 ^ 32) (hb : best ∈ n.children) (hs : second ∈ n.children)
    (hle : second.better best = false) :
    margin best second =
      support M n.span.end best.startID - support M n.span.end second.startID +
        if second.startID < best.startID then 1 else 0 := by
  have hpos := (h.child hs).pos
  have hlt := (h.child hb).branchSupport_lt hM
  have hle : second.branchSupport ≤ best.branchSupport := by
    simp only [better, Bool.or_eq_false_iff, decide_eq_false_iff_not, not_lt] at hle
    exact hle.left
  rw [h.support_child hb, h.support_child hs, margin, sub32_eq hle hlt]
  split
  case isTrue => rw [add32_eq (by omega)]
  case isFalse => rfl

theorem advance_end_one_iff (hcs : n.children = [c]) :
    Walk.Advance M largestIssued (n.span.end - 1, ancestor n.span.ledger (n.span.end - 1)) y ↔
      y = (c.span.start, c.startID) ∧
        (uncommitted M largestIssued n.span.end < c.branchSupport ∨
          uncommitted M largestIssued n.span.end = 0) := by
  have ⟨_, _, hv⟩ := h.valid
  have hc : c ∈ n.children := by simp [hcs]
  have hs : c.span.start = n.span.end := by simpa [word] using (hv.child hc).placed.start_eq
  have hlt := h.start_lt
  have hse : n.span.end - 1 + 1 = n.span.end := by omega
  have hu : ∀ j, Walk.Supported M (n.span.end - 1) (ancestor n.span.ledger (n.span.end - 1)) j ↔
      j = c.startID := by
    intro j
    rw [h.supported_end_iff, hcs]
    simp [eq_comm]
  rw [advance_iff_of_unique hu, hse, h.support_child hc, hs]

theorem advance_end_sort_iff (hM : M.card < 2 ^ 32) (ps : PartialSort L)
    (hcs : ps.sort n.children = best :: second :: rest) :
    Walk.Advance M largestIssued (n.span.end - 1, ancestor n.span.ledger (n.span.end - 1)) y ↔
      y = (best.span.start, best.startID) ∧
        (uncommitted M largestIssued n.span.end < margin best second ∨
          uncommitted M largestIssued n.span.end = 0) := by
  obtain ⟨_, _, hv⟩ := h.valid
  have hp := ps.perm n.children
  have hb : best ∈ n.children := hp.subset (by simp [hcs])
  have hsec : second ∈ n.children := hp.subset (by simp [hcs])
  have hs : best.span.start = n.span.end := by simpa [word] using (hv.child hb).placed.start_eq
  have hlt := h.start_lt
  have hse : n.span.end - 1 + 1 = n.span.end := by omega
  obtain ⟨hbest, hrun⟩ := h.sort_spec ps hcs
  rw [advance_iff_of_runnerUp hbest hrun, hse, ← h.margin_eq hM hb hsec (ps.top hcs).left, hs]

theorem preferred_ends (hM : M.card < 2 ^ 32) (ps : PartialSort L) (largestIssued : Nat)
    (hi : Iter M b u it) (hb : b ≤ max (n.span.start + 1) largestIssued) :
    ∃ tip, (n.preferred ps largestIssued u it).1 = some tip ∧
      Walk.Ends M largestIssued (n.span.start, n.startID) (tip.seq, tip.id) := by
  obtain ⟨_, _, hv⟩ := h.valid
  induction hv generalizing u it b
  case intro n hp hbr hn hvc hk ih =>
    have hlt := h.start_lt
    have hi := hi.addUncommitted hM (max (n.span.start + 1) largestIssued)
    rw [max_eq_right hb] at hi
    rw [preferred]
    generalize addUncommitted _ u it = r at hi
    dsimp only
    have ha := h.along_advance hM (lt_succ_self _) hlt hi
    generalize advance n.span.end n.branchSupport _ r.1 r.2 = r at ha
    obtain ⟨nextSeq, u, it⟩ := r
    have hw := ha.walk
    have hu := ha.iter.uncommitted_eq
    simp only at hw hu ⊢
    split
    case isTrue hr =>
      have hle := ha.le
      have hs : nextSeq - 1 + 1 = nextSeq := by omega
      rw [Span.before_eq (by omega) (by omega)]
      refine ⟨_, rfl, hw, fun y hy => ?_⟩
      have hy := h.advance_iff (s := nextSeq - 1) (by omega) (by omega) |>.mp hy |>.right
      have hst : n.branchSupport ≤ u := ha.stop hr
      rw [hs, uncommitted, ← hu] at hy
      omega
    case isFalse hr =>
      obtain rfl : nextSeq = n.span.end := by have : nextSeq ≤ n.span.end := ha.le_end; omega
      -- the walk goes on from a child, or it ends with the last ledger of the span
      have hgo : ∀ c ∈ n.children,
          Walk.Advance M largestIssued
            (n.span.end - 1, ancestor n.span.ledger (n.span.end - 1)) (c.span.start, c.startID) →
          ∃ tip, (c.preferred ps largestIssued u it).1 = some tip ∧
            Walk.Ends M largestIssued (n.span.start, n.startID) (tip.seq, tip.id) := by
        intro c hc hadv
        have hs : c.span.start = n.span.end := by simpa [word] using (hvc c hc).placed.start_eq
        obtain ⟨tip, he, hends⟩ := ih c hc (h.child hc) ha.iter (by dsimp only; omega)
        exact ⟨tip, he, .head (hw.tail hadv) hends⟩
      have hend : (∀ y, ¬Walk.Advance M largestIssued
            (n.span.end - 1, ancestor n.span.ledger (n.span.end - 1)) y) →
          ∃ tip, some n.span.tip = some tip ∧
            Walk.Ends M largestIssued (n.span.start, n.startID) (tip.seq, tip.id) :=
        fun hno => ⟨_, rfl, hw, hno⟩
      have hu : u = uncommitted M largestIssued n.span.end := hu
      split
      case h_1 hcs =>
        refine hend fun y hy => ?_
        obtain ⟨c, hc, _⟩ := h.supported_end_iff.mp hy.2.1.left
        simp [hcs] at hc
      case h_2 best hcs =>
        split
        case isTrue hc =>
          refine hgo best (by simp [hcs]) <| h.advance_end_one_iff hcs |>.mpr ⟨rfl, ?_⟩
          simpa [hu] using hc
        case isFalse hc =>
          refine hend fun y hy => hc ?_
          simpa [hu] using (h.advance_end_one_iff hcs |>.mp hy).right
      case h_3 c₁ c₂ cs hcs =>
        have hp := ps.perm n.children
        split
        case h_1 best second rest hsort =>
          split
          case isTrue hc =>
            refine hgo best (hp.subset (by simp [hsort])) <|
              h.advance_end_sort_iff hM ps hsort |>.mpr ⟨rfl, ?_⟩
            simpa [hu] using hc
          case isFalse hc =>
            refine hend fun y hy => hc ?_
            simpa [hu] using (h.advance_end_sort_iff hM ps hsort |>.mp hy).right
        case h_2 hno =>
          rcases hsort : ps.sort n.children with _ | ⟨best, _ | ⟨second, _⟩⟩
          · exact absurd hp.length_eq (by rw [hsort, hcs]; simp)
          · exact absurd hp.length_eq (by rw [hsort, hcs]; simp)
          · exact absurd hsort (hno best second _)

end

end Standing
end Node

variable {t : LedgerTrie L} {M : Multiset L}

theorem Represents.standing_root (h : Represents t M) (hM : M ≠ 0) :
    Node.Standing M t.root where
  valid := ⟨_, _, h.valid⟩
  pos := by
    rw [h.branchSupport_root]
    exact card_pos.mpr hM
  words := by
    rw [h.words, filter_eq_self]
    intro x hx
    have ⟨l, _, hl⟩ := mem_map.mp hx
    exact hl ▸ h.valid.stem_prefix_of_root l

theorem Represents.getPreferred_ends (h : Represents t M) (hM : M ≠ 0) (ps : PartialSort L)
    (largestIssued : Nat) :
    ∃ tip, (t.getPreferred ps largestIssued).1 = some tip ∧
      Walk.Ends M largestIssued (0, ancestor (genesis : L) 0) (tip.seq, tip.id) := by
  have hs : t.root.span.start = 0 := h.valid.placed.start_eq
  have ⟨tip, he, hw⟩ := h.standing_root hM |>.preferred_ends h.bound ps largestIssued h.iter
    (zero_le _)
  refine ⟨tip, ?_, ?_⟩
  · have : t.isEmpty = false := by
      have := card_pos.mpr hM
      simp only [isEmpty, h.branchSupport_root, beq_eq_false_iff_ne]
      omega
    simp [LedgerTrie.getPreferred, this, he]
  · rwa [Node.startID, Span.startID, hs, genesis_anc] at hw

theorem Node.better_iff {a : Node L} :
    a.better b = true ↔ toLex (b.branchSupport, b.startID) < toLex (a.branchSupport, a.startID) := by
  simp [better, Prod.Lex.lt_iff]

-- Sorting all children is one way to sort the first two.
def PartialSort.full : PartialSort L where
  sort cs := cs.mergeSort fun a b => !b.better a
  perm cs := List.mergeSort_perm cs _
  top := by
    intro cs a b rest h
    have hp : (cs.mergeSort fun a b => !b.better a).Pairwise fun a b => !b.better a := by
      apply List.pairwise_mergeSort
      · simp only [Bool.not_eq_true', ← Bool.not_eq_true, Node.better_iff, not_lt]
        exact fun _ _ _ h₁ h₂ => h₂.trans h₁
      · intro a b
        simp only [Bool.or_eq_true, Bool.not_eq_true', ← Bool.not_eq_true, Node.better_iff, not_lt]
        exact le_total ..
    rw [h] at hp
    simp only [List.pairwise_cons, List.mem_cons, Bool.not_eq_true'] at hp
    exact ⟨hp.1 b (.inl rfl), fun c hc => ⟨hp.1 c (.inr hc), hp.2.1 c hc⟩⟩

end LedgerTrie
