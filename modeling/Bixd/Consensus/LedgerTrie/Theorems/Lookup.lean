import Bixd.Consensus.LedgerTrie.Words

open Multiset List

namespace LedgerTrie

open Ledger LedgerTrie.Span

variable {L I : Type} [Ledger L I]

namespace Node

namespace Placed

variable {n : Node L}

section

variable {anc : List I} {par : Option Nat} (h : Placed anc par n)

include h

theorem stem_eq : n.stem = anc ++ [n.startID] := by
  rw [stem, hist_succ, h.start_eq, h.anc_eq, startID, Span.startID, h.start_eq]

theorem stem_prefix_word : n.stem <+: n.word :=
  hist_isPrefix _ h.start_lt

theorem length_lt : anc.length < n.word.length := by
  have := h.start_lt
  simp only [word, length_hist, ← h.start_eq]
  exact this

-- A node shares the first ledger of its span with `l` iff the span and `l` differ later only.
theorem start_lt_diff_iff (l : L) : n.span.start < n.span.diff l ↔ n.stem <+: Ledger.word l := by
  have hlt := h.start_lt
  have hle := h.end_le
  have hm := mismatch_le n.span.ledger l
  have hd : n.span.start < n.span.diff l ↔ n.span.start + 1 ≤ mismatch n.span.ledger l := by
    simp only [diff, clamp]
    omega
  rw [hd]
  by_cases hl : n.span.start ≤ seq l
  case pos =>
    rw [stem, Ledger.word, hist_prefix_hist_iff (by omega)]
    exact hist_eq_iff_mismatch (by omega) (by omega) |>.symm
  constructor
  case mp => omega
  intro hp
  have := hp.length_le
  simp only [stem, length_hist, length_word] at this
  omega

-- What the first difference of a span with `l` says where the two have more in common than what
-- stands above the span.
theorem diff_spec (hd : n.span.start < n.span.diff l) :
    n.span.diff l ≤ n.span.end ∧ n.span.diff l ≤ seq l + 1 ∧
    hist n.span.ledger (n.span.diff l) = hist l (n.span.diff l) ∧
    (n.span.diff l < n.span.end → n.span.diff l ≤ seq l →
      ancestor n.span.ledger (n.span.diff l) ≠ ancestor l (n.span.diff l)) := by
  have hle := h.end_le
  have hm := mismatch_le n.span.ledger l
  have he : n.span.diff l = min (mismatch n.span.ledger l) n.span.end := by
    simp only [diff, clamp] at *
    omega
  refine ⟨by omega, by omega, ?agree, ?differ⟩
  case agree => exact hist_eq_iff_mismatch (by omega) (by omega) |>.mpr (by omega)
  intro hlt hs
  have he : n.span.diff l = mismatch n.span.ledger l := by omega
  rw [he]
  exact mismatch_ne (by omega)

theorem tip_id_iff (l : L) : Ledger.id l = n.span.tip.id ↔ n.word = Ledger.word l := by
  have hlt := h.start_lt
  have hle := h.end_le
  simp only [Ledger.id, tip, word, Ledger.word]
  constructor
  case mp =>
    intro he
    have hs := anc_seq (le_refl _) (by omega) he
    have hend : n.span.end = seq l + 1 := by omega
    rw [hend]
    apply hist_eq_of_ancestor (by omega) (le_refl _)
    rw [hs, ← he, ← hs]
  case mpr =>
    intro he
    have hend : n.span.end = seq l + 1 := by simpa using congrArg length he
    rw [hend] at he ⊢
    exact hist_eq_iff.mp he _ (by omega) |>.symm

end

end Placed

namespace Valid

variable {n : Node L}

theorem placed : Valid anc par n → Placed anc par n
  | intro h _ _ _ _ => h

theorem branch_eq : Valid anc par n →
    n.branchSupport = n.tipSupport + (n.children.map branchSupport).sum
  | intro _ h _ _ _ => h

theorem nodup : Valid anc par n → (n.children.map startID).Nodup
  | intro _ _ h _ _ => h

theorem child : Valid anc par n → ∀ {c}, c ∈ n.children → Valid n.word (some n.addr) c
  | intro _ _ _ h _, _, hc => h _ hc

theorem compact : Valid anc par n → ∀ {c}, c ∈ n.children → c.Compact
  | intro _ _ _ _ h, _, hc => h _ hc

section

variable {anc : List I} {par : Option Nat} (h : Valid anc par n)

include h

theorem card_words : n.words.card = n.branchSupport := by
  induction h
  case intro n _ hb _ _ _ ih =>
    have hc : ∀ cs ⊆ n.children, (wordsBelow cs).card = (cs.map branchSupport).sum := by
      intro cs hs
      induction cs
      case nil => simp
      case cons c cs ihs => simp [ih c (hs (by simp)), ihs fun d hd => hs (by simp [hd])]
    rw [words_eq, card_add, card_replicate, hc _ (Subset.refl _), hb]

theorem word_isPrefix (hx : x ∈ n.words) : n.word <+: x := by
  induction h
  case intro n _ _ _ hv _ ih =>
    rw [words_eq, mem_add, mem_wordsBelow] at hx
    match hx with
    | .inl hx => exact Multiset.eq_of_mem_replicate hx ▸ prefix_rfl
    | .inr ⟨c, hc, hx⟩ =>
      have hp := hv c hc |>.placed
      have hw : n.word <+: c.stem := hp.stem_eq ▸ prefix_append ..
      exact hw.trans <| hp.stem_prefix_word.trans <| ih c hc hx

theorem hist_of_mem_words {l : L} (hl : Ledger.word l ∈ n.words) :
    hist l n.span.end = hist n.span.ledger n.span.end ∧ n.span.end ≤ seq l + 1 := by
  have hp := h.word_isPrefix hl
  have hlen := hp.length_le
  simp only [word, length_hist, length_word] at hlen
  rw [word, Ledger.word, hist_prefix_hist_iff hlen] at hp
  exact ⟨hp.symm, hlen⟩

theorem stem_isPrefix (hx : x ∈ n.words) : n.stem <+: x :=
  h.placed.stem_prefix_word.trans <| h.word_isPrefix hx

-- Children with different stems have no strings in common: nothing below one child extends the
-- stem of another.
theorem not_stem_isPrefix (hc : c ∈ n.children) (hd : d ∈ n.children)
    (hne : c.startID ≠ d.startID) (hx : x ∈ c.words) : ¬d.stem <+: x := by
  intro hp
  have hcs := h.child hc |>.stem_isPrefix hx
  rw [h.child hc |>.placed.stem_eq] at hcs
  rw [h.child hd |>.placed.stem_eq] at hp
  have := prefix_of_prefix_length_le hcs hp (by simp) |>.eq_of_length (by simp)
  simp at this
  exact hne this

theorem filter_children (hcs : n.children = cs ++ c :: ds) (hx : x ∈ wordsBelow (cs ++ ds)) :
    ¬c.stem <+: x := by
  have ⟨d, hd, hx⟩ := mem_wordsBelow.mp hx
  have hn := h.nodup
  rw [hcs, map_append, List.map_cons, nodup_middle, List.nodup_cons] at hn
  have hc : c ∈ n.children := by simp [hcs]
  have hd' : d ∈ n.children := by
    rw [hcs]
    simp only [mem_append, List.mem_cons] at hd ⊢
    tauto
  apply h.not_stem_isPrefix hd' hc _ hx
  intro he
  apply hn.left
  rw [← he, ← map_append]
  exact mem_map_of_mem hd

theorem filter_stem [DecidableEq I] (hc : c ∈ n.children) :
    n.words.filter (c.stem <+: ·) = c.words := by
  have ⟨cs, ds, hcs⟩ := append_of_mem hc
  have hcv := h.child hc
  have hw : n.words =
      c.words + (Multiset.replicate n.tipSupport n.word + wordsBelow (cs ++ ds)) := by
    rw [words_eq, hcs, wordsBelow_append, wordsBelow_append, wordsBelow_cons]
    abel
  rw [hw, filter_add, filter_eq_self.mpr fun x hx => hcv.stem_isPrefix hx,
    filter_eq_nil.mpr, add_zero]
  intro x hx hp
  match mem_add.mp hx with
  | .inl hx =>
    rw [Multiset.eq_of_mem_replicate hx] at hp
    have hle := hp.length_le
    rw [hcv.placed.stem_eq] at hle
    simp at hle
  | .inr hx => exact h.filter_children hcs hx hp

theorem countP_child [DecidableEq I] (hc : c ∈ n.children) (p : List I → Prop) [DecidablePred p]
    (hp : ∀ x, p x → c.stem <+: x) : n.words.countP p = c.words.countP p := by
  rw [← h.filter_stem hc, Multiset.countP_filter]
  exact countP_congr rfl fun x _ => propext ⟨fun hx => ⟨hx, hp x hx⟩, And.left⟩

theorem branchSupport_child_le (hc : c ∈ n.children) : c.branchSupport ≤ n.branchSupport := by
  rw [h.branch_eq]
  have := le_sum_of_mem (mem_map_of_mem (f := branchSupport) hc)
  omega

end

end Valid

-- The place that `find` finds for a ledger: the last node on the way down that shares the first
-- ledger of its span with the ledger.
inductive Found (l : L) : Node L → Path → Nat → Prop
  | here {n : Node L} :
    n.stem <+: Ledger.word l →
    (n.span.diff l = n.span.end → ∀ c ∈ n.children, ¬c.stem <+: Ledger.word l) →
    Found l n [] (n.span.diff l)
  | under {n c : Node L} {cs ds : List (Node L)} {p : Path} {q : Nat} :
    n.children = cs ++ c :: ds →
    c.stem <+: Ledger.word l →
    Found l c p q →
    Found l n (cs.length :: p) q

-- The place that `findByLedgerID` finds: the node whose span ends with the ledger.
inductive At (l : L) (m : Node L) : Node L → Path → Prop
  | here : m.word = Ledger.word l → At l m m []
  | under {n c : Node L} {cs ds : List (Node L)} {p : Path} :
    n.children = cs ++ c :: ds →
    At l m c p →
    At l m n (cs.length :: p)

variable {n : Node L}

theorem get?_below (h : n.children = cs ++ c :: ds)
    (p : Path) : n.get? (cs.length :: p) = c.get? p := by
  simp [get?, h]

theorem At.get?_eq (h : At l m n p) : n.get? p = some m := by
  induction h
  case here => rfl
  case under hc _ ih => rw [get?_below hc, ih]

theorem findChild_cases (l : L) (pos i : Nat) (cs : List (Node L)) :
    (∀ c ∈ cs, c.span.diff l ≤ pos) ∧ findChild l pos i cs = ([], pos) ∨
    ∃ as c bs, cs = as ++ c :: bs ∧ pos < c.span.diff l ∧
      findChild l pos i cs =
        ((i + as.length) :: (c.find l (c.span.diff l)).1, (c.find l (c.span.diff l)).2) := by
  induction cs generalizing i
  case nil => simp [findChild]
  case cons c cs ih =>
    by_cases hc : pos < c.span.diff l
    case pos => exact .inr ⟨[], c, cs, rfl, hc, by simp [findChild, hc]⟩
    match ih (i + 1) with
    | .inl ⟨hcs, he⟩ =>
      refine .inl ⟨?_, by simp [findChild, hc, he]⟩
      simp only [List.mem_cons, forall_eq_or_imp]
      exact ⟨by omega, hcs⟩
    | .inr ⟨as, d, bs, hcs, hd, he⟩ =>
      refine .inr ⟨c :: as, d, bs, by simp [hcs], hd, ?_⟩
      simp only [findChild, hc, if_false, he, length_cons]
      congr 2
      omega

theorem find_eq (l : L) (pos : Nat) (n : Node L) :
    n.find l pos =
      if pos = n.span.end then findChild l pos 0 n.children else ([], pos) := by
  cases n
  simp [find]

theorem Valid.find_found (h : Valid anc par n) (hs : n.stem <+: Ledger.word l) :
    Found l n (n.find l (n.span.diff l)).1 (n.find l (n.span.diff l)).2 := by
  induction h
  case intro n hp _ _ hv _ ih =>
    rw [find_eq]
    by_cases hd : n.span.diff l = n.span.end
    case neg =>
      rw [if_neg hd]
      exact .here hs fun h => absurd h hd
    rw [if_pos hd]
    have hstart : ∀ c ∈ n.children, c.span.start = n.span.diff l := by
      intro c hc
      rw [(hv c hc).placed.start_eq, word, length_hist, hd]
    rcases findChild_cases l (n.span.diff l) 0 n.children with ⟨hle, he⟩ | ⟨as, c, bs, hcs, hlt, he⟩
    · rw [he]
      refine .here hs fun _ c hc => ?_
      rw [← (hv c hc).placed.start_lt_diff_iff, hstart c hc, not_lt]
      exact hle c hc
    · have hc : c ∈ n.children := by simp [hcs]
      rw [← hstart c hc, (hv c hc).placed.start_lt_diff_iff] at hlt
      rw [he, Nat.zero_add]
      exact .under hcs hlt (ih c hc hlt)

theorem findByLedgerIDs_cases [DecidableEq I] (l : L) (i : Nat) (cs : List (Node L)) :
    (∀ c ∈ cs, c.findByLedgerID l = none) ∧ findByLedgerIDs l i cs = none ∨
    ∃ as c bs p, cs = as ++ c :: bs ∧ c.findByLedgerID l = some p ∧
      findByLedgerIDs l i cs = some ((i + as.length) :: p) := by
  induction cs generalizing i
  case nil => simp [findByLedgerIDs]
  case cons c cs ih =>
    cases hc : c.findByLedgerID l with
    | some p => exact .inr ⟨[], c, cs, p, rfl, hc, by simp [findByLedgerIDs, hc]⟩
    | none =>
      rcases ih (i + 1) with ⟨hcs, he⟩ | ⟨as, d, bs, p, hcs, hd, he⟩
      · refine .inl ⟨?_, by simp [findByLedgerIDs, hc, he]⟩
        simp only [List.mem_cons, forall_eq_or_imp]
        exact ⟨hc, hcs⟩
      · refine .inr ⟨c :: as, d, bs, p, by simp [hcs], hd, ?_⟩
        simp only [findByLedgerIDs, hc, he, length_cons]
        congr 2
        omega

theorem findByLedgerID_eq [DecidableEq I] (l : L) (n : Node L) :
    n.findByLedgerID l =
      if Ledger.id l = n.span.tip.id then some [] else findByLedgerIDs l 0 n.children := by
  cases n
  simp [findByLedgerID]

theorem Valid.findByLedgerID_at [DecidableEq I] (h : Valid anc par n) :
    match n.findByLedgerID l with
    | some p => ∃ m, At l m n p
    | none => Ledger.word l ∉ n.words := by
  induction h
  case intro n hp hb hn hv hk ih =>
    rw [findByLedgerID_eq]
    by_cases hw : n.word = Ledger.word l
    case pos =>
      rw [if_pos (hp.tip_id_iff l |>.mpr hw)]
      exact ⟨n, .here hw⟩
    rw [if_neg (mt (hp.tip_id_iff l).mp hw)]
    match findByLedgerIDs_cases l 0 n.children with
    | .inl ⟨hc, he⟩ =>
      rw [he]
      rw [words_eq, mem_add, mem_wordsBelow, not_or]
      refine ⟨fun hx => hw (Multiset.eq_of_mem_replicate hx).symm, ?_⟩
      intro ⟨c, hm, hx⟩
      have := ih c hm
      rw [hc c hm] at this
      exact this hx
    | .inr ⟨as, c, bs, p, hcs, hc, he⟩ =>
      have := ih c (by simp [hcs])
      rw [hc] at this
      have ⟨m, hm⟩ := this
      rw [he, Nat.zero_add]
      exact ⟨m, .under hcs hm⟩

theorem At.stem_isPrefix (h : At l m n p) (hv : Valid anc par n) : n.stem <+: Ledger.word l := by
  induction h generalizing anc par
  case here hw => exact hw ▸ hv.placed.stem_prefix_word
  case under n c cs ds p hcs _ ih =>
    have hc := hv.child (c := c) (by simp [hcs])
    have hw : n.word <+: c.stem := hc.placed.stem_eq ▸ prefix_append ..
    exact hv.placed.stem_prefix_word.trans <| hw.trans <| ih hc

theorem Valid.not_mem_wordsBelow (h : Valid anc par n) : n.word ∉ wordsBelow n.children := by
  intro hx
  have ⟨c, hc, hx⟩ := mem_wordsBelow.mp hx
  have hle := h.child hc |>.word_isPrefix hx |>.length_le
  have hlt := h.child hc |>.placed.length_lt
  omega

theorem At.tipSupport_eq [DecidableEq I] (h : At l m n p) (hv : Valid anc par n) :
    m.tipSupport = n.words.count (Ledger.word l) := by
  induction h generalizing anc par
  case here hw =>
    have h0 := count_eq_zero_of_notMem hv.not_mem_wordsBelow
    rw [words_eq, ← hw, count_add, Multiset.count_replicate_self, h0, add_zero]
  case under n c cs ds p hcs ha ih =>
    have hm : c ∈ n.children := by simp [hcs]
    have hc := hv.child hm
    rw [ih hc]
    refine hv.countP_child hm _ ?_ |>.symm
    intro x hx
    exact hx ▸ ha.stem_isPrefix hc

theorem Valid.countP_prefix_of_isPrefix [DecidableEq I] (h : Valid anc par n) (hw : w <+: n.word) :
    n.words.countP (w <+: ·) = n.branchSupport := by
  rw [← h.card_words, countP_eq_card]
  exact fun x hx => hw.trans <| h.word_isPrefix hx

theorem At.branchSupport_eq [DecidableEq I] (h : At l m n p)
    (hv : Valid anc par n) :
    m.branchSupport = n.words.countP (Ledger.word l <+: ·) := by
  induction h generalizing anc par
  case here hw => exact hv.countP_prefix_of_isPrefix (hw ▸ prefix_rfl) |>.symm
  case under n c cs ds p hcs ha ih =>
    have hm : c ∈ n.children := by simp [hcs]
    have hc := hv.child hm
    rw [ih hc]
    refine hv.countP_child hm _ ?_ |>.symm
    intro x hx
    exact ha.stem_isPrefix hc |>.trans hx

theorem Found.get?_isSome (h : Found l n p q) : ∃ m, n.get? p = some m := by
  induction h
  case here n _ _ => exact ⟨n, rfl⟩
  case under hcs _ _ ih => exact get?_below hcs _ ▸ ih

theorem Valid.not_prefix_of_here (h : Valid anc par n) (hs : n.stem <+: Ledger.word l)
    (hc : n.span.diff l = n.span.end → ∀ c ∈ n.children, ¬c.stem <+: Ledger.word l)
    (hq : n.span.diff l ≤ seq l) (hx : x ∈ n.words) : ¬Ledger.word l <+: x := by
  intro hp
  have ⟨hle, _, _, hne⟩ := h.placed.diff_spec (h.placed.start_lt_diff_iff l |>.mpr hs)
  by_cases hd : n.span.diff l < n.span.end
  case pos =>
    have h₁ := hist_isPrefix n.span.ledger hd |>.trans <| h.word_isPrefix hx
    have h₂ := hist_prefix_word l (n := n.span.diff l + 1) (by omega) |>.trans hp
    have he := prefix_of_prefix_length_le h₁ h₂ (by simp) |>.eq_of_length (by simp)
    exact hne hd hq <| hist_eq_iff.mp he _ (by omega)
  case neg =>
    have hd : n.span.diff l = n.span.end := by omega
    rw [words_eq, mem_add, mem_wordsBelow] at hx
    match hx with
    | .inl hx =>
      rw [Multiset.eq_of_mem_replicate hx] at hp
      have := hp.length_le
      simp only [length_word, word, length_hist] at this
      omega
    | .inr ⟨c, hm, hx⟩ =>
      have hv := h.child hm
      apply hc hd c hm
      apply prefix_of_prefix_length_le (hv.stem_isPrefix hx) hp
      rw [hv.placed.stem_eq]
      simp [word]
      omega

theorem Found.branchSupport_eq [DecidableEq I] (h : Found l n p q)
    (hv : Valid anc par n) (hm : n.get? p = some m) :
    if seq l < q ∧ seq l < m.span.end then
      m.branchSupport = n.words.countP (Ledger.word l <+: ·)
    else
      n.words.countP (Ledger.word l <+: ·) = 0 := by
  induction h generalizing anc par
  case here n hs hc =>
    obtain rfl : n = m := by simpa [get?] using hm
    have ⟨hle, hle', he, _⟩ := hv.placed.diff_spec (hv.placed.start_lt_diff_iff l |>.mpr hs)
    split
    case isTrue hq =>
      refine hv.countP_prefix_of_isPrefix ?_ |>.symm
      rw [Ledger.word, word, hist_prefix_hist_iff (by omega)]
      exact hist_eq_of_le he (by omega) |>.symm
    case isFalse hq =>
      rw [Multiset.countP_eq_zero]
      exact fun x hx => hv.not_prefix_of_here hs hc (by omega) hx
  case under n c cs ds p q hcs hs hf ih =>
    have hmem : c ∈ n.children := by simp [hcs]
    have hc := hv.child hmem
    rw [get?_below hcs] at hm
    rw [hv.countP_child hmem _ fun x hx => hs.trans hx]
    exact ih hc hm

theorem Valid.stem_prefix_of_root (h : Valid [] par n) (l : L) : n.stem <+: Ledger.word l := by
  have hp := h.placed
  have := hp.start_eq
  have := hp.start_lt
  have := mismatch_pos n.span.ledger l
  apply hp.start_lt_diff_iff l |>.mp
  simp only [diff, clamp, length_nil] at *
  omega

end Node

variable {t : LedgerTrie L} (h : Node.Valid [] none t.root)
include h

theorem tipSupport_eq [DecidableEq I] (l : L) :
    t.tipSupport l = t.root.words.count (Ledger.word l) := by
  have hf := h.findByLedgerID_at (l := l)
  unfold tipSupport findByLedgerID
  split at hf
  case h_1 p he =>
    have ⟨m, hm⟩ := hf
    simp [he, hm.get?_eq, hm.tipSupport_eq h]
  case h_2 he => simp [he, count_eq_zero_of_notMem hf]

theorem branchSupport_eq [DecidableEq I] (l : L) :
    t.branchSupport l = t.root.words.countP (Ledger.word l <+: ·) := by
  have hf := h.findByLedgerID_at (l := l)
  unfold branchSupport findByLedgerID find
  split at hf
  case h_1 p he =>
    have ⟨m, hm⟩ := hf
    simp [he, hm.get?_eq, hm.branchSupport_eq h]
  case h_2 he =>
    have hf := h.find_found (h.stem_prefix_of_root l)
    have ⟨m, hm⟩ := hf.get?_isSome
    have hb := hf.branchSupport_eq h hm
    simp only [he, Option.bind_none, hm, gt_iff_lt]
    split at hb
    case isTrue hc => rw [if_pos hc, hb]
    case isFalse hc => rw [if_neg hc, hb]

end LedgerTrie
