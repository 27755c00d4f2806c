import Bixd.Consensus.LedgerTrie.Theorems.Remove

open Multiset Std.ExtTreeMap

namespace LedgerTrie

open Ledger

variable {L I : Type} [Ledger L I]

namespace SeqSupport

-- The map holds the counts that are not zero.
def Counts (m : SeqSupport) (f : Nat → Nat) : Prop :=
  ∀ s, m[s]? = if f s = 0 then none else some (f s)

variable {m : SeqSupport} {f : Nat → Nat}

theorem Counts.empty : Counts ∅ fun _ => 0 := by
  simp [Counts]

theorem Counts.ext (h : Counts m f) (h' : Counts m' f) : m = m' :=
  ext_getElem? fun s => by rw [h s, h' s]

theorem Counts.congr (h : Counts m f) (hf : ∀ s, f s = g s) : Counts m g :=
  funext hf ▸ h

theorem Counts.inc (h : Counts m f) (hc : 0 < c) (hb : f s + c < 2 ^ 32) :
    Counts (m.inc s c) fun i => f i + if s = i then c else 0 := by
  intro i
  simp only [SeqSupport.inc, getElem?_alter, compare_eq_iff_eq]
  by_cases hi : s = i
  case pos =>
    have hg : (m[s]?).getD 0 = f s := by
      rw [h s]
      split
      case isTrue h0 => simp [h0]
      case isFalse => simp
    subst hi
    simp [hg, add32_eq hb]
    omega
  case neg => simp [hi, h i]

theorem Counts.dec (h : Counts m f) (hc : c ≤ f s) (hb : f s < 2 ^ 32) :
    Counts (m.dec s c) fun i => f i - if s = i then c else 0 := by
  intro i
  simp only [SeqSupport.dec, getElem?_alter, compare_eq_iff_eq]
  by_cases hi : s = i
  case pos =>
    subst hi
    have hs := sub32_eq hc hb
    rw [h s]
    by_cases h0 : f s = 0
    case pos => simp [h0]
    case neg => simp [h0, hs]
  case neg => simp [hi, h i]

end SeqSupport

theorem countP_replicate {α : Type} (p : α → Prop) [DecidablePred p] (c : Nat) (a : α) :
    (replicate c a).countP p = if p a then c else 0 := by
  rw [← coe_replicate, coe_countP, List.countP_replicate]
  simp

namespace Node

variable {anc : List I} {par : Option Nat} {n : Node L}

theorem expectedSeqSupport_eq (isRoot : Bool) (m : SeqSupport) (n : Node L) :
    n.expectedSeqSupport isRoot m =
      if !isRoot && n.tipSupport == 0 && decide (n.children.length < 2) then
        none
      else if n.children.any (·.parent ≠ some n.addr) then
        none
      else if n.tipSupport + (n.children.map branchSupport).sum ≠ n.branchSupport then
        none
      else
        expectedSeqSupports
          (if n.tipSupport ≠ 0 then m.inc (n.span.end - 1) n.tipSupport else m) n.children := by
  cases n
  simp [expectedSeqSupport]

-- The support that the walk over a node adds for a sequence number.
def seqCount (ws : Multiset (List I)) (s : Nat) : Nat :=
  ws.countP fun x => x.length = s + 1

theorem seqCount_add (ws ws' : Multiset (List I)) (s : Nat) :
    seqCount (ws + ws') s = seqCount ws s + seqCount ws' s :=
  countP_add ..

theorem Valid.expectedSeqSupport (h : Valid anc par n) (hk : isRoot = false → n.Compact)
    {m : SeqSupport} (hm : m.Counts f) (hb : ∀ s, f s + seqCount n.words s < 2 ^ 32) :
    ∃ m', n.expectedSeqSupport isRoot m = some m' ∧ m'.Counts fun s => f s + seqCount n.words s := by
  induction h generalizing isRoot m f
  case intro anc par n hp hbr hn hv hkc ih =>
    have hlt := hp.start_lt
    -- the children, last one first
    have hcs : ∀ cs ⊆ n.children, ∀ {m f}, SeqSupport.Counts m f →
        (∀ s, f s + seqCount (wordsBelow cs) s < 2 ^ 32) →
        ∃ m', expectedSeqSupports m cs = some m' ∧
          m'.Counts fun s => f s + seqCount (wordsBelow cs) s := by
      intro cs hs m f hm hb
      induction cs
      case nil => exact ⟨m, by simp [expectedSeqSupports], by simpa [seqCount] using hm⟩
      case cons c cs ihc =>
        simp only [wordsBelow_cons, seqCount_add] at hb
        obtain ⟨m₁, he₁, hm₁⟩ := ihc (fun d hd => hs (by simp [hd])) fun s => by have := hb s; omega
        have hc : c ∈ n.children := hs (by simp)
        obtain ⟨m₂, he₂, hm₂⟩ := ih c hc (fun (_ : false = false) => hkc c hc) hm₁
          fun s => by have := hb s; omega
        refine ⟨m₂, by simp [expectedSeqSupports, he₁, he₂], hm₂.congr fun s => ?_⟩
        rw [wordsBelow_cons, seqCount_add]
        omega
    have h₁ : (!isRoot && n.tipSupport == 0 && decide (n.children.length < 2)) = false := by
      cases isRoot
      case true => rfl
      by_cases h0 : n.tipSupport = 0
      case pos => rw [decide_eq_false (Nat.not_lt.mpr (hk rfl h0)), Bool.and_false]
      case neg => simp [h0]
    have h₂ : n.children.any (·.parent ≠ some n.addr) = false := by
      simp only [List.any_eq_false, ne_eq, decide_not, Bool.not_eq_true', decide_eq_false_iff_not,
        not_not]
      exact fun c hc => hv c hc |>.placed.parent_eq
    have hsc : ∀ s, seqCount n.words s =
        (if n.span.end - 1 = s then n.tipSupport else 0) + seqCount (wordsBelow n.children) s := by
      intro s
      rw [words_eq, seqCount_add, seqCount, countP_replicate, word, length_hist]
      congr 2
      exact propext ⟨by omega, by omega⟩
    have hm₁ : SeqSupport.Counts
        (if n.tipSupport ≠ 0 then m.inc (n.span.end - 1) n.tipSupport else m)
        (fun s => f s + if n.span.end - 1 = s then n.tipSupport else 0) := by
      by_cases h0 : n.tipSupport = 0
      case pos => simpa [h0] using hm
      rw [if_pos h0]
      have := hb (n.span.end - 1)
      rw [hsc, if_pos rfl] at this
      exact hm.inc (by omega) (by omega)
    obtain ⟨m', he, hm'⟩ := hcs _ (List.Subset.refl _) hm₁ fun s => by
      have := hb s
      rw [hsc] at this
      omega
    refine ⟨m', ?_, hm'.congr fun s => by rw [hsc s, Nat.add_assoc]⟩
    rw [expectedSeqSupport_eq, h₁, h₂, ← hbr]
    simpa using he

end Node

-- The trie holds the support of the multiset of ledgers.
structure Represents (t : LedgerTrie L) (M : Multiset L) : Prop where
  valid    : Node.Valid [] none t.root
  root_end : t.root.span.end = 1
  words    : t.root.words = M.map Ledger.word
  seqs     : t.seqSupport.Counts fun s => M.countP (seq · = s)
  bound    : M.card < 2 ^ 32

theorem Represents.seqCount_eq {M : Multiset L} (h : Represents t M) (s : Nat) :
    Node.seqCount t.root.words s = M.countP (seq · = s) := by
  rw [h.words, Node.seqCount, countP_map, countP_eq_card_filter]
  simp

theorem Represents.branchSupport_root {M : Multiset L} (h : Represents t M) :
    t.root.branchSupport = M.card := by
  rw [← h.valid.card_words, h.words, card_map]

theorem Represents.checkInvariants {M : Multiset L} (h : Represents t M) :
    t.checkInvariants = true := by
  have ⟨m, he, hm⟩ := h.valid.expectedSeqSupport (fun (h : true = false) => by contradiction)
    SeqSupport.Counts.empty fun s => by
      rw [h.seqCount_eq, Nat.zero_add]
      exact Nat.lt_of_le_of_lt (countP_le_card ..) h.bound
  simp only [h.seqCount_eq, Nat.zero_add] at hm
  simp [LedgerTrie.checkInvariants, he, hm.ext h.seqs]

theorem represents_empty : Represents (empty : LedgerTrie L) 0 where
  valid := by
    refine .intro ⟨rfl, ?_, ?_, ?_, rfl⟩ rfl ?_ ?_ ?_ <;>
      simp [empty, Node.ofSpan, Span.root, seq_genesis, hist]
  root_end := rfl
  words := by simp [Node.words_eq, empty, Node.ofSpan]
  seqs := SeqSupport.Counts.empty
  bound := by simp

variable {t : LedgerTrie L} {M : Multiset L} {l : L} {count : Nat}

theorem Represents.insert (h : Represents t M) (h0 : 0 < count) (hb : M.card + count < 2 ^ 32) :
    Represents (t.insert l count) (M + replicate count l) := by
  have hf := h.valid.find_found (h.valid.stem_prefix_of_root l)
  have hst := h.valid.placed.start_eq
  have hend := h.root_end
  have hi := hf.insertAt h.valid (.inr (by simp only [List.length_nil] at hst; omega)) h0
    (h.branchSupport_root ▸ hb) t.nextAddr
  constructor
  case valid => exact hi.valid
  case root_end =>
    have hlt := hi.valid.placed.start_lt
    have hle := hi.end_le
    simp only [LedgerTrie.insert, find]
    omega
  case words =>
    simp only [LedgerTrie.insert, find, hi.words, h.words, map_add, map_replicate]
  case seqs =>
    have hle := countP_le_card (seq · = seq l) M
    refine h.seqs.inc h0 (by omega) |>.congr fun s => ?_
    rw [countP_add, countP_replicate]
  case bound => simpa using hb

theorem Represents.count_eq [DecidableEq I] [DecidableEq L] (h : Represents t M) (l : L) :
    t.root.words.count (word l) = M.count l := by
  rw [h.words, count_map_eq_count' _ _ word_injective]

theorem sub_replicate_min {α : Type} [DecidableEq α] (M : Multiset α) (a : α) (c : Nat) :
    M - replicate c a = M - replicate (min c (M.count a)) a := by
  ext b
  simp only [count_sub, count_replicate]
  split
  case isTrue h => subst h; omega
  case isFalse => rfl

-- Taking away support that the trie holds at the node `m`.
theorem Represents.removeAt [DecidableEq I] [DecidableEq L] {p : Path}
    (h : Represents t (M + replicate count l)) (hm : Node.At l m t.root p)
    (hc : count ≤ m.tipSupport) :
    Represents { t with
      root := t.root.removeAt count p
      seqSupport := t.seqSupport.dec (seq l) count } M := by
  have hb := h.bound
  have hr := hm.removeLoc h.valid hc (h.branchSupport_root ▸ hb)
  constructor
  case valid => exact hr.valid
  case root_end => exact hr.span ▸ h.root_end
  case words =>
    have hw := hr.words
    rw [h.words, map_add, map_replicate] at hw
    exact add_right_cancel hw |>.symm
  case seqs =>
    have hs := h.seqs
    simp only [countP_add, countP_replicate] at hs
    have hle := countP_le_card (seq · = seq l) M
    simp only [card_add, card_replicate] at hb
    refine hs.dec (by simp) (by simp only [if_true]; omega) |>.congr fun s => ?_
    omega
  case bound =>
    simp only [card_add] at hb
    omega

theorem Represents.remove [DecidableEq I] [DecidableEq L] (h : Represents t M) :
    Represents (t.remove l count).2 (M - replicate count l) := by
  have hf := h.valid.findByLedgerID_at (l := l)
  unfold LedgerTrie.remove findByLedgerID
  -- without support for the ledger there is nothing to take away
  have hnone : M.count l = 0 → M - replicate count l = M := by
    intro h0
    rw [sub_replicate_min, h0]
    simp
  split at hf
  case h_2 he =>
    rw [← count_eq_zero, h.count_eq] at hf
    rw [he, hnone hf]
    exact h
  case h_1 p he =>
    obtain ⟨m, hm⟩ := hf
    have htip : m.tipSupport = M.count l := by rw [hm.tipSupport_eq h.valid, h.count_eq]
    simp only [he, hm.get?_eq]
    by_cases h0 : m.tipSupport = 0
    case pos =>
      rw [if_pos h0, hnone (htip ▸ h0)]
      exact h
    rw [if_neg h0, sub_replicate_min, ← htip]
    apply Represents.removeAt _ hm (by omega)
    rw [Multiset.sub_add_cancel]
    · exact h
    · rw [← le_count_iff_replicate_le]
      omega

end LedgerTrie
