import Bixd.Consensus.LedgerTrie.Theorems.Represents
import Bixd.Consensus.LedgerTrie.Chain

namespace LedgerTrie

open Ledger

-- The runs of the trie, with the multiset of the supported ledgers. The total support stays below
-- `2 ^ 32`; `getPreferred` counts as a call as it sorts children.
inductive Reachable {L I : Type} [Ledger L I] [LinearOrder I] [DecidableEq L] :
    LedgerTrie L → Multiset L → Prop
  | empty : Reachable empty 0
  | insert {t : LedgerTrie L} {M : Multiset L} (l : L) (count : Nat) :
    Reachable t M → 1 ≤ count → M.card + count < 2 ^ 32 →
    Reachable (t.insert l count) (M + Multiset.replicate count l)
  | remove {t : LedgerTrie L} {M : Multiset L} (l : L) (count : Nat) :
    Reachable t M →
    Reachable (t.remove l count).2 (M - Multiset.replicate count l)
  | getPreferred {t : LedgerTrie L} {M : Multiset L} (ps : PartialSort L) (largestIssued : Nat) :
    Reachable t M →
    Reachable (t.getPreferred ps largestIssued).2 M

variable {L I : Type} [Ledger L I]

namespace Node

variable {n : Node L}

-- `n'` is `n` up to the order of the children at the nodes.
structure Reordered (anc : List I) (par : Option Nat) (n n' : Node L) : Prop where
  valid   : Valid anc par n'
  words   : n'.words = n.words
  span    : n'.span = n.span
  addr    : n'.addr = n.addr
  compact : n.Compact → n'.Compact

theorem Valid.reordered (h : Valid anc par n) : Reordered anc par n n :=
  ⟨h, rfl, rfl, rfl, id⟩

theorem Valid.reorder (h : Valid anc par n) {cs : List (Node L)} (hp : cs.Perm n.children) :
    Reordered anc par n { n with children := cs } where
  valid := .intro
    ⟨h.placed.start_eq, h.placed.start_lt, h.placed.end_le, h.placed.anc_eq, h.placed.parent_eq⟩
    (by rw [(hp.map branchSupport).sum_eq]; exact h.branch_eq)
    ((hp.map startID).nodup_iff.mpr h.nodup)
    (fun _ hc => h.child (hp.subset hc))
    (fun _ hc => h.compact (hp.subset hc))
  words := by rw [words_eq, words_eq n, wordsBelow_perm hp]; rfl
  span := rfl
  addr := rfl
  compact hk h0 := by simpa [hp.length_eq] using hk h0

theorem Reordered.trans (h₁ : Reordered anc par n m) (h₂ : Reordered anc par m n') :
    Reordered anc par n n' where
  valid := h₂.valid
  words := h₂.words.trans h₁.words
  span := h₂.span.trans h₁.span
  addr := h₂.addr.trans h₁.addr
  compact h := h₂.compact (h₁.compact h)

theorem Valid.reordered_head (h : Valid anc par n) (hcs : n.children = c :: cs)
    (hc : Reordered n.word (some n.addr) c c') :
    Reordered anc par n { n with children := c' :: cs } where
  valid := by
    have hcs : n.children = [] ++ c :: cs := hcs
    refine h.replace hcs hc.valid ?_ (hc.compact (h.compact (by simp [hcs]))) ?_
    · simp only [startID, hc.span]
    · have hv := h.child (c := c) (by simp [hcs])
      rw [← hv.card_words, ← hc.valid.card_words, hc.words]
  words := by rw [words_eq, words_eq n, hcs, wordsBelow_cons, wordsBelow_cons, hc.words]; rfl
  span := rfl
  addr := rfl
  compact hk h0 := by simpa [hcs] using hk h0

theorem Valid.preferred_reordered [LinearOrder I] (h : Valid anc par n) (ps : PartialSort L)
    (largestIssued uncommitted : Nat) (it : List (Nat × Nat)) :
    Reordered anc par n (n.preferred ps largestIssued uncommitted it).2 := by
  induction h generalizing uncommitted it
  case intro anc par n hp hb hn hv hk ih =>
    have h : Valid anc par n := .intro hp hb hn hv hk
    rw [preferred]
    dsimp only
    split
    case isTrue => exact h.reordered
    split
    case h_1 => exact h.reordered
    case h_2 best hcs =>
      split
      case isTrue => exact h.reordered_head hcs (ih best (by simp [hcs]) ..)
      case isFalse => exact h.reordered
    case h_3 =>
      have hs := h.reorder (ps.perm n.children)
      split
      case h_1 best second rest hcs =>
        rw [hcs] at hs
        have hm : best ∈ n.children := (ps.perm n.children).subset (by simp [hcs])
        split
        case isTrue => exact hs.trans <| hs.valid.reordered_head rfl (ih best hm ..)
        case isFalse => exact hs
      case h_2 => exact hs

end Node

variable {t : LedgerTrie L} {M : Multiset L}

theorem Represents.getPreferred [LinearOrder I] (h : Represents t M) (ps : PartialSort L)
    (largestIssued : Nat) : Represents (t.getPreferred ps largestIssued).2 M := by
  unfold LedgerTrie.getPreferred
  split
  case isTrue => exact h
  case isFalse =>
    have hr := h.valid.preferred_reordered ps largestIssued 0 t.seqSupport.toList
    exact ⟨hr.valid, hr.span ▸ h.root_end, hr.words.trans h.words, h.seqs, h.bound⟩

theorem Reachable.represents [LinearOrder I] [DecidableEq L] (h : Reachable t M) :
    Represents t M := by
  induction h
  case empty => exact represents_empty
  case insert h0 hb ih => exact ih.insert h0 hb
  case remove ih => exact ih.remove
  case getPreferred ps largestIssued _ ih => exact ih.getPreferred ps largestIssued

-- The nodes of the trie below a node, and the node itself.
inductive Node.Below (n : Node L) : Node L → Prop
  | refl : Below n n
  | child {m c : Node L} : Below n m → c ∈ m.children → Below n c

theorem Node.Valid.of_below {n : Node L} (h : Valid anc par n)
    (hm : Below n m) : ∃ anc par, Valid anc par m := by
  induction hm
  case refl => exact ⟨_, _, h⟩
  case child hc ih =>
    have ⟨_, _, hv⟩ := ih
    exact ⟨_, _, hv.child hc⟩

-- `a` is the ledger `l` or descends from it.
def Ledger.Extends (l a : L) : Prop :=
  seq l ≤ seq a ∧ ancestor a (seq l) = Ledger.id l

instance [DecidableEq I] (l : L) : DecidablePred (Ledger.Extends l) :=
  fun _ => inferInstanceAs (Decidable (_ ∧ _))

theorem Ledger.extends_iff_isPrefix {l : L} : Extends l a ↔ word l <+: word a := by
  constructor
  case mp =>
    intro ⟨hle, he⟩
    rw [word, word, hist_prefix_hist_iff (by omega)]
    exact hist_eq_of_ancestor (le_refl _) hle he.symm
  case mpr =>
    intro hp
    have hle := hp.length_le
    simp only [length_word] at hle
    rw [word, word, hist_prefix_hist_iff (by omega), hist_eq_iff] at hp
    exact ⟨by omega, (hp _ (by omega)).symm⟩

end LedgerTrie
