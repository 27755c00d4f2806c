import Bixd.Consensus.LedgerTrie

-- The meaning of the trie: ledger history is a string over the alphabet of ledger ids, and a node
-- stands for the strings of the ledgers that are supported at the node or below it.

namespace LedgerTrie

variable {L I : Type} [Ledger L I]

namespace Ledger

def hist (l : L) (n : Nat) : List I :=
  (List.range n).map (ancestor l)

def word (l : L) : List I :=
  hist l (seq l + 1)

@[simp]
theorem length_hist (l : L) (n : Nat) : (hist l n).length = n := by
  simp [hist]

@[simp]
theorem length_word (l : L) : (word l).length = seq l + 1 := by
  simp [word]

theorem hist_succ (l : L) (n : Nat) : hist l (n + 1) = hist l n ++ [ancestor l n] := by
  simp [hist, List.range_succ]

theorem hist_eq_iff {a b : L} : hist a n = hist b n ↔ ∀ p < n, ancestor a p = ancestor b p := by
  simp [hist, List.map_inj_left]

theorem hist_eq_of_le {a b : L} (h : hist a n = hist b n) (hm : m ≤ n) : hist a m = hist b m :=
  hist_eq_iff.mpr fun p hp => hist_eq_iff.mp h p (by omega)

theorem hist_isPrefix (l : L) (h : m ≤ n) : hist l m <+: hist l n := by
  induction h
  case refl => exact List.prefix_rfl
  case step n _ ih => exact hist_succ l n ▸ ih.trans (List.prefix_append ..)

theorem hist_prefix_word (l : L) (h : n ≤ seq l + 1) : hist l n <+: word l :=
  hist_isPrefix l h

theorem hist_prefix_hist_iff {a b : L} (h : m ≤ n) :
    hist a m <+: hist b n ↔ hist a m = hist b m where
  mp hp := (List.prefix_of_prefix_length_le hp (hist_isPrefix b h) (by simp)).eq_of_length (by simp)
  mpr he := he ▸ hist_isPrefix b h

theorem hist_eq_of_ancestor {a b : L} (ha : s ≤ seq a) (hb : s ≤ seq b)
    (h : ancestor a s = ancestor b s) : hist a (s + 1) = hist b (s + 1) :=
  hist_eq_iff.mpr fun _ hp => unique ha hb h (by omega)

theorem hist_eq_iff_mismatch {a b : L} (ha : n ≤ seq a + 1) (hb : n ≤ seq b + 1) :
    hist a n = hist b n ↔ n ≤ mismatch a b where
  mp h := by
    by_contra hlt
    have hm : mismatch a b ≤ min (seq a) (seq b) := by omega
    exact mismatch_ne hm <| hist_eq_iff.mp h _ (by omega)
  mpr h := hist_eq_iff.mpr fun _ hp => mismatch_eq (by omega)

theorem word_injective : Function.Injective (word (L := L)) := by
  intro a b h
  have hl : seq a = seq b := by simpa using congrArg List.length h
  simp only [word, hl] at h
  apply id_inj
  rw [hl]
  exact hist_eq_iff.mp h _ (by omega)

theorem mismatch_pos (a b : L) : 0 < mismatch a b := by
  by_contra h
  have h : mismatch a b = 0 := by omega
  apply mismatch_ne (a := a) (b := b) (by omega)
  rw [h, genesis_anc a, genesis_anc b]

end Ledger

open Ledger

namespace Node

def word (n : Node L) : List I :=
  hist n.span.ledger n.span.end

-- The history up to the first ledger of the node's span.
def stem (n : Node L) : List I :=
  hist n.span.ledger (n.span.start + 1)

mutual

def words : Node L → Multiset (List I)
  | ⟨_, span, tipSupport, _, children, _⟩ =>
    Multiset.replicate tipSupport (hist span.ledger span.end) + wordsBelow children

def wordsBelow : List (Node L) → Multiset (List I)
  | [] => 0
  | child :: rest => words child + wordsBelow rest

end

theorem words_eq (n : Node L) :
    n.words = Multiset.replicate n.tipSupport n.word + wordsBelow n.children := by
  cases n
  simp [words, word]

@[simp]
theorem wordsBelow_nil : wordsBelow (L := L) [] = 0 := by
  simp [wordsBelow]

@[simp]
theorem wordsBelow_cons (c : Node L) (cs : List (Node L)) :
    wordsBelow (c :: cs) = c.words + wordsBelow cs := by
  simp [wordsBelow]

@[simp]
theorem wordsBelow_append (cs ds : List (Node L)) :
    wordsBelow (cs ++ ds) = wordsBelow cs + wordsBelow ds := by
  induction cs
  case nil => simp
  case cons c cs ih => simp [ih, add_assoc]

theorem wordsBelow_perm {cs : List (Node L)} (h : cs.Perm ds) : wordsBelow cs = wordsBelow ds := by
  induction h
  case nil => rfl
  case cons ih => simp [ih]
  case swap c d cs => simp [add_left_comm]
  case trans ih₁ ih₂ => exact ih₁.trans ih₂

theorem mem_wordsBelow {cs : List (Node L)} : x ∈ wordsBelow cs ↔ ∃ c ∈ cs, x ∈ c.words := by
  induction cs
  case nil => simp
  case cons c cs ih => simp [ih]

-- A node that is not the root and has no tip support is needed only where the history branches.
def Compact (n : Node L) : Prop :=
  n.tipSupport = 0 → 2 ≤ n.children.length

-- The node stands in the trie below a node for the history `anc`, at the address `par`.
structure Placed (anc : List I) (par : Option Nat) (n : Node L) : Prop where
  start_eq  : n.span.start = anc.length
  start_lt  : n.span.start < n.span.end
  end_le    : n.span.end ≤ seq n.span.ledger + 1
  anc_eq    : hist n.span.ledger anc.length = anc
  parent_eq : n.parent = par

inductive Valid : List I → Option Nat → Node L → Prop
  | intro {anc : List I} {par : Option Nat} {n : Node L} :
    Placed anc par n →
    n.branchSupport = n.tipSupport + (n.children.map branchSupport).sum →
    (n.children.map startID).Nodup →
    (∀ c ∈ n.children, Valid n.word (some n.addr) c) →
    (∀ c ∈ n.children, c.Compact) →
    Valid anc par n

end Node
end LedgerTrie
