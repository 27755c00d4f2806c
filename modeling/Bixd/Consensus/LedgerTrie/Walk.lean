import Bixd.Consensus.LedgerTrie

namespace LedgerTrie

open Ledger

variable {L I : Type} [Ledger L I] [LinearOrder I]

-- The preferred ledger sequence by sequence, for a multiset of supported ledgers and without
-- regard to how a trie stores it.
namespace Walk

section Definitions

variable (M : Multiset L)

-- The ledger `i` at `s + 1` extends the ledger `p` at `s`, and some entry supports it.
def Supported (s : Nat) (p i : I) : Prop :=
  ∃ l ∈ M, s < seq l ∧ ancestor l s = p ∧ ancestor l (s + 1) = i

-- The branch support of the ledger `i` at `s`.
def support (s : Nat) (i : I) : Nat :=
  M.countP fun l => s ≤ seq l ∧ ancestor l s = i

def uncommitted (largestIssued s : Nat) : Nat :=
  M.countP fun l => seq l < max s largestIssued

def Better (s : Nat) (j i : I) : Prop :=
  support M s j < support M s i ∨ support M s j = support M s i ∧ j < i

def Best (s : Nat) (p i : I) : Prop :=
  Supported M s p i ∧ ∀ j, Supported M s p j → j ≠ i → Better M (s + 1) j i

def RunnerUp (s : Nat) (p i j : I) : Prop :=
  Supported M s p j ∧ j ≠ i ∧ ∀ k, Supported M s p k → k ≠ i → k ≠ j → Better M (s + 1) k j

def Margin (s : Nat) (p i : I) (m : Nat) : Prop :=
  (∀ j, Supported M s p j → j = i) ∧ m = support M (s + 1) i ∨
  ∃ j, RunnerUp M s p i j ∧ m = support M (s + 1) i - support M (s + 1) j + if j < i then 1 else 0

-- The walk standing on a ledger, given by its sequence number and id, goes on to the best of the
-- ledgers that extend it.
def Advance (largestIssued : Nat) (x y : Nat × I) : Prop :=
  y.1 = x.1 + 1 ∧ Best M x.1 x.2 y.2 ∧ ∃ m, Margin M x.1 x.2 y.2 m ∧
    (uncommitted M largestIssued y.1 < m ∨ uncommitted M largestIssued y.1 = 0)

-- The walk from the ledger `x` ends with the ledger `z`.
def Ends (largestIssued : Nat) (x z : Nat × I) : Prop :=
  Relation.ReflTransGen (Advance M largestIssued) x z ∧ ∀ y, ¬Advance M largestIssued z y

end Definitions

variable {M : Multiset L} {largestIssued s : Nat}

theorem Better.asymm (h : Better M s i j) : ¬Better M s j i := by
  intro h'
  match h, h' with
  | .inl h, .inl h' => omega
  | .inl h, .inr ⟨h', _⟩ => omega
  | .inr ⟨h, _⟩, .inl h' => omega
  | .inr ⟨_, h⟩, .inr ⟨_, h'⟩ => exact absurd h' (lt_asymm h)

theorem Best.unique (hi : Best M s p i) (hj : Best M s p j) : i = j := by
  by_contra hne
  exact (hi.right j hj.left (Ne.symm hne)).asymm <| hj.right i hi.left hne

theorem Advance.unique (hy : Advance M largestIssued x y)
    (hz : Advance M largestIssued x z) : y = z :=
  Prod.ext (hy.1.trans hz.1.symm) (hy.2.1.unique hz.2.1)

theorem Ends.unique (hy : Ends M largestIssued x y) (hz : Ends M largestIssued x z) : y = z := by
  have hu : Relator.RightUnique (Advance M largestIssued) := fun _ _ _ h h' => h.unique h'
  match Relation.ReflTransGen.total_of_right_unique hu hy.left hz.left with
  | .inl h =>
    match h.cases_head with
    | .inl h => exact h
    | .inr ⟨_, h, _⟩ => exact absurd h (hy.right _)
  | .inr h =>
    match h.cases_head with
    | .inl h => exact h.symm
    | .inr ⟨_, h, _⟩ => exact absurd h (hz.right _)

theorem Ends.head (h : Relation.ReflTransGen (Advance M largestIssued) x y)
    (hy : Ends M largestIssued y z) : Ends M largestIssued x z :=
  ⟨h.trans hy.left, hy.right⟩

-- A ledger with one way on: the walk takes it if the support of the ledger exceeds the uncommitted
-- support.
theorem advance_iff_of_unique (h : ∀ j, Supported M s p j ↔ j = i) :
    Advance M largestIssued (s, p) y ↔
      y = (s + 1, i) ∧ (uncommitted M largestIssued (s + 1) < support M (s + 1) i ∨
        uncommitted M largestIssued (s + 1) = 0) := by
  constructor
  case mp =>
    intro ⟨hs, hb, m, hm, hu⟩
    have hi : y.2 = i := (h y.2).mp hb.left
    refine ⟨Prod.ext hs hi, ?_⟩
    rw [hs] at hu
    match hm with
    | .inl ⟨_, hm⟩ =>
      rw [hm, hi] at hu
      exact hu
    | .inr ⟨j, ⟨hj, hne, _⟩, _⟩ => exact absurd ((h j).mp hj |>.trans hi.symm) hne
  case mpr =>
    intro ⟨hy, hu⟩
    subst hy
    refine ⟨rfl, ⟨(h i).mpr rfl, ?_⟩, _, .inl ⟨fun j => (h j).mp, rfl⟩, hu⟩
    exact fun j hj hne => absurd ((h j).mp hj) hne

theorem RunnerUp.unique (hj : RunnerUp M s p i j) (hk : RunnerUp M s p i k) : j = k := by
  by_contra hne
  exact (hj.2.2 k hk.1 hk.2.1 (Ne.symm hne)).asymm <| hk.2.2 j hj.1 hj.2.1 hne

theorem advance_iff_of_runnerUp (hb : Best M s p i) (hr : RunnerUp M s p i j) :
    Advance M largestIssued (s, p) y ↔
      y = (s + 1, i) ∧
        (uncommitted M largestIssued (s + 1) <
          support M (s + 1) i - support M (s + 1) j + (if j < i then 1 else 0) ∨
        uncommitted M largestIssued (s + 1) = 0) := by
  constructor
  case mp =>
    intro ⟨hs, hb', m, hm, hu⟩
    obtain rfl : y.2 = i := hb'.unique hb
    refine ⟨Prod.ext hs rfl, ?_⟩
    rw [hs] at hu
    match hm with
    | .inl ⟨h, _⟩ => exact absurd (h j hr.1) hr.2.1
    | .inr ⟨k, hk, hm⟩ =>
      obtain rfl : k = j := hk.unique hr
      rw [hm] at hu
      exact hu
  case mpr =>
    intro ⟨hy, hu⟩
    subst hy
    exact ⟨rfl, hb, _, .inr ⟨j, hr, rfl⟩, hu⟩

end Walk

end LedgerTrie
