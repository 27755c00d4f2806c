import Mathlib

open List

-- A map that is iterated in the order of its keys: an association list that is sorted by them.
structure OrderedMap (K V : Type) [LT K] where
  entries : List (Sigma fun _ : K => V)
  sorted  : entries.Pairwise (·.1 < ·.1)

namespace OrderedMap

variable {K V W : Type} [LinearOrder K] {m m' : OrderedMap K V} {k k' : K} {v : V}

def empty : OrderedMap K V :=
  ⟨[], .nil⟩

instance : EmptyCollection (OrderedMap K V) :=
  ⟨empty⟩

def find? (m : OrderedMap K V) (k : K) : Option V :=
  m.entries.dlookup k

def toList (m : OrderedMap K V) : List (K × V) :=
  m.entries.map fun e => (e.1, e.2)

def keys (m : OrderedMap K V) : List K :=
  m.entries.keys

def size (m : OrderedMap K V) : Nat :=
  m.entries.length

def insert.go (k : K) (v : V) : List (Sigma fun _ : K => V) → List (Sigma fun _ : K => V)
  | []      => [⟨k, v⟩]
  | e :: es =>
    if k < e.1 then ⟨k, v⟩ :: e :: es else if k = e.1 then ⟨k, v⟩ :: es else e :: insert.go k v es

theorem insert.mem_go {es} (h : e ∈ insert.go k v es) : (e = ⟨k, v⟩) ∨ (e ∈ es) := by
  induction es
  case nil => exact .inl (mem_singleton.mp h)
  case cons e' es hi =>
    rw [go] at h
    split_ifs at h
    case pos => exact mem_cons.mp h
    case pos => exact (mem_cons.mp h).imp_right (mem_cons_of_mem _)
    obtain rfl | h := mem_cons.mp h
    case inl => exact .inr mem_cons_self
    case inr => exact (hi h).imp_right (mem_cons_of_mem _)

theorem insert.sorted_go {es : List (Sigma fun _ : K => V)} (h : es.Pairwise (·.1 < ·.1)) :
    (insert.go k v es).Pairwise (·.1 < ·.1) := by
  induction h
  case nil => exact pairwise_singleton _ _
  case cons e es he hs hi =>
    rw [go]
    split_ifs with hlt heq
    case pos =>
      refine .cons (fun e' he' => ?_) (.cons he hs)
      obtain rfl | he' := mem_cons.mp he'
      case inl => exact hlt
      case inr => exact hlt.trans (he e' he')
    case pos => exact .cons (fun e' he' => heq ▸ he e' he') hs
    case neg =>
      refine .cons (fun e' he' => ?_) hi
      obtain rfl | he' := insert.mem_go he'
      case inl => exact lt_of_le_of_ne (not_lt.mp hlt) (Ne.symm heq)
      case inr => exact he e' he'

-- Adds an entry, or replaces the one that there is.
def insert (m : OrderedMap K V) (k : K) (v : V) : OrderedMap K V :=
  ⟨insert.go k v m.entries, insert.sorted_go m.sorted⟩

def erase (m : OrderedMap K V) (k : K) : OrderedMap K V :=
  ⟨m.entries.kerase k, m.sorted.sublist (kerase_sublist k _)⟩

-- The first key above `k` with a value that satisfies `p`.
def firstAbove (m : OrderedMap K V) (k : K) (p : V → Bool) : Option K :=
  (m.entries.find? fun e => k < e.1 ∧ p e.2).map Sigma.fst

theorem nodupKeys (m : OrderedMap K V) : m.entries.NodupKeys :=
  nodupKeys_iff_pairwise.mpr (m.sorted.imp ne_of_lt)

@[simp]
theorem find?_empty (k : K) : (∅ : OrderedMap K V).find? k = none :=
  rfl

theorem mem_entries : (⟨k, v⟩ ∈ m.entries) ↔ m.find? k = some v :=
  (mem_dlookup_iff m.nodupKeys).symm

theorem mem_toList : (k, v) ∈ m.toList ↔ m.find? k = some v := by
  rw [← mem_entries]
  constructor
  case mp =>
    intro h
    have ⟨e, he, hk⟩ := mem_map.mp h
    cases hk
    exact he
  case mpr => exact fun h => mem_map.mpr ⟨_, h, rfl⟩

theorem mem_keys : k ∈ m.keys ↔ (m.find? k).isSome :=
  dlookup_isSome.symm

theorem keys_toList (m : OrderedMap K V) : m.toList.map Prod.fst = m.keys := by
  rw [toList, map_map]
  rfl

theorem nodup_keys (m : OrderedMap K V) : m.keys.Nodup :=
  m.nodupKeys

theorem length_keys (m : OrderedMap K V) : m.keys.length = m.size :=
  length_map ..

theorem insert.dlookup_go :
    (insert.go k v es).dlookup k' = if k' = k then some v else es.dlookup k' := by
  induction es
  case nil =>
    by_cases h : k' = k
    case pos => subst h; simp [go]
    case neg => simp [go, h, dlookup_cons_ne]
  case cons e es hi =>
    have ⟨k₀, v₀⟩ := e
    by_cases h : k' = k
    case pos =>
      subst h
      rw [if_pos rfl] at hi ⊢
      rw [go]
      split_ifs with hlt heq
      · simp
      · simp
      · rw [dlookup_cons_ne _ _ heq, hi]
    case neg =>
      rw [if_neg h] at hi ⊢
      rw [go]
      split_ifs with hlt heq
      · rw [dlookup_cons_ne _ _ h]
      · dsimp only at heq
        subst heq
        rw [dlookup_cons_ne _ _ h, dlookup_cons_ne _ _ h]
      · by_cases h₀ : k' = k₀
        case pos => subst h₀; simp
        case neg => rw [dlookup_cons_ne _ _ h₀, dlookup_cons_ne _ _ h₀, hi]

theorem find?_insert (m : OrderedMap K V) (k k' : K) (v : V) :
    (m.insert k v).find? k' = if k' = k then some v else m.find? k' :=
  insert.dlookup_go

theorem find?_erase (m : OrderedMap K V) (k k' : K) :
    (m.erase k).find? k' = if k' = k then none else m.find? k' := by
  split
  case isTrue h => exact h ▸ dlookup_kerase k m.nodupKeys
  case isFalse h => exact dlookup_kerase_ne h

@[ext]
theorem ext (h : ∀ k, m.find? k = m'.find? k) : m = m' := by
  have hp := lookup_ext m.nodupKeys m'.nodupKeys fun k v => by
      rw [show m.entries.dlookup k = m'.entries.dlookup k from h k]
  have he := hp.eq_of_pairwise
    (fun _ _ _ _ hab hba => absurd hab (not_lt.mpr hba.le)) m.sorted m'.sorted
  cases m
  cases m'
  cases he
  rfl

theorem sorted_toList (m : OrderedMap K V) : m.toList.Pairwise (·.1 < ·.1) :=
  pairwise_map.mpr m.sorted

theorem nodup_toList (m : OrderedMap K V) : m.toList.Nodup :=
  m.sorted_toList.imp fun h he => absurd (congrArg Prod.fst he) h.ne

theorem toList_eq {l : List (K × V)} (hs : l.Pairwise (·.1 < ·.1))
    (h : ∀ k v, (k, v) ∈ l ↔ m.find? k = some v) : m.toList = l := by
  have hn : l.Nodup := hs.imp fun h he => absurd (congrArg Prod.fst he) h.ne
  have hp := (perm_ext_iff_of_nodup m.nodup_toList hn).mpr fun e => by
    rw [h, mem_toList]
  exact hp.eq_of_pairwise (fun _ _ _ _ hab hba => absurd hab (not_lt.mpr hba.le)) m.sorted_toList hs

theorem toList_insert_of_lt (h : ∀ n ∈ m.keys, n < k) :
    (m.insert k v).toList = m.toList ++ [(k, v)] := by
  refine toList_eq ?_ fun n x => ?_
  · refine pairwise_append.mpr ⟨m.sorted_toList, pairwise_singleton _ _, ?_⟩
    rintro ⟨n, x⟩ hn _ he
    obtain rfl := mem_singleton.mp he
    exact h n (mem_keys.mpr (Option.isSome_iff_exists.mpr ⟨x, mem_toList.mp hn⟩))
  · rw [mem_append, mem_singleton, mem_toList, find?_insert]
    by_cases hn : n = k
    case pos =>
      have hk := Option.not_isSome_iff_eq_none.mp fun hs =>
        absurd (h k (mem_keys.mpr hs)) (lt_irrefl k)
      subst hn
      simp [hk, eq_comm]
    case neg => simp [hn]

theorem toList_split (h : m.find? k = some v) : ∃ l r, (m.toList = l ++ (k, v) :: r) ∧
    (∀ v', (m.insert k v').toList = l ++ (k, v') :: r) ∧ ((m.erase k).toList = l ++ r) ∧
    (∀ e ∈ l, e.1 < k) ∧ (∀ e ∈ r, k < e.1) := by
  have ⟨l, r, hlr⟩ := append_of_mem (mem_toList.mpr h)
  have hs := m.sorted_toList
  rw [hlr, pairwise_append, pairwise_cons] at hs
  have ⟨hl, ⟨hkr, hr⟩, hlkr⟩ := hs
  have hlk (e : K × V) (he : e ∈ l) : e.1 < k := hlkr e he _ (mem_cons_self ..)
  have hmem (n : K) (x : V) : (n, x) ∈ l ∨ (n, x) = (k, v) ∨ (n, x) ∈ r ↔ m.find? n = some x := by
    rw [← mem_toList, hlr, mem_append, mem_cons]
  refine ⟨l, r, hlr, fun v' => toList_eq ?_ fun n x => ?_, toList_eq ?_ fun n x => ?_, hlk, hkr⟩
  · refine pairwise_append.mpr ⟨hl, pairwise_cons.mpr ⟨hkr, hr⟩, fun a ha b hb => ?_⟩
    obtain rfl | hb := mem_cons.mp hb
    case inl => exact hlk a ha
    case inr => exact (hlk a ha).trans (hkr b hb)
  · rw [mem_append, mem_cons, find?_insert]
    split
    case isTrue hn =>
      subst hn
      have h₁ : (n, x) ∉ l := fun h => lt_irrefl _ (hlk _ h)
      have h₂ : (n, x) ∉ r := fun h => lt_irrefl n (hkr (n, x) h)
      simp [h₁, h₂, eq_comm]
    case isFalse hn =>
      rw [← hmem]
      simp [hn]
  · exact pairwise_append.mpr ⟨hl, hr, fun a ha b hb => (hlk a ha).trans (hkr b hb)⟩
  · rw [mem_append, find?_erase]
    split
    case isTrue hn =>
      subst hn
      have h₁ : (n, x) ∉ l := fun h => lt_irrefl _ (hlk _ h)
      have h₂ : (n, x) ∉ r := fun h => lt_irrefl n (hkr (n, x) h)
      simp [h₁, h₂]
    case isFalse hn =>
      rw [← hmem]
      simp [hn]

theorem getLast?_toList_eq_none : m.toList.getLast? = none ↔ m = ∅ := by
  rw [getLast?_eq_none_iff]
  constructor
  case mp =>
    intro h
    refine ext fun k => ?_
    refine Option.eq_none_iff_forall_ne_some.mpr fun v hv => ?_
    have hm := mem_toList.mpr hv
    rw [h] at hm
    cases hm
  case mpr => exact fun h => h ▸ rfl

theorem getLast?_toList_eq_some (h : m.toList.getLast? = some (k, v)) :
    m.find? k = some v ∧ ∀ n, (m.find? n).isSome → n ≤ k := by
  have ⟨l, hl⟩ := getLast?_eq_some_iff.mp h
  have hmem := mem_of_getLast? h
  refine ⟨mem_toList.mp hmem, fun n hn => ?_⟩
  have ⟨x, hx⟩ := Option.isSome_iff_exists.mp hn
  have hx := mem_toList.mpr hx
  have hs := m.sorted_toList
  rw [hl] at hx hs
  obtain hx | hx := mem_append.mp hx
  case inl => exact ((pairwise_append.mp hs).right.right _ hx _ (mem_singleton_self _)).le
  case inr => exact (congrArg Prod.fst (mem_singleton.mp hx)).le

theorem head?_toList_eq_some (h : m.toList.head? = some (k, v)) :
    m.find? k = some v ∧ ∀ n w, m.find? n = some w → k ≤ n := by
  have ⟨t, ht⟩ := head?_eq_some_iff.mp h
  have hs := m.sorted_toList
  rw [ht] at hs
  refine ⟨mem_toList.mp (ht ▸ mem_cons_self), fun n w hw => ?_⟩
  obtain he | hm := mem_cons.mp (ht ▸ mem_toList.mpr hw)
  case inl => exact (congrArg Prod.fst he).symm.le
  case inr => exact ((pairwise_cons.mp hs).1 _ hm).le

theorem exists_head?_toList (h : m.find? k = some v) : ∃ e, m.toList.head? = some e := by
  cases ht : m.toList
  case nil => exact absurd (ht ▸ mem_toList.mpr h) not_mem_nil
  case cons e t => exact ⟨e, rfl⟩

theorem perm_erase (h : m.find? k = some v) : m.toList.Perm ((k, v) :: (m.erase k).toList) := by
  have hk : (k, v) ∉ (m.erase k).toList := by simp [mem_toList, find?_erase]
  have hn : ((k, v) :: (m.erase k).toList).Nodup := .cons hk (m.erase k).nodup_toList
  refine (perm_ext_iff_of_nodup m.nodup_toList hn).mpr fun ⟨n, x⟩ => ?_
  rw [mem_cons, mem_toList, mem_toList, find?_erase]
  by_cases hn : n = k
  case pos =>
    subst hn
    simp [h, eq_comm]
  case neg => simp [hn]

theorem firstAbove_eq_none : m.firstAbove k p = none ↔
    ∀ n v, k < n → m.find? n = some v → p v = false := by
  simp only [firstAbove, Option.map_eq_none_iff, find?_eq_none, decide_eq_true_eq, not_and,
    Bool.not_eq_true]
  constructor
  case mp => exact fun h n v hn hv => h ⟨n, v⟩ (mem_entries.mpr hv) hn
  case mpr => exact fun h e he hn => h e.1 e.2 hn (mem_entries.mp he)

theorem firstAbove_eq_some (h : m.firstAbove k p = some n) :
    k < n ∧ (∃ v, (m.find? n = some v) ∧ p v) ∧
      ∀ n' v, k < n' → n' < n → m.find? n' = some v → p v = false := by
  have ⟨e, he, hn⟩ := Option.map_eq_some_iff.mp h
  have ⟨hp, as, bs, hes, has⟩ := find?_eq_some_iff_append.mp he
  subst hn
  rw [decide_eq_true_eq] at hp
  have hm : e ∈ m.entries := by rw [hes]; simp
  refine ⟨hp.left, ⟨e.2, mem_entries.mp hm, hp.right⟩, fun n' v hk hlt hv => ?_⟩
  have hm' := mem_entries.mpr hv
  have hs := m.sorted
  rw [hes] at hm' hs
  obtain hm' | hm' := mem_append.mp hm'
  case inl =>
    have hf := has _ hm'
    simp only [hk, true_and, Bool.decide_eq_true, Bool.not_eq_true'] at hf
    exact hf
  case inr =>
    -- What comes after the entry has greater keys.
    obtain rfl | hm' := mem_cons.mp hm'
    case inl => exact absurd hlt (lt_irrefl _)
    case inr =>
      have hb := rel_of_pairwise_cons (pairwise_append.mp hs).right.left hm'
      exact absurd (hb.trans hlt) (lt_irrefl _)

theorem insert_comm (h : k ≠ k') : (m.insert k x).insert k' y = (m.insert k' y).insert k x := by
  refine ext fun n => ?_
  simp only [find?_insert]
  by_cases hk : n = k
  case pos => rw [if_pos hk, if_pos hk, if_neg (hk ▸ h)]
  case neg => rw [if_neg hk, if_neg hk]

theorem filter_toList_insert (hn : m.find? k = none) (hP : ¬P (k, x)) :
    (m.insert k x).toList.filter P = m.toList.filter P := by
  have hs (m : OrderedMap K V) : (m.toList.filter P).Pairwise (·.1 < ·.1) :=
    m.sorted_toList.sublist filter_sublist
  have hnodup (m : OrderedMap K V) : (m.toList.filter P).Nodup := m.nodup_toList.filter _
  have hp : ((m.insert k x).toList.filter P).Perm (m.toList.filter P) := by
    refine (perm_ext_iff_of_nodup (hnodup _) (hnodup _)).mpr fun ⟨n, y⟩ => ?_
    rw [mem_filter, mem_filter, mem_toList, mem_toList, find?_insert]
    by_cases hk : n = k
    case pos =>
      subst hk
      rw [if_pos rfl, hn]
      refine ⟨fun ⟨hy, hPy⟩ => ?_, nofun⟩
      cases hy
      exact absurd hPy hP
    case neg => rw [if_neg hk]
  exact hp.eq_of_pairwise (fun _ _ _ _ h h' => absurd h' h.asymm) (hs _) (hs _)

end OrderedMap
