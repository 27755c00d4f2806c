import Mathlib

open List AList Multiset

-- A map whose keys are iterated in no particular order: an association list without duplicate
-- keys.
def HashMap (K V : Type) :=
  AList fun _ : K => V

namespace HashMap

variable {K V : Type} {m : HashMap K V} {k : K} {v : V}

def empty : HashMap K V :=
  (∅ : AList fun _ : K => V)

instance : EmptyCollection (HashMap K V) :=
  ⟨empty⟩

def keys (m : HashMap K V) : List K :=
  AList.keys m

def toList (m : HashMap K V) : List (K × V) :=
  m.entries.map fun e => (e.1, e.2)

def values (m : HashMap K V) : Multiset V :=
  (m.entries.map fun e => e.2 : List V)

def size (m : HashMap K V) : Nat :=
  m.keys.length

-- Applies a function to each value.
def mapVal (f : V → V) (m : HashMap K V) : HashMap K V :=
  ⟨m.entries.map (.map id fun _ => f), by
    rw [List.NodupKeys, map₂_keys]
    exact m.nodupKeys⟩

-- Applies a function to each key and its value.
def mapKey (f : K → V → V) (m : HashMap K V) : HashMap K V :=
  ⟨m.entries.map fun e => ⟨e.1, f e.1 e.2⟩, by
    have h := m.nodupKeys
    rw [List.NodupKeys, List.keys] at h ⊢
    rwa [List.map_map]⟩

theorem keys_nodup (m : HashMap K V) : m.keys.Nodup :=
  AList.keys_nodup m

@[simp]
theorem values_empty : values (∅ : HashMap K V) = 0 :=
  rfl

theorem card_values (m : HashMap K V) : m.values.card = m.keys.length := by
  simp [values, keys, AList.keys, List.keys]

theorem keys_toList (m : HashMap K V) : m.toList.map Prod.fst = m.keys := by
  simp [toList, keys, AList.keys, List.keys, Function.comp_def]

variable [DecidableEq K]

def find? (m : HashMap K V) (k : K) : Option V :=
  AList.lookup k m

def insert (m : HashMap K V) (k : K) (v : V) : HashMap K V :=
  AList.insert k v m

def erase (m : HashMap K V) (k : K) : HashMap K V :=
  AList.erase k m

@[simp]
theorem find?_empty (k : K) : (∅ : HashMap K V).find? k = none :=
  rfl

theorem find?_insert (m : HashMap K V) (k k' : K) (v : V) :
    (m.insert k v).find? k' = if k' = k then some v else m.find? k' := by
  split
  case isTrue h => exact h ▸ lookup_insert m
  case isFalse h => exact lookup_insert_ne h

theorem find?_erase (m : HashMap K V) (k k' : K) :
    (m.erase k).find? k' = if k' = k then none else m.find? k' := by
  split
  case isTrue h => exact h ▸ lookup_erase k m
  case isFalse h => exact lookup_erase_ne h

theorem find?_mapVal (f : V → V) (m : HashMap K V) (k : K) :
    (m.mapVal f).find? k = (m.find? k).map f :=
  dlookup_map₂ k

theorem find?_mapKey (f : K → V → V) (m : HashMap K V) (k : K) :
    (m.mapKey f).find? k = (m.find? k).map (f k) := by
  simp only [find?, mapKey, AList.lookup]
  induction m.entries
  case nil => rfl
  case cons e es ih =>
    by_cases h : k = e.1
    case pos =>
      subst h
      rw [List.map_cons, dlookup_cons_eq, ← Sigma.eta e, dlookup_cons_eq]
      rfl
    case neg =>
      rw [List.map_cons, dlookup_cons_ne es e h, ← ih]
      exact dlookup_cons_ne _ (⟨e.1, f e.1 e.2⟩ : Sigma fun _ : K => V) h

theorem mem_keys_iff : k ∈ m.keys ↔ ∃ v, m.find? k = some v := by
  rw [← Option.isSome_iff_exists]
  exact lookup_isSome.symm

theorem mem_toList : (k, v) ∈ m.toList ↔ m.find? k = some v := by
  have h := mem_lookup_iff (a := k) (b := v) (s := m)
  rw [Option.mem_def] at h
  rw [find?, h, toList, List.mem_map]
  constructor
  case mp =>
    intro ⟨⟨_, _⟩, he, h⟩
    cases h
    exact he
  case mpr => exact fun h => ⟨_, h, rfl⟩

theorem values_insert (m : HashMap K V) (k : K) (v : V) :
    (m.insert k v).values = v ::ₘ (m.erase k).values :=
  rfl

theorem values_of_find? (h : m.find? k = some v) : m.values = v ::ₘ (m.erase k).values := by
  have h := mem_lookup_iff.mp h
  have ⟨b, l₁, l₂, _, hl, he⟩ := exists_of_kerase (mem_keys_of_mem h)
  obtain rfl : b = v := by
    have : ⟨k, b⟩ ∈ m.entries := by simp [hl]
    exact m.nodupKeys.eq_of_mk_mem this h
  have he : (m.erase k).entries = l₁ ++ l₂ := he
  simp only [values, he, hl, map_append, List.map_cons]
  rw [← coe_add, ← cons_coe, add_cons, coe_add]

theorem values_erase_of_find?_none (h : m.find? k = none) : (m.erase k).values = m.values := by
  have h := lookup_eq_none.mp h
  simp only [values, erase, AList.erase, kerase_of_notMem_keys h]

section

variable {p : V → Prop} [DecidablePred p]

theorem countP_erase (h : m.find? k = some v) :
    (m.erase k).values.countP p + (if p v then 1 else 0) = m.values.countP p := by
  rw [values_of_find? h, Multiset.countP_cons]

theorem countP_insert (v' : V) (h : m.find? k = some v) :
    (m.insert k v').values.countP p + (if p v then 1 else 0) =
      m.values.countP p + (if p v' then 1 else 0) := by
  rw [values_insert, Multiset.countP_cons, ← countP_erase h]
  exact Nat.add_right_comm ..

theorem countP_insert_of_none (h : m.find? k = none) :
    (m.insert k v).values.countP p = m.values.countP p + (if p v then 1 else 0) := by
  rw [values_insert, Multiset.countP_cons, values_erase_of_find?_none h]

theorem countP_pos_of_find? (h : m.find? k = some v) (hp : p v) : 0 < m.values.countP p := by
  rw [← countP_erase h, if_pos hp]
  exact Nat.succ_pos _

end

theorem card_values_le {ks : Finset K} (h : ∀ {k v}, m.find? k = some v → k ∈ ks) :
    m.values.card ≤ ks.card := by
  rw [card_values, ← toFinset_card_of_nodup m.keys_nodup]
  apply Finset.card_le_card
  intro k hk
  have ⟨_, hv⟩ := mem_keys_iff.mp (List.mem_toFinset.mp hk)
  exact h hv

end HashMap
