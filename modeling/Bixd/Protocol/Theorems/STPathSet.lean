import Bixd.Protocol.STObject
import Bixd.Protocol.Theorems.Serializer

open List Except

namespace STPathElement

open Serializer SerialIter

variable {e : STPathElement}

section OfValues

theorem ofValues_mType_account :
    ((ofValues account currency issuer force).mType &&& typeAccount ≠ 0) ↔ account ≠ 0 := by
  simp only [ofValues]
  split <;> split <;> split <;> simp_all <;> decide

theorem ofValues_mType_currency :
    ((ofValues account currency issuer force).mType &&& typeCurrency ≠ 0) ↔
      (force = true ∨ currency ≠ 0) := by
  simp only [ofValues]
  split <;> split <;> split <;> simp_all <;> decide

theorem ofValues_mType_issuer :
    ((ofValues account currency issuer force).mType &&& typeIssuer ≠ 0) ↔ issuer ≠ 0 := by
  simp only [ofValues]
  split <;> split <;> split <;> simp_all <;> decide

theorem ofValues_mType_all : (ofValues account currency issuer force).mType &&& ~~~typeAll = 0 := by
  simp only [ofValues]
  split <;> split <;> split <;> decide

theorem ofValues_mType_ne_boundary :
    (ofValues account currency issuer force).mType ≠ typeBoundary := by
  simp only [ofValues]
  split <;> split <;> split <;> decide

end OfValues

-- The type says which of the values are there.
def Derived (e : STPathElement) : Prop :=
  e = ofValues e.mAccountID e.mCurrencyID e.mIssuerID (e.mType &&& typeCurrency ≠ 0)

structure WellTyped (e : STPathElement) : Prop where
  nonzero : e.mType ≠ typeNone
  derived : e.Derived

theorem derived_ofValues : (ofValues account currency issuer force).Derived := by
  have hf : decide ((ofValues account currency issuer force).mType &&& typeCurrency ≠ 0) =
      decide (force = true ∨ currency ≠ 0) := by
    rw [decide_eq_decide]
    exact ofValues_mType_currency
  rw [Derived, hf]
  simp [ofValues]

theorem derived_of_ofSerialIter (h : ofSerialIter iType s = .ok (e, rest)) : e.Derived := by
  have ⟨_, _, h⟩ := bind_eq_ok.mp h
  have ⟨_, _, h⟩ := bind_eq_ok.mp h
  have ⟨_, _, h⟩ := bind_eq_ok.mp h
  cases h
  exact derived_ofValues

theorem optional_append (h : present = false → v = 0) :
    ofSerialIter.optional present ((if present then addBitString v else []) ++ rest) =
      .ok (v, rest) := by
  cases present
  case true => exact getBitString_addBitString (by decide)
  case false => rw [h rfl]; rfl

-- What follows an element's type when it is serialized.
def addValues (e : STPathElement) : Blob :=
  (if e.mType &&& typeAccount ≠ 0 then addBitString e.mAccountID else []) ++
  (if e.mType &&& typeCurrency ≠ 0 then addBitString e.mCurrencyID else []) ++
  (if e.mType &&& typeIssuer ≠ 0 then addBitString e.mIssuerID else [])

theorem add_eq : e.add = e.mType :: e.addValues := by
  simp [add, addValues, add8]

theorem ofSerialIter_addValues (h : e.Derived) :
    ofSerialIter e.mType (e.addValues ++ rest) = .ok (e, rest) := by
  have ha : (e.mType &&& typeAccount ≠ 0) ↔ e.mAccountID ≠ 0 := by
    rw [h]; exact ofValues_mType_account
  have hc : e.mCurrencyID ≠ 0 → (e.mType &&& typeCurrency ≠ 0) := by
    intro hc
    rw [h]
    exact ofValues_mType_currency.mpr (.inr hc)
  have hi : (e.mType &&& typeIssuer ≠ 0) ↔ e.mIssuerID ≠ 0 := by
    rw [h]; exact ofValues_mType_issuer
  have opt (p : Prop) [Decidable p] (v : BitVec 160) (s : Blob) (hv : v ≠ 0 → p) :
      ofSerialIter.optional (decide p) ((if p then addBitString v else []) ++ s) = .ok (v, s) := by
    have hz : decide p = false → v = 0 := by
      intro hp
      by_contra hn
      exact of_decide_eq_false hp (hv hn)
    have ho : ofSerialIter.optional (decide p) (_ ++ s) = .ok (v, s) := optional_append hz
    simpa using ho
  simp only [ofSerialIter, addValues, append_assoc]
  rw [opt _ _ _ ha.mpr, ok_bind]
  rw [opt _ _ _ hc, ok_bind]
  rw [opt _ _ _ hi.mpr, ok_bind]
  simp only [pure_eq_ok]
  rw [← h]

end STPathElement

namespace STPathSet

open Serializer SerialIter STPathElement ofSerialIter

def WellTyped (value : List STPath) : Prop :=
  value ≠ [] ∧ ∀ path ∈ value, path ≠ [] ∧ ∀ e ∈ path, e.WellTyped

theorem loop_element {e : STPathElement} (h : e.WellTyped) :
    loop (n + 1) path (e.add ++ s) = loop n (path ++ [e]) s := by
  have ha : e.mType &&& ~~~typeAll = 0 := by rw [h.derived]; exact ofValues_mType_all
  have hb : e.mType ≠ typeBoundary := by rw [h.derived]; exact ofValues_mType_ne_boundary
  rw [loop, add_eq, cons_append, get8_cons, ok_bind]
  simp only [h.nonzero, hb, or_self, if_false, ha, ne_eq, not_true_eq_false]
  rw [ofSerialIter_addValues h.derived, ok_bind]

theorem loop_path (h : ∀ e ∈ p, e.WellTyped) :
    loop (n + p.length) path (p.flatMap STPathElement.add ++ s) = loop n (path ++ p) s := by
  induction p generalizing path
  case nil => simp
  case cons e p hi =>
    rw [length_cons, ← Nat.add_assoc, flatMap_cons, append_assoc,
      loop_element (h e mem_cons_self), hi (fun e' he' => h e' (mem_cons_of_mem _ he')),
      append_assoc]
    rfl

theorem length_le_flatMap_add {p : STPath} : p.length ≤ (p.flatMap STPathElement.add).length := by
  induction p
  case nil => simp
  case cons e p hi =>
    rw [flatMap_cons, length_append, add_eq, length_cons, length_cons]
    omega

theorem loop_rest (hp : path ≠ []) (h : ∀ p ∈ value, p ≠ [] ∧ ∀ e ∈ p, e.WellTyped)
    (hn : (add.loop false value).length ≤ n) :
    loop n path (add.loop false value ++ rest) = .ok (path :: value, rest) := by
  have he : path.isEmpty = false := by simpa using hp
  induction value generalizing path n
  case nil =>
    obtain ⟨n, rfl⟩ : ∃ m, n = m + 1 := ⟨n - 1, by simp [add.loop, add8] at hn; omega⟩
    simp [add.loop, add8, loop, he]
  case cons p value hi =>
    have ⟨hp', ht⟩ := h p mem_cons_self
    have hl := length_le_flatMap_add (p := p)
    simp only [add.loop, add8, Bool.false_eq_true, if_false, append_assoc, length_append,
      length_singleton] at hn
    obtain ⟨m, rfl⟩ : ∃ m, n = (m + p.length) + 1 := ⟨n - 1 - p.length, by omega⟩
    have hv := hi (n := m) hp' (fun q hq => h q (mem_cons_of_mem _ hq)) (by omega) (by simpa using hp')
    simp [add.loop, add8, loop, he, typeNone, typeBoundary, loop_path ht, hv]

theorem ofSerialIter_add (h : WellTyped value) :
    ofSerialIter (add value ++ rest) = .ok (value, rest) := by
  obtain ⟨hn, h⟩ := h
  cases value
  case nil => exact absurd rfl hn
  case cons p value =>
    have ⟨hp, ht⟩ := h p mem_cons_self
    have hl := length_le_flatMap_add (p := p)
    have ha : add (p :: value) = p.flatMap STPathElement.add ++ add.loop false value := rfl
    have hf : (add (p :: value) ++ rest).length + 1 =
        ((add (p :: value) ++ rest).length + 1 - p.length) + p.length := by
      rw [ha, length_append, length_append]
      omega
    rw [ofSerialIter, hf, ha, append_assoc, loop_path ht, nil_append]
    apply loop_rest hp fun q hq => h q (mem_cons_of_mem _ hq)
    simp only [length_append]
    omega

-- The paths that are accepted: the type of an element is derived from its values, and is not
-- necessarily the type that was read.
def Derived (value : List STPath) : Prop :=
  value ≠ [] ∧ ∀ path ∈ value, path ≠ [] ∧ ∀ e ∈ path, e.Derived

theorem loop_derived (hp : ∀ e ∈ path, e.Derived) (h : loop n path s = .ok (value, rest)) :
    Derived value := by
  induction n generalizing path s value
  case zero => cases h
  case succ n hi =>
    have ⟨⟨iType, s₁⟩, _, h⟩ := bind_eq_ok.mp h
    simp only at h
    split at h
    case isTrue =>
      have ⟨he, h⟩ := ite_error_eq_ok.mp h
      have hne : path ≠ [] := by simpa using he
      split at h
      case isTrue =>
        cases h
        simpa [Derived, hne] using hp
      have ⟨⟨value', s₂⟩, hv, h⟩ := bind_eq_ok.mp h
      cases h
      have hd := hi (forall_mem_nil _) hv
      exact ⟨by simp, forall_mem_cons.mpr ⟨⟨hne, hp⟩, hd.right⟩⟩
    case isFalse =>
      have ⟨_, h⟩ := ite_error_eq_ok.mp h
      have ⟨⟨e, s₂⟩, he, h⟩ := bind_eq_ok.mp h
      apply hi _ h
      intro e' he'
      rcases mem_append.mp he' with he' | he'
      · exact hp e' he'
      · cases mem_singleton.mp he'
        exact derived_of_ofSerialIter he

theorem derived_of_ofSerialIter (h : ofSerialIter s = .ok (value, rest)) : Derived value :=
  loop_derived (by simp) h

theorem loop_path_cut {p : STPath} (hp : ∀ e ∈ p, e.Derived) (hn : p.length < n)
    (h : loop n path (p.flatMap STPathElement.add ++ s) = .ok (value, rest)) :
    (∀ e ∈ p, e.mType ≠ typeNone) ∨ ∃ q : STPath, (q.length < p.length) ∧ (value = [path ++ q]) := by
  induction p generalizing path n
  case nil => exact .inl (by simp)
  case cons e p hi =>
    obtain _ | n := n
    · omega
    rw [flatMap_cons, append_assoc] at h
    by_cases he : e.mType = typeNone
    case pos =>
      rw [loop, add_eq, cons_append, get8_cons, ok_bind] at h
      simp only [he, true_or, if_true] at h
      have ⟨_, h⟩ := ite_error_eq_ok.mp h
      cases h
      exact .inr ⟨[], by simp, by simp⟩
    case neg =>
      rw [loop_element ⟨he, hp e mem_cons_self⟩] at h
      have ho := hi (fun e' he' => hp e' (mem_cons_of_mem _ he')) (by simpa using hn) h
      obtain ho | ⟨q, hq, hv⟩ := ho
      · exact .inl (forall_mem_cons.mpr ⟨he, ho⟩)
      · exact .inr ⟨e :: q, by simpa using hq, by simpa using hv⟩

theorem loop_rest_nonzero {s' : Blob} (h : ∀ p ∈ value, p ≠ [] ∧ ∀ e ∈ p, e.Derived)
    (hp : path ≠ []) (hn : (add.loop false value).length ≤ n)
    (hr : loop n path (add.loop false value ++ s) = .ok (path :: value, s')) :
    ∀ p ∈ value, ∀ e ∈ p, e.mType ≠ typeNone := by
  have he : path.isEmpty = false := by simpa using hp
  induction value generalizing path n
  case nil => simp
  case cons p value hi =>
    have ⟨hp', ht⟩ := h p mem_cons_self
    have hl := length_le_flatMap_add (p := p)
    simp only [add.loop, add8, Bool.false_eq_true, if_false, append_assoc, length_append,
      length_singleton] at hn
    have hv : 0 < (add.loop false value).length := by
      cases value <;> simp [add.loop, add8]
    obtain ⟨m, rfl⟩ : ∃ m, n = (m + p.length) + 1 := ⟨n - 1 - p.length, by omega⟩
    have hb : loop (m + p.length) [] (p.flatMap STPathElement.add ++ (add.loop false value ++ s)) =
        .ok (p :: value, s') := by
      simp only [add.loop, add8, loop, he, typeNone, typeBoundary, Bool.false_eq_true, if_false,
        append_assoc, cons_append, nil_append, get8_cons, ok_bind] at hr
      have ⟨⟨value', s₁⟩, hv', hr⟩ := bind_eq_ok.mp hr
      cases hr
      exact hv'
    obtain hz | ⟨q, hq, hv'⟩ := loop_path_cut ht (by omega) hb
    · rw [loop_path fun e hm => ⟨hz e hm, ht e hm⟩] at hb
      have hi' := hi (fun q hq => h q (mem_cons_of_mem _ hq)) hp' (by omega) hb (by simpa using hp')
      exact forall_mem_cons.mpr ⟨hz, hi'⟩
    · rw [nil_append] at hv'
      rw [(cons.inj hv').left] at hq
      exact absurd hq (Nat.lt_irrefl _)

-- Paths that were accepted are accepted again in the form they are written in, and are the same
-- ones, only if there is no element without a type among them.
theorem nonzero_of_reread {s' : Blob} (h : Derived value)
    (hr : ofSerialIter (add value ++ s) = .ok (value, s')) :
    ∀ p ∈ value, ∀ e ∈ p, e.mType ≠ typeNone := by
  obtain ⟨hne, h⟩ := h
  cases value
  case nil => exact absurd rfl hne
  case cons p value =>
    have ⟨hp, ht⟩ := h p mem_cons_self
    have hl := length_le_flatMap_add (p := p)
    have ha : add (p :: value) = p.flatMap STPathElement.add ++ add.loop false value := rfl
    rw [ofSerialIter, ha, append_assoc] at hr
    simp only [length_append] at hr
    obtain hz | ⟨q, hq, hv⟩ := loop_path_cut ht (by omega) hr
    · have hf : (p.flatMap STPathElement.add).length + ((add.loop false value).length + s.length) + 1 =
          ((p.flatMap STPathElement.add).length + ((add.loop false value).length + s.length) + 1 -
            p.length) + p.length := by omega
      rw [hf, loop_path fun e hm => ⟨hz e hm, ht e hm⟩] at hr
      have hi := loop_rest_nonzero (fun q hq => h q (mem_cons_of_mem _ hq)) hp (by omega) hr
      exact forall_mem_cons.mpr ⟨hz, hi⟩
    · rw [nil_append] at hv
      rw [(cons.inj hv).left] at hq
      exact absurd hq (Nat.lt_irrefl _)

end STPathSet
