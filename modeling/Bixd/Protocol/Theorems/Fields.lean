import Bixd.Lib.Except
import Bixd.Protocol.STObject

open SerializedTypeID List

section Canon

mutual

-- The same value, with the fields of each of the objects in it in the order of their codes.
def STVar.canon : STVar → STVar
  | .object o => .object (.ofList (o.canonEach.insertionSort SField.codeLE))
  | .array a => .array a.canon
  | v => v

def STObject.canonEach : STObject → List (SField × STVar)
  | .nil => []
  | .cons f v o => (f, v.canon) :: o.canonEach

def STArray.canon : STArray → STArray
  | .nil => .nil
  | .cons f o a => .cons f (.ofList (o.canonEach.insertionSort SField.codeLE)) a.canon

end

-- Objects with the same canonical form have the same fields with the same values.
def STObject.canon (o : STObject) : STObject :=
  .ofList (o.canonEach.insertionSort SField.codeLE)

mutual

-- How many objects and arrays are nested.
def STVar.depth : STVar → Nat
  | .object o => o.depth
  | .array a => a.depth
  | _ => 0

def STObject.depth : STObject → Nat
  | .nil => 0
  | .cons _ v o => max (v.depth + 1) o.depth

def STArray.depth : STArray → Nat
  | .nil => 0
  | .cons _ o a => max (o.depth + 1) a.depth

end

end Canon

def STObject.fields (o : STObject) : List SField :=
  o.toList.map Prod.fst

-- An object in a field that has a template has exactly the fields of the template.
def STObject.Conforms (f : SField) (o : STObject) : Prop :=
  ∀ type, STObject.findSOTemplateBySField f = some type → ∀ g, g ∈ o.fields ↔ g ∈ type.map Prod.fst

def STVar.Conforms (f : SField) : STVar → Prop
  | .object o => o.Conforms f
  | _ => True

namespace SField

variable {α β : Type}

instance : Std.Total (@codeLE α) :=
  ⟨fun x y => Nat.le_total x.fst.fieldCode y.fst.fieldCode⟩

instance : IsTrans (SField × α) codeLE :=
  ⟨fun _ _ _ => Nat.le_trans⟩

theorem codeLE_antisymm {l : List (SField × α)} (hk : ∀ x ∈ l, x.fst.IsKnown)
    (hn : (l.map Prod.fst).Nodup) (hx : x ∈ l) (hy : y ∈ l) (h : codeLE x y)
    (h' : codeLE y x) : x = y :=
  inj_on_of_nodup_map hn hx hy <| (hk x hx).eq_of_fieldCode (hk y hy) (Nat.le_antisymm h h')

theorem insertionSort_eq_of_perm {l l' : List (SField × α)} (h : l.Perm l')
    (hk : ∀ x ∈ l, x.fst.IsKnown) (hn : (l.map Prod.fst).Nodup) :
    l.insertionSort codeLE = l'.insertionSort codeLE := by
  have hp := (perm_insertionSort codeLE l).trans (h.trans (perm_insertionSort codeLE l').symm)
  apply hp.eq_of_pairwise _ (pairwise_insertionSort ..) (pairwise_insertionSort ..)
  intro x y hx hy
  apply codeLE_antisymm hk hn ((mem_insertionSort _).mp hx)
  exact h.mem_iff.mpr ((mem_insertionSort _).mp hy)

theorem pairwise_code_insertionSort {l : List (SField × α)} (hk : ∀ x ∈ l, x.fst.IsKnown)
    (hn : (l.map Prod.fst).Nodup) :
    (l.insertionSort codeLE).Pairwise (fun x y => x.fst.fieldCode < y.fst.fieldCode) := by
  have hp := perm_insertionSort codeLE l
  have hne := pairwise_map.mp ((hp.map Prod.fst).nodup_iff.mpr hn)
  apply ((pairwise_insertionSort codeLE l).and hne).imp_of_mem
  intro x y hx hy ⟨hle, hne⟩
  apply Nat.lt_of_le_of_ne hle
  intro he
  exact hne ((hk x (hp.mem_iff.mp hx)).eq_of_fieldCode (hk y (hp.mem_iff.mp hy)) he)

theorem map_insertionSort_codeLE {l : List (SField × α)} (g : SField × α → SField × β)
    (hg : ∀ x, (g x).fst = x.fst) :
    (l.insertionSort codeLE).map g = (l.map g).insertionSort codeLE := by
  apply map_insertionSort
  intro x _ y _
  rw [codeLE, codeLE, hg, hg]

end SField

namespace STObject

variable {o o' : STObject}

-- Induction on the list of an object's fields, without their values.
@[induction_eliminator]
theorem fieldsRec {motive : STObject → Prop} (nil : motive nil)
    (cons : ∀ f v o, motive o → motive (cons f v o)) : ∀ o, motive o
  | .nil => nil
  | .cons f v o => cons f v o (fieldsRec nil cons o)

@[simp]
theorem toList_ofList : (ofList l).toList = l := by
  induction l
  case nil => rfl
  case cons x l hi => rw [ofList, toList, hi]

theorem ofList_inj (h : ofList l = ofList l') : l = l' := by
  rw [← toList_ofList (l := l), h, toList_ofList]

@[simp]
theorem fields_nil : fields nil = [] := rfl

@[simp]
theorem fields_cons : (cons f v o).fields = f :: o.fields := rfl

theorem canonEach_eq : o.canonEach = o.toList.map (fun x => (x.fst, x.snd.canon)) := by
  induction o
  case nil => rfl
  case cons f v o hi => rw [canonEach, toList, map_cons, hi]

theorem canonEach_fields : o.canonEach.map Prod.fst = o.fields := by
  rw [canonEach_eq, map_map]
  rfl

theorem fields_perm_of_canon (h : o.canon = o'.canon) : o.fields.Perm o'.fields := by
  have hp := perm_insertionSort SField.codeLE o.canonEach
  have hp' := perm_insertionSort SField.codeLE o'.canonEach
  rw [ofList_inj h] at hp
  rw [← canonEach_fields, ← canonEach_fields]
  exact (hp.symm.trans hp').map Prod.fst

theorem canon_eq_of_perm (hk : ∀ f ∈ o.fields, f.IsKnown) (hn : o.fields.Nodup)
    (h : o.canonEach.Perm o'.canonEach) : o.canon = o'.canon := by
  rw [← canonEach_fields] at hk hn
  apply congrArg ofList
  apply SField.insertionSort_eq_of_perm h _ hn
  intro x hx
  exact hk _ (mem_map_of_mem hx)

theorem find_eq_some_of_mem (h : f ∈ o.fields) :
    ∃ v, (o.find f = some v) ∧ o.toList.Perm ((f, v) :: (o.erase f).toList) := by
  induction o
  case nil => exact absurd h (by simp)
  case cons f' v o hi =>
    by_cases he : f' = f
    case pos =>
      subst he
      exact ⟨v, by simp [find], by simp [erase, toList]⟩
    have hm : f ∈ o.fields := by
      rw [fields_cons, mem_cons] at h
      exact h.resolve_left (Ne.symm he)
    have ⟨w, hf, hp⟩ := hi hm
    refine ⟨w, by simp [find, he, hf], ?_⟩
    simp only [toList, erase, if_neg he]
    exact (hp.cons _).trans (Perm.swap ..)

theorem applyTemplate_ok (ht : ∀ e ∈ type, e.snd = .soeREQUIRED) (hn : o.fields.Nodup)
    (htn : (type.map Prod.fst).Nodup) (hf : ∀ g, g ∈ o.fields ↔ g ∈ type.map Prod.fst) :
    ∃ o', (applyTemplate type o = .ok o') ∧ o'.toList.Perm o.toList := by
  induction type generalizing o
  case nil =>
    have he : o.toList = [] := by
      apply map_eq_nil_iff.mp
      apply eq_nil_iff_forall_not_mem.mpr
      intro g hg
      exact absurd ((hf g).mp hg) (by simp)
    exact ⟨nil, by simp [applyTemplate, he], by simp [toList, he]⟩
  case cons e type hi =>
    have ⟨f, style⟩ := e
    have hs := ht (f, style) mem_cons_self
    subst hs
    have ⟨v, hv, hp⟩ := find_eq_some_of_mem ((hf f).mpr (by simp))
    have hpf : o.fields.Perm (f :: (o.erase f).fields) := hp.map Prod.fst
    have hnd := nodup_cons.mp (hpf.nodup_iff.mp hn)
    rw [map_cons, nodup_cons] at htn
    have hf' (g : SField) : g ∈ (o.erase f).fields ↔ g ∈ type.map Prod.fst := by
      have h₁ := hpf.mem_iff (a := g)
      have h₂ := hf g
      rw [map_cons, mem_cons] at h₂
      rw [mem_cons] at h₁
      by_cases hg : g = f
      case pos =>
        subst hg
        exact iff_of_false hnd.left htn.left
      case neg =>
        rw [or_iff_right hg] at h₁ h₂
        exact h₁.symm.trans h₂
    have ⟨o', ho, hp'⟩ :=
      hi (fun e he => ht e (mem_cons_of_mem _ he)) hnd.right htn.right hf'
    refine ⟨cons f v o', by simp [applyTemplate, hv, ho], ?_⟩
    exact (hp'.cons (f, v)).trans hp.symm

theorem findSOTemplateBySField_required (h : findSOTemplateBySField f = some type) :
    (∀ e ∈ type, e.snd = .soeREQUIRED) ∧ (type.map Prod.fst).Nodup := by
  unfold findSOTemplateBySField at h
  split at h
  case isTrue => cases h; decide
  split at h
  case isTrue => cases h; decide
  split at h
  case isTrue => cases h; decide
  split at h
  case isTrue => cases h; decide
  case isFalse => cases h

theorem Conforms.applyTemplate_ok (h : o.Conforms f) (hn : o.fields.Nodup) :
    ∃ o', (o.applyTemplateFromSField f = .ok o') ∧ o'.toList.Perm o.toList := by
  unfold applyTemplateFromSField
  split
  case h_1 type ht =>
    have ⟨hr, htn⟩ := findSOTemplateBySField_required ht
    exact STObject.applyTemplate_ok hr hn htn (h type ht)
  case h_2 => exact ⟨o, rfl, .refl _⟩

theorem Conforms.congr (h : o.Conforms f) (hp : o'.fields.Perm o.fields) : o'.Conforms f :=
  fun type ht g => (hp.mem_iff (a := g)).trans (h type ht g)

theorem adjacentFind_eq_false {l : List (SField × STVar)} (h : (l.map Prod.fst).Nodup) :
    adjacentFind l = false := by
  induction l
  case nil => rfl
  case cons x l hi =>
    cases l
    case nil => rfl
    case cons y l =>
      rw [map_cons, nodup_cons] at h
      have hne : x.fst ≠ y.fst := fun he => h.left (by simp [he])
      simp [adjacentFind, hne, hi h.right]

theorem checkDuplicates_ok (h : o.fields.Nodup) : o.checkDuplicates = .ok o := by
  have hs : ((o.getSortedFields true).map Prod.fst).Nodup := by
    have hp := (perm_insertionSort SField.codeLE
      (o.toList.filter (·.fst.shouldInclude true))).map Prod.fst
    exact hp.nodup_iff.mpr (h.sublist (filter_sublist.map _))
  simp [checkDuplicates, adjacentFind_eq_false hs]

end STObject

namespace STArray

-- Induction on the list of an array's elements, without the fields in them.
@[induction_eliminator]
theorem elementsRec {motive : STArray → Prop} (nil : motive nil)
    (cons : ∀ f o a, motive a → motive (cons f o a)) : ∀ a, motive a
  | .nil => nil
  | .cons f o a => cons f o a (elementsRec nil cons a)

end STArray
