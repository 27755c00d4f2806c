import Bixd.Protocol.Theorems.RoundTrip

open SerializedTypeID List SField Prod Except STObject STVar Serializer Nat

mutual

-- What holds of every value that is accepted.
def STVar.Parsed : STVar → Prop
  | .amount a => a.InRange
  | .pathset ps => STPathSet.Derived ps
  | .object o => o.ParsedEach ∧ o.fields.Nodup
  | .array a => a.Parsed
  | _ => True

def STObject.ParsedEach : STObject → Prop
  | .nil => True
  | .cons f v o =>
    (f.IsKnown ∧ f.isBinary ∧ v.getSType = f.fieldType ∧ v.Conforms f ∧ v.Parsed) ∧ o.ParsedEach

def STArray.Parsed : STArray → Prop
  | .nil => True
  | .cons f o a =>
    f.IsKnown ∧ f.fieldType = STI_OBJECT ∧ o.Conforms f ∧ (o.ParsedEach ∧ o.fields.Nodup) ∧ a.Parsed

end

mutual

-- No variable-length data in the value is too long to be written, and each path element has a type.
def STVar.Encodable : STVar → Prop
  | .vl b => b.length ≤ 918744
  | .vector256 v => 32 * v.length ≤ 918744
  | .pathset ps => ∀ p ∈ ps, ∀ e ∈ p, e.mType ≠ STPathElement.typeNone
  | .object o => o.Encodable
  | .array a => a.Encodable
  | _ => True

def STObject.Encodable : STObject → Prop
  | .nil => True
  | .cons _ v o => v.Encodable ∧ o.Encodable

def STArray.Encodable : STArray → Prop
  | .nil => True
  | .cons _ o a => o.Encodable ∧ a.Encodable

end

mutual

theorem STVar.WF.of_parsed : (v : STVar) → v.Parsed → v.Encodable → v.WF
  | .amount _, hp, _ => hp
  | .vl _, _, he => he
  | .vector256 _, _, he => he
  | .pathset _, hp, he =>
    ⟨hp.left, fun p hm => ⟨(hp.right p hm).left, fun e hx => ⟨he p hm e hx, (hp.right p hm).right e hx⟩⟩⟩
  | .object o, hp, he => STObject.WF.of_parsed o hp.left hp.right he
  | .array a, hp, he => STArray.WF.of_parsed a hp he
  | .uint8 _, _, _ | .uint16 _, _, _ | .uint32 _, _, _ | .uint64 _, _, _ | .hash128 _, _, _
  | .hash160 _, _, _ | .hash256 _, _, _ | .account _, _, _ => trivial

theorem STObject.WF.of_parsed :
    (o : STObject) → o.ParsedEach → o.fields.Nodup → o.Encodable → o.WF
  | .nil, _, _, _ => trivial
  | .cons _ v o, hp, hn, he =>
    have ⟨⟨hk, hb, ht, hc, hv⟩, ho⟩ := hp
    have hn := nodup_cons.mp hn
    ⟨hk, hb, ht, hc, STVar.WF.of_parsed v hv he.left, hn.left,
      STObject.WF.of_parsed o ho hn.right he.right⟩

theorem STArray.WF.of_parsed : (a : STArray) → a.Parsed → a.Encodable → a.WF
  | .nil, _, _ => trivial
  | .cons _ o a, hp, he =>
    have ⟨hk, ht, hc, ⟨ho, hn⟩, ha⟩ := hp
    ⟨hk, ht, hc, STObject.WF.of_parsed o ho hn he.left, STArray.WF.of_parsed a ha he.right⟩

end

namespace STObject

variable {o o' : STObject} {s rest : Blob} {n d : Nat}

theorem parsedEach_iff : o.ParsedEach ↔ ∀ x ∈ o.toList, x.fst.IsKnown ∧ x.fst.isBinary ∧
    x.snd.getSType = x.fst.fieldType ∧ x.snd.Conforms x.fst ∧ x.snd.Parsed := by
  induction o
  case nil => simp [ParsedEach, toList]
  case cons f v o hi => rw [ParsedEach, toList, forall_mem_cons, hi]

theorem encodable_iff : o.Encodable ↔ ∀ x ∈ o.toList, x.snd.Encodable := by
  induction o
  case nil => simp [Encodable, toList]
  case cons f v o hi => rw [Encodable, toList, forall_mem_cons, hi]

theorem ParsedEach.known (h : o.ParsedEach) : ∀ f ∈ o.fields, f.IsKnown := by
  intro f hf
  obtain ⟨x, hx, rfl⟩ := mem_map.mp hf
  exact (parsedEach_iff.mp h x hx).left

theorem ParsedEach.perm (h : o.ParsedEach) (hp : o'.toList.Perm o.toList) : o'.ParsedEach :=
  parsedEach_iff.mpr fun x hx => parsedEach_iff.mp h x (hp.mem_iff.mp hx)

theorem depth_le_iff : o.depth ≤ d ↔ ∀ x ∈ o.toList, x.snd.depth + 1 ≤ d := by
  induction o
  case nil => simp [depth, toList]
  case cons f v o hi => rw [depth, toList, forall_mem_cons, Nat.max_le, hi]

theorem fieldCode_lt_of_adjacentFind (hk : ∀ y ∈ x :: l, y.fst.IsKnown)
    (hs : (x :: l).Pairwise codeLE) (h : adjacentFind (x :: l) = false) :
    ∀ y ∈ l, x.fst.fieldCode < y.fst.fieldCode := by
  cases l
  case nil => simp
  case cons y l =>
    rw [forall_mem_cons, forall_mem_cons] at hk
    have ⟨hx, hy⟩ := pairwise_cons.mp hs
    simp only [adjacentFind, Bool.or_eq_false_iff, decide_eq_false_iff_not] at h
    have hlt : x.fst.fieldCode < y.fst.fieldCode := by
      apply lt_of_le_of_ne (hx y mem_cons_self)
      exact fun he => h.left (hk.left.eq_of_fieldCode hk.right.left he)
    exact forall_mem_cons.mpr
      ⟨hlt, fun z hz => lt_of_lt_of_le hlt ((pairwise_cons.mp hy).left z hz)⟩

theorem adjacentFind_nodup (hk : ∀ x ∈ l, x.fst.IsKnown)
    (hs : l.Pairwise codeLE) (h : adjacentFind l = false) : (l.map fst).Nodup := by
  induction l
  case nil => exact nodup_nil
  case cons x l hi =>
    have hlt := fieldCode_lt_of_adjacentFind hk hs h
    have hl : adjacentFind l = false := by
      cases l
      case nil => rfl
      case cons y l =>
        simp only [adjacentFind, Bool.or_eq_false_iff] at h
        exact h.right
    rw [map_cons, nodup_cons]
    refine ⟨?_, hi (forall_mem_cons.mp hk).right (pairwise_cons.mp hs).right hl⟩
    intro hm
    obtain ⟨y, hy, he⟩ := mem_map.mp hm
    exact absurd (hlt y hy) (by rw [he]; exact lt_irrefl _)

theorem nodup_of_checkDuplicates (hp : o.ParsedEach) (h : o.checkDuplicates = .ok o') :
    (o' = o) ∧ o.fields.Nodup := by
  have hpe := parsedEach_iff.mp hp
  have hf : o.getSortedFields true = o.toList.insertionSort codeLE := by
    rw [getSortedFields, filter_eq_self.mpr]
    intro x hx
    simp [shouldInclude, (hpe x hx).right.left]
  have hperm := perm_insertionSort codeLE o.toList
  obtain ⟨hd, h⟩ := ite_error_eq_ok.mp h
  cases h
  refine ⟨rfl, (hperm.map fst).nodup_iff.mp ?_⟩
  apply adjacentFind_nodup _ (pairwise_insertionSort ..)
  · rw [← hf]
    simpa using hd
  · intro x hx
    exact (hpe x (hperm.mem_iff.mp hx)).left

theorem perm_erase (h : o.find f = some v) : o.toList.Perm ((f, v) :: (o.erase f).toList) := by
  induction o
  case nil => cases h
  case cons f' v' o hi =>
    rw [find] at h
    split at h
    case isTrue he =>
      cases h
      simp [toList, erase, he]
    case isFalse he =>
      simp only [toList, erase, if_neg he]
      exact ((hi h).cons _).trans (Perm.swap ..)

theorem perm_of_applyTemplate (hb : ∀ x ∈ o.toList, x.fst.isBinary)
    (h : applyTemplate type o = .ok o') :
    o'.toList.Perm o.toList ∧ ∀ e ∈ o'.toList, e.fst ∈ type.map fst := by
  induction type generalizing o o'
  case nil =>
    unfold applyTemplate at h
    split at h
    case h_1 => cases h
    case h_2 hn =>
      cases h
      have he : o.toList = [] := by
        apply eq_nil_iff_forall_not_mem.mpr
        intro x hx
        have hd := find?_eq_none.mp hn x hx
        have hb' := of_decide_eq_true (hb x hx)
        simp [isDiscardable] at hd
        omega
      simp [he, toList]
  case cons e type hi =>
    obtain ⟨g, style⟩ := e
    rw [applyTemplate] at h
    split at h
    case h_1 v hv =>
      have hp := perm_erase hv
      obtain ⟨_, h⟩ := ite_error_eq_ok.mp h
      obtain ⟨o₁, ho, h⟩ := bind_eq_ok.mp h
      cases h
      have hb' : ∀ x ∈ (o.erase g).toList, x.fst.isBinary :=
        fun x hx => hb x (hp.mem_iff.mpr (mem_cons_of_mem _ hx))
      obtain ⟨hp', hm⟩ := hi hb' ho
      refine ⟨(hp'.cons _).trans hp.symm, forall_mem_cons.mpr ⟨by simp, ?_⟩⟩
      exact fun x hx => mem_cons_of_mem _ (hm x hx)
    case h_2 hv =>
      obtain ⟨_, h⟩ := ite_error_eq_ok.mp h
      obtain ⟨hp, hm⟩ := hi hb h
      exact ⟨hp, fun x hx => mem_cons_of_mem _ (hm x hx)⟩

theorem required_of_applyTemplate (hr : ∀ e ∈ type, e.snd = .soeREQUIRED)
    (h : applyTemplate type o = .ok o') : o'.fields = type.map fst := by
  induction type generalizing o o'
  case nil =>
    unfold applyTemplate at h
    split at h
    case h_1 => cases h
    case h_2 => cases h; rfl
  case cons e type hi =>
    obtain ⟨g, style⟩ := e
    have hs := hr _ mem_cons_self
    rw [applyTemplate] at h
    split at h
    case h_1 v hv =>
      obtain ⟨_, h⟩ := ite_error_eq_ok.mp h
      obtain ⟨o₁, ho, h⟩ := bind_eq_ok.mp h
      cases h
      rw [fields_cons, hi (fun e he => hr e (mem_cons_of_mem _ he)) ho]
      rfl
    case h_2 =>
      rw [if_pos hs] at h
      cases h

theorem parsed_of_applyTemplate (hp : o.ParsedEach) (h : o.applyTemplateFromSField f = .ok o') :
    o'.toList.Perm o.toList ∧ o'.Conforms f := by
  unfold applyTemplateFromSField at h
  split at h
  case h_1 type ht =>
    have hb := fun x hx => (parsedEach_iff.mp hp x hx).right.left
    refine ⟨(perm_of_applyTemplate hb h).left, ?_⟩
    intro type' ht' g
    rw [ht] at ht'
    cases ht'
    rw [required_of_applyTemplate (findSOTemplateBySField_required ht).left h]
  case h_2 hn =>
    cases h
    refine ⟨.refl _, ?_⟩
    intro type ht
    rw [hn] at ht
    cases ht

theorem depth_le_of_perm (hp : o'.toList.Perm o.toList) (h : o.depth ≤ d) : o'.depth ≤ d :=
  depth_le_iff.mpr fun x hx => depth_le_iff.mp h x (hp.mem_iff.mp hx)

end STObject

theorem STVar.parsed_of_applyTemplate {v v' : STVar} (hp : v.Parsed)
    (hd : v.depth ≤ d) (h : v.applyTemplateFromSField f = .ok v') :
    v'.Parsed ∧ v'.Conforms f ∧ (v'.getSType = v.getSType) ∧ (v'.depth ≤ d) := by
  by_cases ht : v.getSType = STI_OBJECT
  case pos =>
    obtain ⟨o, rfl⟩ := exists_object ht
    have ⟨o', ho, h⟩ := bind_eq_ok.mp h
    cases h
    have ⟨hperm, hc⟩ := STObject.parsed_of_applyTemplate hp.left ho
    refine ⟨⟨hp.left.perm hperm, ?_⟩, hc, rfl, depth_le_of_perm hperm hd⟩
    exact (hperm.map fst).nodup_iff.mpr hp.right
  case neg =>
    rw [applyTemplateFromSField_of_ne ht] at h
    cases h
    refine ⟨hp, ?_, rfl, hd⟩
    cases v <;> trivial

-- What is read at some depth is parsed and does not nest further than ten levels.
structure ReadsParsed (n : Nat) : Prop where
  object : ∀ {d s o rest}, d ≤ 10 → STObject.setFields n d s = .ok (o, rest) →
    o.ParsedEach ∧ (o.depth ≤ 10 - d)
  var : ∀ {f d s v rest}, STVar.ofSerialIter n f d s = .ok (v, rest) →
    v.Parsed ∧ (v.getSType = f.fieldType) ∧ (d ≤ 10) ∧ (v.depth ≤ 10 - d)
  array : ∀ {d s a rest}, d ≤ 10 → STArray.ofSerialIter n d s = .ok (a, rest) →
    a.Parsed ∧ (a.depth ≤ 10 - d)

namespace ReadsParsed

variable {n d : Nat} {s rest : Blob}

theorem setFields (hi : ReadsParsed n) (hd : d ≤ 10)
    (h : STObject.setFields (n + 1) d s = .ok (o, rest)) : o.ParsedEach ∧ (o.depth ≤ 10 - d) := by
  rw [STObject.setFields] at h
  split at h
  case isTrue => cases h; exact ⟨trivial, zero_le _⟩
  obtain ⟨⟨⟨type, field⟩, s₁⟩, hid, h⟩ := bind_eq_ok.mp h
  simp only at h
  split at h
  case isTrue => cases h; exact ⟨trivial, zero_le _⟩
  obtain ⟨_, h⟩ := ite_error_eq_ok.mp h
  split at h
  case h_1 => cases h
  case h_2 f hf =>
    obtain ⟨⟨v, s₂⟩, hv, h⟩ := bind_eq_ok.mp h
    obtain ⟨v', hv', h⟩ := bind_eq_ok.mp h
    obtain ⟨⟨o', s₃⟩, ho, h⟩ := bind_eq_ok.mp h
    cases h
    obtain ⟨_, hval, hk⟩ := getField_eq_some hf
    have hb : f.isBinary :=
      decide_eq_true (hval ▸ SerialIter.getFieldID_name_lt hid)
    obtain ⟨hp, ht, hd', hdv⟩ := hi.var hv
    obtain ⟨hp', hc, ht', hdv'⟩ := parsed_of_applyTemplate hp hdv hv'
    obtain ⟨hpo, hdo⟩ := hi.object hd ho
    refine ⟨⟨⟨hk, hb, ht'.trans ht, hc, hp'⟩, hpo⟩, ?_⟩
    show max (v'.depth + 1) o'.depth ≤ 10 - d
    omega

theorem ofArray (hi : ReadsParsed n) (hd : d ≤ 10)
    (h : STArray.ofSerialIter (n + 1) d s = .ok (a, rest)) : a.Parsed ∧ (a.depth ≤ 10 - d) := by
  rw [STArray.ofSerialIter] at h
  split at h
  case isTrue => cases h; exact ⟨trivial, zero_le _⟩
  obtain ⟨⟨⟨type, field⟩, s₁⟩, hid, h⟩ := bind_eq_ok.mp h
  simp only at h
  split at h
  case isTrue => cases h; exact ⟨trivial, zero_le _⟩
  obtain ⟨_, h⟩ := ite_error_eq_ok.mp h
  split at h
  case h_1 => cases h
  case h_2 f hf =>
    obtain ⟨ht, h⟩ := ite_error_eq_ok.mp h
    obtain ⟨hd', h⟩ := Except.ite_error_eq_ok.mp h
    obtain ⟨⟨o, s₂⟩, ho, h⟩ := bind_eq_ok.mp h
    obtain ⟨o₁, hcd, h⟩ := bind_eq_ok.mp h
    obtain ⟨o₂, hat, h⟩ := bind_eq_ok.mp h
    obtain ⟨⟨a', s₃⟩, ha, h⟩ := bind_eq_ok.mp h
    cases h
    obtain ⟨hpo, hdo⟩ := hi.object (by omega) ho
    obtain ⟨he, hn⟩ := nodup_of_checkDuplicates hpo hcd
    subst he
    obtain ⟨hperm, hc⟩ := parsed_of_applyTemplate hpo hat
    obtain ⟨hpa, hda⟩ := hi.array hd ha
    have hdo' := depth_le_of_perm hperm hdo
    refine ⟨⟨(getField_eq_some hf).right.right, not_not.mp ht, hc,
      ⟨hpo.perm hperm, (hperm.map fst).nodup_iff.mpr hn⟩, hpa⟩, ?_⟩
    show max (o₂.depth + 1) a'.depth ≤ 10 - d
    omega

theorem ofVar (hi : ReadsParsed n) (h : ofSerialIter (n + 1) f d s = .ok (v, rest)) :
    v.Parsed ∧ (v.getSType = f.fieldType) ∧ (d ≤ 10) ∧ (v.depth ≤ 10 - d) := by
  obtain ⟨hd, h⟩ := ite_error_eq_ok.mp h
  have hd := Nat.le_of_not_lt hd
  split at h
  case h_5 ht =>
    obtain ⟨⟨a, s₁⟩, ha, h⟩ := bind_eq_ok.mp h
    cases h
    exact ⟨(STAmount.ofSerialIter_spec ha).left, ht.symm, hd, Nat.zero_le _⟩
  case h_12 ht =>
    obtain ⟨⟨ps, s₁⟩, hps, h⟩ := bind_eq_ok.mp h
    cases h
    exact ⟨STPathSet.derived_of_ofSerialIter hps, ht.symm, hd, Nat.zero_le _⟩
  case h_13 ht =>
    obtain ⟨⟨o, s₁⟩, ho, h⟩ := bind_eq_ok.mp h
    obtain ⟨o', hcd, h⟩ := bind_eq_ok.mp h
    cases h
    obtain ⟨hpo, hdo⟩ := hi.object hd ho
    obtain ⟨he, hn⟩ := nodup_of_checkDuplicates hpo hcd
    subst he
    exact ⟨⟨hpo, hn⟩, ht.symm, hd, hdo⟩
  case h_14 ht =>
    obtain ⟨⟨a, s₁⟩, ha, h⟩ := bind_eq_ok.mp h
    cases h
    obtain ⟨hpa, hda⟩ := hi.array hd ha
    exact ⟨hpa, ht.symm, hd, hda⟩
  all_goals
    rename_i ht
    obtain ⟨_, _, h⟩ := bind_eq_ok.mp h
    cases h
    exact ⟨trivial, ht.symm, hd, Nat.zero_le _⟩

end ReadsParsed

theorem readsParsed (n : Nat) : ReadsParsed n := by
  induction n
  case zero =>
    refine ⟨fun _ h => ?_, fun h => ?_, fun _ h => ?_⟩
    · rw [setFields] at h; cases h
    · rw [STVar.ofSerialIter] at h; cases h
    · rw [STArray.ofSerialIter] at h; cases h
  case succ n hi => exact ⟨hi.setFields, hi.ofVar, hi.ofArray⟩

namespace STObject

variable {o o' : STObject} {s rest : Blob} {n d : Nat}

theorem canon_of_applyTemplate (hp : o.ParsedEach) (hn : o.fields.Nodup)
    (h : o.applyTemplateFromSField f = .ok o') : o'.canon = o.canon := by
  have ⟨hperm, _⟩ := parsed_of_applyTemplate hp h
  apply canon_eq_of_perm (hp.perm hperm).known ((hperm.map fst).nodup_iff.mpr hn)
  rw [canonEach_eq, canonEach_eq]
  exact hperm.map _

theorem canon_eq_of_mem (hn : o.fields.Nodup) (hc : o'.canon = o.canon) (hx : x ∈ o.toList)
    (hv : (x.fst, v) ∈ o'.toList) : v.canon = x.snd.canon := by
  have hp : o'.canonEach.Perm o.canonEach := by
    have hp' := perm_insertionSort codeLE o'.canonEach
    rw [ofList_inj hc] at hp'
    exact hp'.symm.trans (perm_insertionSort codeLE o.canonEach)
  have hm : (x.fst, v.canon) ∈ o'.canonEach := by
    rw [canonEach_eq]
    exact mem_map_of_mem (f := fun y => (y.fst, y.snd.canon)) hv
  have hm' : (x.fst, x.snd.canon) ∈ o.canonEach := by
    rw [canonEach_eq]
    exact mem_map_of_mem (f := fun y => (y.fst, y.snd.canon)) hx
  rw [← canonEach_fields] at hn
  have he := inj_on_of_nodup_map hn (hp.mem_iff.mp hm) hm' rfl
  exact (mk.inj he).right

theorem add_ok_of_addEach {fields : List (SField × Blob)} (h : o.addEach w = .ok fields) :
    ∀ x ∈ o.toList, x.fst.shouldInclude w → ∃ b, x.snd.add = .ok b := by
  induction o generalizing fields
  case nil => simp [toList]
  case cons f v o hi =>
    rw [addEach] at h
    rw [toList, forall_mem_cons]
    split at h
    case isTrue =>
      obtain ⟨b, hb, h⟩ := bind_eq_ok.mp h
      obtain ⟨fields', hf, h⟩ := bind_eq_ok.mp h
      exact ⟨fun _ => ⟨b, hb⟩, hi hf⟩
    case isFalse hs => exact ⟨fun hc => absurd hc hs, hi h⟩

end STObject

namespace STVar

theorem canon_of_applyTemplate {v : STVar} (hp : v.Parsed)
    (h : v.applyTemplateFromSField f = .ok v') : v'.canon = v.canon := by
  by_cases ht : v.getSType = STI_OBJECT
  case pos =>
    obtain ⟨o, rfl⟩ := exists_object ht
    have ⟨o', ho, h⟩ := bind_eq_ok.mp h
    cases h
    exact congrArg object (STObject.canon_of_applyTemplate hp.left hp.right ho)
  case neg =>
    rw [applyTemplateFromSField_of_ne ht] at h
    cases h
    rfl

-- A value that is read back from the form it is written in.
structure Reread (v : STVar) : Prop where
  add_ok : ∃ b, v.add = .ok b
  read   : ∃ f n d rest v' s, (v.getSType = f.fieldType) ∧ (d + v.depth ≤ 10) ∧
    (2 * (v.data ++ v.endMark ++ rest).length + 2 ≤ n) ∧
    (ofSerialIter n f d (v.data ++ v.endMark ++ rest) = .ok (v', s)) ∧ (v'.canon = v.canon)

end STVar

namespace STObject

variable {o o' : STObject} {s rest tail : Blob} {n d : Nat}

-- What is known of a field that was parsed, for the field to be read again.
structure Rereadable (d : Nat) (x : SField × STVar) : Prop where
  known     : x.fst.IsKnown
  binary    : x.fst.isBinary
  type      : x.snd.getSType = x.fst.fieldType
  parsed    : x.snd.Parsed
  depth     : d + 1 + x.snd.depth ≤ 10
  add_ok    : ∃ b, x.snd.add = .ok b
  encodable : x.snd.Reread → x.snd.Encodable

theorem encodable_of_setFields {l : List (SField × STVar)} (hl : ∀ x ∈ l, Rereadable d x)
    (hn : 2 * (l.flatMap fieldData ++ tail).length + 1 ≤ n)
    (h : setFields n d (l.flatMap fieldData ++ tail) = .ok (o, rest))
    (hc : ∀ x ∈ l, ∀ v, (x.fst, v) ∈ o.toList → v.canon = x.snd.canon) :
    ∀ x ∈ l, x.snd.Encodable := by
  induction l generalizing n o
  case nil => simp
  case cons x l hi =>
    obtain _ | n := n
    · omega
    have hx := hl x mem_cons_self
    have hid : 0 < (addFieldID x.fst.fieldType.code x.fst.fieldValue).length :=
      length_pos_of_ne_nil addFieldID_ne_nil
    rw [flatMap_cons, append_assoc, fieldData_eq, append_assoc] at hn h
    rw [length_append] at hn
    obtain ⟨ho, har⟩ := not_endMarker hx.known
    rw [setFields, isEmpty_addFieldID, getFieldID_known hx.known hx.binary, ok_bind] at h
    simp only [Bool.false_eq_true, if_false, ho, har, hx.known.getField] at h
    obtain ⟨⟨v, s₁⟩, hv, h⟩ := bind_eq_ok.mp h
    obtain ⟨v', hv', h⟩ := bind_eq_ok.mp h
    obtain ⟨⟨o₁, s₂⟩, ho₁, h⟩ := bind_eq_ok.mp h
    cases h
    have hp := ((readsParsed n).var hv).left
    have hcv : v.canon = x.snd.canon := by
      rw [← STVar.canon_of_applyTemplate hp hv']
      exact hc x mem_cons_self v' mem_cons_self
    have hxe := hx.encodable ⟨hx.add_ok, _, _, _, _, v, s₁, hx.type, hx.depth, by omega, hv, hcv⟩
    -- Now that the value is known to be read back exactly, the other fields follow it.
    have hr := STVar.WF.roundTrip _ (STVar.WF.of_parsed _ hx.parsed hxe)
    obtain ⟨w, hw, _⟩ := hr.read (s := l.flatMap fieldData ++ tail) (n := n) hx.type hx.depth
      (by omega)
    rw [hw] at hv
    cases hv
    rw [forall_mem_cons]
    refine ⟨hxe, hi (fun y hy => hl y (mem_cons_of_mem _ hy)) ?_ ho₁ ?_⟩
    · rw [length_append] at hn
      omega
    · exact fun y hy u hu => hc y (mem_cons_of_mem _ hy) u (mem_cons_of_mem _ hu)

theorem ParsedEach.rereadable {fields : List (SField × Blob)} (hp : o.ParsedEach)
    (hd : d + o.depth ≤ 10) (ha : o.addEach true = .ok fields)
    (he : ∀ x ∈ o.toList, x.snd.Parsed → x.snd.Reread → x.snd.Encodable) :
    ∀ x ∈ o.toList.insertionSort codeLE, Rereadable d x := by
  intro x hx
  have hm := (mem_insertionSort _).mp hx
  have ⟨hk, hb, ht, _, hv⟩ := parsedEach_iff.mp hp x hm
  have hdx := depth_mem hm
  have hs : x.fst.shouldInclude true := by simp [shouldInclude, hb]
  exact ⟨hk, hb, ht, hv, by omega, add_ok_of_addEach ha x hm hs, he x hm hv⟩

theorem ParsedEach.sortedData {fields : List (SField × Blob)} (hp : o.ParsedEach)
    (ha : o.addEach true = .ok fields) :
    (fields.insertionSort codeLE).flatMap snd = o.sortedData := by
  have hs (x) (hx : x ∈ o.toList) : x.fst.shouldInclude true := by
    simp [shouldInclude, (parsedEach_iff.mp hp x hx).right.left]
  rw [addEach_ok fun x hx => ⟨hs x hx, add_ok_of_addEach ha x hx (hs x hx)⟩] at ha
  cases ha
  exact flatMap_sorted

theorem encodable_of_reread {fields : List (SField × Blob)} (hp : o.ParsedEach)
    (hnd : o.fields.Nodup) (hd : d + o.depth ≤ 10) (ha : o.addEach true = .ok fields)
    (he : ∀ x ∈ o.toList, x.snd.Parsed → x.snd.Reread → x.snd.Encodable)
    (hn : 2 * (o.sortedData ++ tail).length + 1 ≤ n)
    (h : setFields n d (o.sortedData ++ tail) = .ok (o', rest)) (hc : o'.canon = o.canon) :
    o.Encodable := by
  have hl := encodable_of_setFields (hp.rereadable hd ha he) hn h (by
    intro x hx v hv
    exact canon_eq_of_mem hnd hc ((mem_insertionSort _).mp hx) hv)
  exact encodable_iff.mpr fun x hx => hl x ((mem_insertionSort _).mpr hx)

end STObject

theorem STArray.encodable_of_reread {a : STArray} {tail : Blob} (hp : a.Parsed)
    (hd : d + a.depth ≤ 10) (ha : a.add = .ok b)
    (he : a.Fields fun v => v.Parsed → v.Reread → v.Encodable)
    (hn : 2 * (b ++ addFieldID STI_ARRAY.code 1 ++ tail).length + 1 ≤ n)
    (h : STArray.ofSerialIter n d (b ++ addFieldID STI_ARRAY.code 1 ++ tail) =
      .ok (a', s))
    (hc : a'.canon = a.canon) : a.Encodable := by
  induction a generalizing b n a'
  case nil => trivial
  case cons f o a hi =>
    obtain ⟨hk, ht, hcf, ⟨hpo, hnd⟩, hpa⟩ := hp
    obtain ⟨heo, hea⟩ := he
    obtain ⟨fields, hf, ha⟩ := bind_eq_ok.mp ha
    obtain ⟨b', hb', ha⟩ := bind_eq_ok.mp ha
    cases ha
    rw [depth] at hd
    obtain _ | n := n
    · omega
    have hid : 0 < (addFieldID f.fieldType.code f.fieldValue).length :=
      length_pos_of_ne_nil addFieldID_ne_nil
    rw [hpo.sortedData hf] at hn h
    simp only [append_assoc] at hn h
    obtain ⟨hno, hna⟩ := not_endMarker hk
    have hd' : ¬ d + 1 > 10 := by omega
    rw [ofSerialIter, isEmpty_addFieldID, getFieldID_known hk (isBinary_of_object hk ht), ok_bind] at h
    simp only [Bool.false_eq_true, if_false, hno, hna, hk.getField] at h
    simp only [ht, ne_eq, not_true_eq_false, if_false, hd'] at h
    obtain ⟨⟨o₁, s₁⟩, ho, h⟩ := bind_eq_ok.mp h
    obtain ⟨o₂, hcd, h⟩ := bind_eq_ok.mp h
    obtain ⟨o₃, hat, h⟩ := bind_eq_ok.mp h
    obtain ⟨⟨a₁, s₂⟩, har, h⟩ := bind_eq_ok.mp h
    cases h
    have hpo₁ := ((readsParsed n).object (by omega) ho).left
    obtain ⟨heq, hnd₁⟩ := nodup_of_checkDuplicates hpo₁ hcd
    subst heq
    simp only [canon, cons.injEq, true_and] at hc
    have hco : o₂.canon = o.canon := by
      rw [← canon_of_applyTemplate hpo₁ hnd₁ hat]
      exact hc.left
    have hoe := STObject.encodable_of_reread hpo hnd (by omega) hf heo
      (by rw [length_append] at hn; omega) ho hco
    have hwf := STObject.WF.of_parsed o hpo hnd hoe
    obtain ⟨o₄, hs, _, _⟩ := hwf.setFields (n := n) (d := d + 1) (STObject.WF.roundTrip o hwf) (by omega)
      (fun _ => setFields_endMark (b' ++ (addFieldID STI_ARRAY.code 1 ++ tail)))
      (by rw [length_append] at hn; omega)
    rw [hs] at ho
    cases ho
    refine ⟨hoe, hi hpa (by omega) hb' hea ?_ (by rw [append_assoc]; exact har) hc.right⟩
    simp only [length_append] at hn ⊢
    omega

namespace STVar

theorem addVL_length (h : addVL b = .ok b') : b.length ≤ 918744 := by
  have ⟨e, he, _⟩ := bind_eq_ok.mp h
  exact SerialIter.addEncoded_isOk.mp ⟨e, he⟩

theorem encodable_vector256 (h : (vector256 v).Reread) : (vector256 v).Encodable := by
  have ⟨_, hb⟩ := h.add_ok
  have hl := addVL_length hb
  rwa [STVector256.length_flatMap] at hl

theorem encodable_pathset (hp : (pathset ps).Parsed) (h : (pathset ps).Reread) :
    (pathset ps).Encodable := by
  have ⟨_, f, n, d, rest, v', s, hf, hd, hn, hr, hc⟩ := h
  obtain _ | n := n
  · omega
  have hf' := hf.symm
  have hd' : ¬ d > 10 := by omega
  have hdata : (pathset ps).data ++ (pathset ps).endMark ++ rest = STPathSet.add ps ++ rest := by
    rw [data_eq (b := STPathSet.add ps) rfl, append_assoc]
    rfl
  rw [hdata, ofSerialIter, hf', if_neg hd'] at hr
  have ⟨⟨ps', s'⟩, hps, hr⟩ := bind_eq_ok.mp hr
  cases hr
  cases hc
  exact STPathSet.nonzero_of_reread hp hps

theorem encodable_object {o : STObject} (hp : (object o).Parsed) (h : (object o).Reread)
    (he : ∀ x ∈ o.toList, x.snd.Parsed → x.snd.Reread → x.snd.Encodable) :
    (object o).Encodable := by
  have ⟨⟨b, hb⟩, f, n, d, rest, v', s, hf, hd, hn, hr, hc⟩ := h
  obtain _ | n := n
  · omega
  have hf' := hf.symm
  have hd' : ¬ d > 10 := by omega
  rw [data_eq hb] at hn hr
  have ⟨fields, hfs, hb⟩ := bind_eq_ok.mp hb
  cases hb
  rw [hp.left.sortedData hfs, append_assoc] at hn hr
  rw [ofSerialIter, hf', if_neg hd'] at hr
  have ⟨⟨o₁, s₁⟩, ho, hr⟩ := bind_eq_ok.mp hr
  have ⟨o₂, hcd, hr⟩ := bind_eq_ok.mp hr
  cases hr
  have ⟨heq, _⟩ := nodup_of_checkDuplicates
    ((readsParsed n).object (by omega) ho).left hcd
  subst heq
  exact encodable_of_reread hp.left hp.right hd hfs he (by omega) ho (object.inj hc)

theorem encodable_array (hp : (array a).Parsed) (h : (array a).Reread)
    (he : a.Fields fun v => v.Parsed → v.Reread → v.Encodable) : (array a).Encodable := by
  have ⟨⟨b, hb⟩, f, n, d, rest, v', s, hf, hd, hn, hr, hc⟩ := h
  obtain _ | n := n
  · omega
  have hf' := hf.symm
  have hd' : ¬ d > 10 := by omega
  have hm : (array a).endMark = addFieldID STI_ARRAY.code 1 := rfl
  rw [data_eq hb, hm] at hn hr
  rw [ofSerialIter, hf', if_neg hd'] at hr
  have ⟨⟨a₁, s₁⟩, ha, hr⟩ := bind_eq_ok.mp hr
  cases hr
  exact STArray.encodable_of_reread hp hd hb he (by omega) ha (array.inj hc)

end STVar

mutual

theorem STVar.encodable_of_reread : (v : STVar) → v.Parsed → v.Reread → v.Encodable
  | .vl _, _, h => have ⟨_, hb⟩ := h.add_ok; addVL_length hb
  | .vector256 _, _, h => encodable_vector256 h
  | .pathset _, hp, h => encodable_pathset hp h
  | .object o, hp, h => encodable_object hp h (STObject.encodable_each o)
  | .array a, hp, h => encodable_array hp h (STArray.encodable_each a)
  | .uint8 _, _, _ | .uint16 _, _, _ | .uint32 _, _, _ | .uint64 _, _, _ | .hash128 _, _, _
  | .hash160 _, _, _ | .hash256 _, _, _ | .amount _, _, _ | .account _, _, _ => trivial

theorem STObject.encodable_each :
    (o : STObject) → ∀ x ∈ o.toList, x.snd.Parsed → x.snd.Reread → x.snd.Encodable
  | .nil => nofun
  | .cons _ v o => fun x hx => by
    cases hx
    case head => exact STVar.encodable_of_reread v
    case tail hx => exact STObject.encodable_each o x hx

theorem STArray.encodable_each :
    (a : STArray) → a.Fields fun v => v.Parsed → v.Reread → v.Encodable
  | .nil => trivial
  | .cons _ o a => ⟨STObject.encodable_each o, STArray.encodable_each a⟩

end

namespace STObject

-- An object that was accepted can be written and is accepted again as the same object exactly if no
-- variable-length data in it is too long and each of its path elements has a type.
theorem reparse_iff_encodable {b rest : Blob} {o : STObject}
    (h : ofSerialIter b = .ok (o, rest)) :
    (∃ b' o' s, (o.add true = .ok b') ∧ (ofSerialIter b' = .ok (o', s)) ∧
      (o'.canon = o.canon)) ↔ o.Encodable := by
  have ⟨⟨o₁, s₁⟩, ho, h⟩ := bind_eq_ok.mp h
  have ⟨o₂, hcd, h⟩ := bind_eq_ok.mp h
  cases h
  have ⟨hp, hd⟩ := (readsParsed _).object (zero_le _) ho
  have ⟨heq, hnd⟩ := nodup_of_checkDuplicates hp hcd
  subst heq
  constructor
  case mp =>
    rintro ⟨b', o', s, ha, hr, hc⟩
    have ⟨fields, hf, ha⟩ := bind_eq_ok.mp ha
    cases ha
    rw [hp.sortedData hf] at hr
    have ⟨⟨o₃, s₂⟩, ho', hr⟩ := bind_eq_ok.mp hr
    have ⟨o₄, hcd', hr⟩ := bind_eq_ok.mp hr
    cases hr
    have ⟨heq, _⟩ := nodup_of_checkDuplicates ((readsParsed _).object (zero_le _) ho').left hcd'
    subst heq
    rw [← append_nil (sortedData _)] at ho'
    exact encodable_of_reread hp hnd (by omega) hf (encodable_each _) (by simp) ho' hc
  case mpr =>
    intro he
    have hwf := WF.of_parsed _ hp hnd he
    have ⟨o', hr, hc⟩ := hwf.ofSerialIter (by omega)
    exact ⟨_, o', [], hwf.add, hr, hc⟩

theorem reparse_encodable_account :
    (ofSerialIter [0x81, 0x00] = .ok (cons sfAccount (.account none) nil, [])) ∧
    ∃ b' o' s, ((cons sfAccount (.account none) nil).add true = .ok b') ∧
      (ofSerialIter b' = .ok (o', s)) ∧
      (o'.canon = (cons sfAccount (.account none) nil).canon) :=
  ⟨rfl, (reparse_iff_encodable (b := [0x81, 0x00]) rfl).mpr ⟨trivial, trivial⟩⟩

-- A path element with an account of zero is accepted, but gets no type; what is written then ends
-- before the element, and a path without elements is not accepted.
theorem reparse_untyped_element :
    let o := cons sfPaths (.pathset [[⟨STPathElement.typeNone, 0, 0, 0⟩]]) nil
    (ofSerialIter ([0x01, 0x12, 0x01] ++ replicate 20 0 ++ [0x00]) = .ok (o, [])) ∧
    (o.add true = .ok [0x01, 0x12, 0x00, 0x00]) ∧
    (ofSerialIter [0x01, 0x12, 0x00, 0x00] = .error "empty path") :=
  ⟨rfl, rfl, rfl⟩

end STObject
