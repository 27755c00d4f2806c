import Bixd.Protocol.Theorems.Fields
import Bixd.Protocol.Theorems.STAmount
import Bixd.Protocol.Theorems.STPathSet

open SerializedTypeID List SerialIter STObject Except SField Nat STPathElement

mutual

def STVar.WF : STVar → Prop
  | .amount a => a.InRange
  | .vl b => b.length ≤ 918744
  | .vector256 v => 32 * v.length ≤ 918744
  | .pathset ps => STPathSet.WellTyped ps
  | .object o => o.WF
  | .array a => a.WF
  | _ => True

def STObject.WF : STObject → Prop
  | .nil => True
  | .cons f v o =>
    f.IsKnown ∧ f.isBinary ∧ v.getSType = f.fieldType ∧ v.Conforms f ∧ v.WF ∧ f ∉ o.fields ∧ o.WF

def STArray.WF : STArray → Prop
  | .nil => True
  | .cons f o a => f.IsKnown ∧ f.fieldType = STI_OBJECT ∧ o.Conforms f ∧ o.WF ∧ a.WF

end

namespace STVector256

open Serializer

variable {v : List (BitVec 256)}

theorem length_flatMap : (v.flatMap addBitString).length = 32 * v.length := by
  induction v
  case nil => rfl
  case cons x v hi =>
    rw [flatMap_cons, length_append, hi, length_addBitString, length_cons]
    omega

theorem drop_flatMap :
    (v.flatMap addBitString).drop (32 * i) = (v.drop i).flatMap addBitString := by
  induction v generalizing i
  case nil => simp
  case cons x v hi =>
    cases i
    case zero => rfl
    case succ i =>
      have he : 32 * (i + 1) = (addBitString x).length + 32 * i := by
        rw [length_addBitString]
        omega
      rw [flatMap_cons, he, drop_length_add_append, hi]
      rfl

theorem ofBlob_flatMap : ofBlob (v.flatMap addBitString) = v := by
  apply ext_getElem
  · simp [ofBlob]
  · intro i _ hi
    have hb := (v[i]).isLt
    have ht : ((v.drop i).flatMap addBitString).take 32 = addBitString v[i] := by
      rw [drop_eq_getElem_cons hi, flatMap_cons]
      exact take_left' length_addBitString
    simp only [ofBlob, getElem_map, getElem_range, drop_flatMap, ht]
    rw [addBitString, Bytes.toNat_ofNat_of_lt hb, BitVec.ofNat_toNat, BitVec.setWidth_eq]

end STVector256

namespace STVar

-- The data that is added for a value that can be serialized.
def data (v : STVar) : Blob :=
  match v.add with
  | .ok b    => b
  | .error _ => []

def endMark (v : STVar) : Blob :=
  if v.getSType = STI_ARRAY ∨ v.getSType = STI_OBJECT then
    Serializer.addFieldID v.getSType.code 1
  else
    []

theorem data_eq {v : STVar} (h : v.add = .ok b) : v.data = b := by
  simp [data, h]

theorem getSType_canon (v : STVar) : v.canon.getSType = v.getSType := by
  cases v <;> rfl

theorem exists_object {v : STVar} (h : v.getSType = STI_OBJECT) : ∃ o, v = object o := by
  cases v <;> simp_all [getSType]

theorem applyTemplateFromSField_of_ne {v : STVar} (h : v.getSType ≠ STI_OBJECT) :
    v.applyTemplateFromSField f = .ok v := by
  cases v <;> simp_all [getSType, applyTemplateFromSField]

-- A value is read back from its data and what marks its end, up to the order of fields in it.
structure RoundTrip (v : STVar) : Prop where
  add_ok : ∃ b, v.add = .ok b
  read   : ∀ {f n d s}, v.getSType = f.fieldType → d + v.depth ≤ 10 →
    2 * (v.data ++ v.endMark ++ s).length + 2 ≤ n →
    ∃ v', (ofSerialIter n f d (v.data ++ v.endMark ++ s) = .ok (v', s)) ∧ (v'.canon = v.canon)

theorem RoundTrip.of_scalar {v : STVar} (ha : v.add = .ok b) (hm : v.endMark = [])
    (hr : ∀ {f : SField} {n d : Nat} {rest : Blob}, v.getSType = f.fieldType → d ≤ 10 →
      ofSerialIter (n + 1) f d (b ++ rest) = .ok (v, rest)) : v.RoundTrip where
  add_ok := ⟨b, ha⟩
  read hf hd hn := by
    rename_i f n d rest
    obtain _ | n := n
    · omega
    refine ⟨v, ?_, rfl⟩
    rw [data_eq ha, hm, append_nil]
    exact hr hf (by omega)

end STVar

namespace STObject

open STVar

-- A field as it is serialized.
def fieldData (x : SField × STVar) : Blob :=
  addField x.fst x.snd x.snd.data

theorem addEach_ok {o : STObject}
    (h : ∀ x ∈ o.toList, x.fst.shouldInclude w ∧ ∃ b, x.snd.add = .ok b) :
    o.addEach w = .ok (o.toList.map (fun x => (x.fst, fieldData x))) := by
  induction o
  case nil => rfl
  case cons f v o hi =>
    have ⟨hs, b, hb⟩ := h (f, v) (by simp [toList])
    have ho := hi (fun x hx => h x (by simp [toList, hx]))
    simp only [addEach, hs, if_true, hb, ho, ok_bind, toList, map_cons, fieldData,
      data_eq hb, pure_eq_ok]

theorem flatMap_sorted {l : List (SField × STVar)} :
    ((l.map (fun x => (x.fst, fieldData x))).insertionSort codeLE).flatMap Prod.snd =
      (l.insertionSort codeLE).flatMap fieldData := by
  rw [← map_insertionSort_codeLE (g := fun x => (x.fst, fieldData x)) (fun _ => rfl), flatMap_map]

-- What is needed of a field in an object at depth `d` for it to be read back.
structure Readable (d : Nat) (x : SField × STVar) : Prop where
  known     : x.fst.IsKnown
  binary    : x.fst.isBinary
  type      : x.snd.getSType = x.fst.fieldType
  conforms  : x.snd.Conforms x.fst
  nodup     : ∀ o, x.snd = .object o → o.fields.Nodup ∧ ∀ f ∈ o.fields, f.IsKnown
  depth     : d + 1 + x.snd.depth ≤ 10
  roundTrip : x.snd.RoundTrip

theorem Conforms.canon {o o' : STObject} (h : o.Conforms f) (hc : o'.canon = o.canon)
    (hn : o.fields.Nodup) (hk : ∀ f ∈ o.fields, f.IsKnown) :
    ∃ o'', (o'.applyTemplateFromSField f = .ok o'') ∧ (o''.canon = o.canon) := by
  have hp := fields_perm_of_canon hc
  have ⟨o'', ha, hp'⟩ := (h.congr hp).applyTemplate_ok (hp.nodup_iff.mpr hn)
  have hf := hp'.map Prod.fst
  refine ⟨o'', ha, hc ▸ canon_eq_of_perm ?_ ?_ ?_⟩
  · exact fun g hg => hk g ((hf.trans hp).mem_iff.mp hg)
  · exact (hf.trans hp).nodup_iff.mpr hn
  · rw [canonEach_eq, canonEach_eq]
    exact hp'.map _

theorem Readable.applyTemplate (h : Readable d x) {v : STVar} (hv : v.canon = x.snd.canon) :
    ∃ v', (v.applyTemplateFromSField x.fst = .ok v') ∧ (v'.canon = x.snd.canon) := by
  have ht : v.getSType = x.snd.getSType := by rw [← getSType_canon, hv, getSType_canon]
  by_cases hx : x.snd.getSType = STI_OBJECT
  case pos =>
    have ⟨o, ho⟩ := exists_object hx
    obtain ⟨o', rfl⟩ := exists_object (ht.trans hx)
    have ⟨hn, hk⟩ := h.nodup o ho
    have hco := h.conforms
    rw [ho] at hv hco ⊢
    have hc := object.inj hv
    have ⟨o'', ha, hc'⟩ := Conforms.canon hco hc hn hk
    exact ⟨.object o'', by simp [STVar.applyTemplateFromSField, ha], congrArg object hc'⟩
  case neg => exact ⟨v, applyTemplateFromSField_of_ne (ht ▸ hx), hv⟩

theorem fieldData_eq : fieldData x =
    Serializer.addFieldID x.fst.fieldType.code x.fst.fieldValue ++
      (x.snd.data ++ x.snd.endMark) := by
  rw [fieldData, addField, append_assoc]
  rfl

theorem addFieldID_ne_nil : Serializer.addFieldID type name ≠ [] := by
  unfold Serializer.addFieldID
  split <;> split <;> simp

theorem isEmpty_addFieldID : (Serializer.addFieldID type name ++ b).isEmpty = false := by
  simp [addFieldID_ne_nil]

theorem getFieldID_known {f : SField} (hk : f.IsKnown) (hb : f.isBinary) :
    getFieldID (Serializer.addFieldID f.fieldType.code f.fieldValue ++ s) =
      .ok ((f.fieldType.code, f.fieldValue), s) := by
  apply getFieldID_addFieldID f.fieldType.code_pos f.fieldType.code_lt
  · exact hk.value_bounds.left
  · exact of_decide_eq_true hb

theorem not_endMarker {f : SField} (hk : f.IsKnown) :
    ¬(f.fieldType.code = STI_OBJECT.code ∧ f.fieldValue = 1) ∧
    ¬(f.fieldType.code = STI_ARRAY.code ∧ f.fieldValue = 1) :=
  ⟨fun h => hk.not_endMarker.left ⟨code_inj h.left, h.right⟩,
    fun h => hk.not_endMarker.right ⟨code_inj h.left, h.right⟩⟩

theorem setFields_fieldData (h : Readable d x) (hn : 2 * (fieldData x ++ s).length + 1 ≤ n + 1) :
    ∃ v, (v.canon = x.snd.canon) ∧ setFields (n + 1) d (fieldData x ++ s) = (do
      let (o, s) ← setFields n d s
      return (cons x.fst v o, s)) := by
  have hid : 0 < (Serializer.addFieldID x.fst.fieldType.code x.fst.fieldValue).length :=
    length_pos_of_ne_nil addFieldID_ne_nil
  rw [fieldData_eq, append_assoc] at hn ⊢
  have hn' : 2 * (x.snd.data ++ x.snd.endMark ++ s).length + 2 ≤ n := by
    rw [length_append] at hn
    omega
  have ⟨v, hr, hc⟩ := h.roundTrip.read h.type h.depth hn'
  have ⟨v', ha, hc'⟩ := h.applyTemplate hc
  refine ⟨v', hc', ?_⟩
  have ⟨ho, har⟩ := not_endMarker h.known
  rw [setFields, isEmpty_addFieldID, getFieldID_known h.known h.binary, Except.ok_bind]
  simp only [Bool.false_eq_true, if_false, ho, har, h.known.getField, hr, ha, Except.ok_bind]

theorem setFields_flatMap {tail : Blob}
    (hl : ∀ x ∈ l, Readable d x) (ht : ∀ m, setFields (m + 1) d tail = .ok (nil, rest))
    (hn : 2 * (l.flatMap fieldData ++ tail).length + 1 ≤ n) :
    ∃ o, (setFields n d (l.flatMap fieldData ++ tail) = .ok (o, rest)) ∧
      (o.canonEach = (ofList l).canonEach) := by
  induction l generalizing n
  case nil =>
    obtain _ | n := n
    · omega
    exact ⟨nil, ht n, rfl⟩
  case cons x l hi =>
    obtain _ | n := n
    · omega
    have hx := hl x mem_cons_self
    rw [flatMap_cons, append_assoc] at hn ⊢
    have ⟨v, hc, hs⟩ := setFields_fieldData hx hn
    have hlen : 0 < (fieldData x).length := by
      rw [fieldData_eq, length_append]
      exact Nat.add_pos_left (length_pos_of_ne_nil addFieldID_ne_nil) _
    rw [length_append] at hn
    have ⟨o, ho, hoc⟩ := hi (n := n) (fun y hy => hl y (mem_cons_of_mem _ hy)) (by omega)
    refine ⟨cons x.fst v o, by simp [hs, ho], ?_⟩
    rw [ofList, canonEach, canonEach, hoc, hc]

theorem WF.mem {o : STObject} (h : o.WF) (hx : x ∈ o.toList) :
    x.fst.IsKnown ∧ x.fst.isBinary ∧ x.snd.getSType = x.fst.fieldType ∧ x.snd.Conforms x.fst ∧
      x.snd.WF := by
  induction o
  case nil => cases hx
  case cons f v o hi =>
    have ⟨hk, hb, ht, hc, hv, _, ho⟩ := h
    cases hx
    case head => exact ⟨hk, hb, ht, hc, hv⟩
    case tail hx => exact hi ho hx

theorem WF.nodup {o : STObject} (h : o.WF) : o.fields.Nodup := by
  induction o
  case nil => exact nodup_nil
  case cons f v o hi =>
    have ⟨_, _, _, _, _, hf, ho⟩ := h
    exact nodup_cons.mpr ⟨hf, hi ho⟩

theorem WF.known {o : STObject} (h : o.WF) : ∀ f ∈ o.fields, f.IsKnown := by
  intro f hf
  obtain ⟨x, hx, rfl⟩ := mem_map.mp hf
  exact (h.mem hx).left

theorem WF.shouldInclude {o : STObject} (h : o.WF) (hx : x ∈ o.toList) :
    x.fst.shouldInclude true := by
  simp [SField.shouldInclude, (h.mem hx).right.left]

theorem depth_mem {o : STObject} (hx : x ∈ o.toList) : x.snd.depth + 1 ≤ o.depth := by
  induction o
  case nil => cases hx
  case cons f v o hi =>
    cases hx
    case head => exact le_max_left _ _
    case tail hx => exact (hi hx).trans (le_max_right _ _)

-- The serialized fields of an object in the order in which they are added.
def sortedData (o : STObject) : Blob :=
  (o.toList.insertionSort codeLE).flatMap fieldData

theorem WF.addEach {o : STObject} (h : o.WF) (hr : ∀ x ∈ o.toList, x.snd.RoundTrip) :
    ∃ fields, (o.addEach true = .ok fields) ∧
      ((fields.insertionSort codeLE).flatMap Prod.snd = o.sortedData) :=
  ⟨_, addEach_ok fun x hx => ⟨h.shouldInclude hx, (hr x hx).add_ok⟩, flatMap_sorted⟩

theorem WF.setFields {o : STObject} {tail : Blob} (h : o.WF) (hr : ∀ x ∈ o.toList, x.snd.RoundTrip)
    (hd : d + o.depth ≤ 10) (ht : ∀ m, setFields (m + 1) d tail = .ok (nil, rest))
    (hn : 2 * (o.sortedData ++ tail).length + 1 ≤ n) :
    ∃ o', (setFields n d (o.sortedData ++ tail) = .ok (o', rest)) ∧ (o'.canon = o.canon) ∧
      (o'.checkDuplicates = .ok o') := by
  have hp := perm_insertionSort codeLE o.toList
  have hl : ∀ x ∈ o.toList.insertionSort codeLE, Readable d x := by
    intro x hx
    have hm := hp.mem_iff.mp hx
    have ⟨hk, hb, ht, hc, hv⟩ := h.mem hm
    refine ⟨hk, hb, ht, hc, ?_, by have := depth_mem hm; omega, hr x hm⟩
    intro o' ho
    rw [ho] at hv
    exact ⟨WF.nodup hv, WF.known hv⟩
  have ⟨o', hs, hc⟩ := setFields_flatMap hl ht hn
  rw [canonEach_eq (o := ofList _), toList_ofList] at hc
  have hpc : o'.canonEach.Perm o.canonEach := by
    rw [hc, canonEach_eq]
    exact hp.map _
  have hpf : o'.fields.Perm o.fields := by
    rw [← canonEach_fields, ← canonEach_fields]
    exact hpc.map _
  have hnd := hpf.nodup_iff.mpr h.nodup
  exact ⟨o', hs, canon_eq_of_perm (fun f hf => h.known f (hpf.mem_iff.mp hf)) hnd hpc,
    checkDuplicates_ok hnd⟩

theorem setFields_endMark (rest : Blob) :
    setFields (n + 1) d (Serializer.addFieldID STI_OBJECT.code 1 ++ rest) = .ok (nil, rest) := by
  have hg : getFieldID (Serializer.addFieldID STI_OBJECT.code 1 ++ rest) = _ :=
    getFieldID_addFieldID (by decide) (by decide) (by decide) (by decide)
  rw [setFields, isEmpty_addFieldID, hg]
  simp

end STObject

namespace STVar

theorem RoundTrip.object {o : STObject} (h : o.WF) (hr : ∀ x ∈ o.toList, x.snd.RoundTrip) :
    (STVar.object o).RoundTrip := by
  have ha : (STVar.object o).add = .ok o.sortedData := by
    have ⟨fields, he, hs⟩ := h.addEach hr
    simp [add, he, hs]
  refine ⟨⟨_, ha⟩, ?_⟩
  intro f n d rest hf hd hn
  obtain _ | n := n
  · omega
  have hm : (STVar.object o).endMark = Serializer.addFieldID STI_OBJECT.code 1 := rfl
  rw [data_eq ha, hm, append_assoc] at hn ⊢
  have ⟨o', hs, hc, hcd⟩ := h.setFields (n := n) hr hd
    (fun _ => setFields_endMark rest) (by omega)
  have hd' : ¬ d > 10 := by omega
  have hf' : f.fieldType = STI_OBJECT := hf.symm
  refine ⟨.object o', ?_, congrArg STVar.object hc⟩
  rw [ofSerialIter, hf']
  simp [hd', hs, hcd]

end STVar

namespace STArray

def Fields (p : STVar → Prop) : STArray → Prop
  | nil => True
  | cons _ o a => (∀ x ∈ o.toList, p x.snd) ∧ a.Fields p

theorem ofSerialIter_endMark :
    ofSerialIter (n + 1) d (Serializer.addFieldID STI_ARRAY.code 1 ++ rest) = .ok (nil, rest) := by
  have hg : getFieldID (Serializer.addFieldID STI_ARRAY.code 1 ++ rest) = _ :=
    getFieldID_addFieldID (by decide) (by decide) (by decide) (by decide)
  rw [ofSerialIter, isEmpty_addFieldID, hg]
  simp

theorem isBinary_of_object {f : SField} (hk : f.IsKnown) (ht : f.fieldType = STI_OBJECT) :
    f.isBinary := by
  have ⟨t, v⟩ := f
  cases ht
  have hall : ∀ v ∈ (known STI_OBJECT).map Prod.fst, v < 256 := by decide
  exact decide_eq_true (hall v hk)

theorem read {a : STArray} (h : a.WF) (hr : a.Fields STVar.RoundTrip) :
    ∃ b, (a.add = .ok b) ∧ ∀ {n d s}, d + a.depth ≤ 10 →
      2 * (b ++ Serializer.addFieldID STI_ARRAY.code 1 ++ s).length + 1 ≤ n →
      ∃ a', (ofSerialIter n d (b ++ Serializer.addFieldID STI_ARRAY.code 1 ++ s) =
        .ok (a', s)) ∧ (a'.canon = a.canon) := by
  induction a
  case nil =>
    refine ⟨[], rfl, ?_⟩
    intro n d rest hd hn
    obtain _ | n := n
    · omega
    exact ⟨nil, ofSerialIter_endMark, rfl⟩
  case cons f o a hi =>
    have ⟨hk, ht, hc, ho, ha⟩ := h
    have ⟨hro, hra⟩ := hr
    have ⟨b, hb, hread⟩ := hi ha hra
    have hadd : (cons f o a).add = .ok (Serializer.addFieldID f.fieldType.code f.fieldValue ++
        o.sortedData ++ Serializer.addFieldID STI_OBJECT.code 1 ++ b) := by
      have ⟨fields, he, hs⟩ := ho.addEach hro
      simp [add, he, hb, hs]
    refine ⟨_, hadd, ?_⟩
    intro n d rest hd hn
    obtain _ | n := n
    · omega
    have hid : 0 < (Serializer.addFieldID f.fieldType.code f.fieldValue).length :=
      length_pos_of_ne_nil addFieldID_ne_nil
    rw [depth] at hd
    simp only [append_assoc, length_append] at hn hread ⊢
    have ⟨hno, hna⟩ := not_endMarker hk
    have hd' : ¬ d + 1 > 10 := by omega
    have ⟨o', hs, hco, hcd⟩ := ho.setFields (n := n) (d := d + 1) hro (by omega)
      (fun _ => setFields_endMark (b ++ (Serializer.addFieldID STI_ARRAY.code 1 ++ rest)))
      (by simp only [length_append]; omega)
    have ⟨o'', hat, hc'⟩ := hc.canon hco ho.nodup ho.known
    have ⟨a', har, hca⟩ := hread (n := n) (d := d) (s := rest) (by omega) (by omega)
    refine ⟨cons f o'' a', ?_, ?_⟩
    · rw [ofSerialIter, isEmpty_addFieldID, getFieldID_known hk (isBinary_of_object hk ht), Except.ok_bind]
      simp only [Bool.false_eq_true, if_false, hno, hna, hk.getField]
      simp only [ht, ne_eq, not_true_eq_false, if_false, hd', hs, hcd, hat, har, ok_bind,
        pure_eq_ok]
    · rw [canon, canon, hca]
      exact congrArg (cons f · a.canon) hc'

end STArray

namespace STVar

theorem RoundTrip.array {a : STArray} (h : a.WF) (hr : a.Fields RoundTrip) :
    (STVar.array a).RoundTrip := by
  have ⟨b, hb, hread⟩ := STArray.read h hr
  have ha : (STVar.array a).add = .ok b := by rw [add, hb]
  refine ⟨⟨_, ha⟩, ?_⟩
  intro f n d rest hf hd hn
  obtain _ | n := n
  · omega
  have hm : (STVar.array a).endMark = Serializer.addFieldID STI_ARRAY.code 1 := rfl
  rw [data_eq ha, hm] at hn ⊢
  have ⟨a', hs, hc⟩ := hread (n := n) (d := d) (s := rest) hd (by omega)
  have hd' : ¬ d > 10 := by omega
  have hf' : f.fieldType = STI_ARRAY := hf.symm
  refine ⟨.array a', ?_, congrArg STVar.array hc⟩
  rw [ofSerialIter, hf', if_neg hd']
  simp only [hs, ok_bind, pure_eq_ok]

theorem addVL_ok {b : Blob} (h : b.length ≤ 918744) : ∃ b', Serializer.addVL b = .ok b' := by
  have ⟨e, he⟩ := addEncoded_isOk.mpr h
  exact ⟨e ++ b, by simp [Serializer.addVL, he]⟩

theorem RoundTrip.vl {v : Blob} (h : v.length ≤ 918744) : (vl v).RoundTrip := by
  have ⟨b, hb⟩ := addVL_ok h
  refine .of_scalar (b := b) (by rw [add, hb]) rfl fun hf hd => ?_
  simp [ofSerialIter, ← hf, getSType, not_lt.mpr hd, getVL_addVL hb]

theorem RoundTrip.vector256 {v : List (BitVec 256)} (h : 32 * v.length ≤ 918744) :
    (vector256 v).RoundTrip := by
  have ⟨b, hb⟩ := addVL_ok (STVector256.length_flatMap (v := v) ▸ h)
  refine .of_scalar (b := b) (by rw [add, STVector256.add, hb]) rfl fun hf hd => ?_
  simp [ofSerialIter, ← hf, getSType, Nat.not_lt.mpr hd, STVector256.ofSerialIter,
    getVL_addVL hb, STVector256.ofBlob_flatMap]

theorem RoundTrip.account : (account v).RoundTrip := by
  cases v
  case none =>
    have ⟨b, hb⟩ := addVL_ok (b := []) (by decide)
    refine .of_scalar (b := b) (by rw [add, STAccount.add, hb]) rfl fun hf hd => ?_
    simp [ofSerialIter, ← hf, getSType, not_lt.mpr hd, STAccount.ofSerialIter, getVL_addVL hb]
  case some a =>
    have hl : (Serializer.addBitString a).length = 20 := Bytes.length_ofNat
    have ha := a.isLt
    have ⟨b, hb⟩ := addVL_ok (b := Serializer.addBitString a) (by rw [hl]; decide)
    have hne : Serializer.addBitString a ≠ [] := by
      rw [← length_pos_iff, hl]
      decide
    have ht : Bytes.toNat (Serializer.addBitString a) = a.toNat := Bytes.toNat_ofNat_of_lt ha
    refine .of_scalar (b := b) (by rw [add, STAccount.add, hb]) rfl fun hf hd => ?_
    simp [ofSerialIter, ← hf, getSType, not_lt.mpr hd, STAccount.ofSerialIter,
      getVL_addVL hb, hne, hl, ht]

end STVar

mutual

theorem STVar.WF.roundTrip : (v : STVar) → v.WF → v.RoundTrip
  | .uint8 _, _ | .uint16 _, _ | .uint32 _, _ | .uint64 _, _ | .hash128 _, _ | .hash160 _, _
  | .hash256 _, _ => .of_scalar rfl rfl fun hf hd => by
    simp [STVar.ofSerialIter, ← hf, STVar.getSType, not_lt.mpr hd, Serializer.add8,
      getBitString_addBitString]
  | .amount v, h => .of_scalar rfl rfl fun hf hd => by
    simp [STVar.ofSerialIter, ← hf, STVar.getSType, not_lt.mpr hd, STAmount.InRange.ofSerialIter_add h]
  | .pathset v, h => .of_scalar rfl rfl fun hf hd => by
    simp [STVar.ofSerialIter, ← hf, STVar.getSType, not_lt.mpr hd, STPathSet.ofSerialIter_add h]
  | .vl _, h => .vl h
  | .account _, _ => .account
  | .vector256 _, h => .vector256 h
  | .object o, h => .object h (STObject.WF.roundTrip o h)
  | .array a, h => .array h (STArray.WF.roundTrip a h)

theorem STObject.WF.roundTrip : (o : STObject) → o.WF → ∀ x ∈ o.toList, x.snd.RoundTrip
  | .nil, _ => nofun
  | .cons f v o, h => fun x hx => by
    have ⟨_, _, _, _, hv, _, ho⟩ := h
    cases hx
    case head => exact STVar.WF.roundTrip v hv
    case tail hx => exact STObject.WF.roundTrip o ho x hx

theorem STArray.WF.roundTrip : (a : STArray) → a.WF → a.Fields STVar.RoundTrip
  | .nil, _ => trivial
  | .cons f o a, h => by
    have ⟨_, _, _, ho, ha⟩ := h
    exact ⟨STObject.WF.roundTrip o ho, STArray.WF.roundTrip a ha⟩

end

namespace STObject

variable {o : STObject}

theorem WF.getSortedFields (h : o.WF) :
    o.getSortedFields true = o.toList.insertionSort codeLE := by
  rw [STObject.getSortedFields, filter_eq_self.mpr fun _ => h.shouldInclude]

theorem WF.add (h : o.WF) : o.add true = .ok o.sortedData := by
  have ⟨fields, he, hs⟩ := h.addEach (WF.roundTrip o h)
  simp [STObject.add, he, hs]

theorem WF.ofSerialIter (h : o.WF) (hd : o.depth ≤ 10) :
    ∃ o', (ofSerialIter o.sortedData = .ok (o', [])) ∧ (o'.canon = o.canon) := by
  have ht (m : Nat) : STObject.setFields (m + 1) 0 [] = .ok (nil, []) := rfl
  have ⟨o', hs, hc, hcd⟩ := h.setFields (n := 2 * o.sortedData.length + 1) (WF.roundTrip o h)
    (by omega) ht (by simp)
  rw [append_nil] at hs
  exact ⟨o', by simp [STObject.ofSerialIter, hs, hcd], hc⟩

-- Serialization adds the fields in the order of their codes, and the object is read back from it.
theorem canonical_encoding (h : o.WF) (hd : o.depth ≤ 10) :
    ((o.getSortedFields true).Pairwise fun x y => x.fst.fieldCode < y.fst.fieldCode) ∧
    (o.add true = .ok ((o.getSortedFields true).flatMap fieldData)) ∧
    (∃ o', (ofSerialIter ((o.getSortedFields true).flatMap fieldData) = .ok (o', [])) ∧
      (o'.canon = o.canon)) ∧
    (∀ o' : STObject, o'.WF → o'.depth ≤ 10 → o'.add true = o.add true → o'.canon = o.canon) := by
  rw [h.getSortedFields]
  have hk : ∀ x ∈ o.toList, x.fst.IsKnown := fun x hx => (h.mem hx).left
  refine ⟨pairwise_code_insertionSort hk h.nodup, h.add, h.ofSerialIter hd, ?_⟩
  intro o' h' hd' he
  have ⟨p, hp, hc⟩ := h.ofSerialIter hd
  have ⟨p', hp', hc'⟩ := h'.ofSerialIter hd'
  rw [h.add, h'.add, ok.injEq] at he
  rw [he, hp] at hp'
  cases hp'
  exact hc'.symm.trans hc

-- A set of no paths is not read back, nor is a signer without the fields of its template; the type
-- of a path element that says that there is an account is lost when the account is zero.
theorem canonical_encoding_lossy :
    (do ofSerialIter (← (cons sfPaths (.pathset []) nil).add true)) = .error "empty path" ∧
    (do ofSerialIter (← (cons sfSigner (.object nil) nil).add true)) =
      .error "Field 'Account' is required but missing." ∧
    (do ofSerialIter
          (← (cons sfPaths (.pathset [[⟨typeAccount, 0, 0, 0⟩]]) nil).add true)) =
      .ok (cons sfPaths (.pathset [[⟨typeNone, 0, 0, 0⟩]]) nil, []) :=
  ⟨rfl, rfl, rfl⟩

theorem canonical_encoding_signerEntry :
    let o := cons sfPaths (.pathset [[⟨typeAccount, 1, 0, 0⟩]]) <|
      cons sfSignerEntry
        (.object (cons sfSignerWeight (.uint16 1) (cons sfAccount (.account (some 1)) nil))) nil
    ∃ o', (ofSerialIter ((o.getSortedFields true).flatMap fieldData) = .ok (o', [])) ∧
      (o'.canon = o.canon) := by
  refine (canonical_encoding ?_ (by decide)).right.right.left
  have he : STPathElement.WellTyped ⟨typeAccount, 1, 0, 0⟩ :=
    ⟨by decide, rfl⟩
  have hp : STPathSet.WellTyped [[⟨typeAccount, 1, 0, 0⟩]] := by
    simpa [STPathSet.WellTyped] using he
  have hc : Conforms sfSignerEntry
      (cons sfSignerWeight (.uint16 1) (cons sfAccount (.account (some 1)) nil)) := by
    intro type ht g
    cases ht
    simp [or_comm]
  exact ⟨by decide, by decide, rfl, trivial, hp, by decide, by decide, by decide, rfl, hc,
    ⟨by decide, by decide, rfl, trivial, trivial, by decide, by decide, by decide, rfl, trivial,
      trivial, by decide, trivial⟩, by decide, trivial⟩

end STObject
