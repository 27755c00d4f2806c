import Bixd.Protocol.Theorems.Serializer
import Bixd.SHAMap.Wire

open Serializer List

namespace SHAMap

open SHAMapTreeNode

namespace Tree

namespace Hashed

-- What of a node goes into its hash. Whether a branch of hash zero counts as empty does not.
inductive Content
  | none
  | leaf (type : LeafType) (item : SHAMapItem)
  | inner (hashes : Fin 16 → UInt256)

def content : Hashed → Content
  | leaf ty i    => .leaf ty i
  | inner hashes => if ∀ b, hashes b = none then .none else .inner (fun b => (hashes b).getD 0)

-- The branches that are not empty have hashes other than zero.
def Canonical (hashes : Fin 16 → Option UInt256) : Prop :=
  ∀ b, hashes b ≠ some 0

variable {n : Hashed} {b : Fin 16}

theorem getChildHash_of_content {n' : Hashed} (h : n.content = n'.content) :
    n.getChildHash b = n'.getChildHash b := by
  cases n
  case leaf =>
    cases n'
    case leaf => rfl
    case inner => simp only [content] at h; split at h <;> cases h
  case inner hs =>
    cases n'
    case leaf => simp only [content] at h; split at h <;> cases h
    case inner hs' =>
      simp only [content] at h
      split at h <;> split at h
      case isTrue.isTrue he he' => simp [getChildHash, he, he']
      case isFalse.isFalse => exact congrFun (Content.inner.inj h) b
      all_goals cases h

theorem eq_leaf_of_content (h : n.content = .leaf ty i) : n = leaf ty i := by
  cases n
  case leaf => cases h; rfl
  case inner => simp only [content] at h; split at h <;> cases h

theorem eq_of_content {n' : Hashed} (h : n.content = n'.content)
    (hc : ∀ hashes, n = inner hashes → Canonical hashes)
    (hc' : ∀ hashes, n' = inner hashes → Canonical hashes) : n = n' := by
  cases n
  case leaf => exact (eq_leaf_of_content h.symm).symm
  case inner hs =>
    cases n'
    case leaf => exact eq_leaf_of_content h
    case inner hs' =>
      simp only [content] at h
      split at h <;> split at h
      case isTrue.isTrue he he' => exact congrArg inner (funext fun b => (he b).trans (he' b).symm)
      case isFalse.isFalse =>
        refine congrArg inner (funext fun b => ?_)
        have hb := congrFun (Content.inner.inj h) b
        have hz := hc hs rfl b
        have hz' := hc' hs' rfl b
        cases ho : hs b <;> cases ho' : hs' b <;> simp_all
      all_goals cases h

theorem isInner_of_content {n' : Hashed} (h : n.content = n'.content) : n.isInner = n'.isInner := by
  cases n <;> cases n' <;> simp only [content] at h
  case leaf.leaf => rfl
  case inner.inner => rfl
  all_goals split at h <;> cases h

section Decode

variable {l : List (Fin 16 × UInt256)} {data : Blob}

theorem bitString_append {data : Blob} :
    bitString (data ++ (addBitString v ++ s)) data.length = v := by
  have hl : (addBitString v).length = 32 := by simp [addBitString]
  have hv : v.toNat < 256 ^ 32 := v.isLt
  rw [bitString, drop_left, take_left' hl]
  simp [addBitString, Bytes.toNat_ofNat_of_lt hv]

theorem bitString_addBitString {v : UInt256} {s : Blob} :
    bitString (addBitString v ++ s) 0 = v :=
  @bitString_append v s []

-- The hashes after entries of a branch and a hash were written one after the other.
def written (l : List (Fin 16 × UInt256)) : Fin 16 → Option UInt256 :=
  l.foldl (fun acc e => putHash acc e.1 e.2) fun _ => none

def hashesAt (b : Fin 16) (l : List (Fin 16 × UInt256)) : List UInt256 :=
  l.filterMap fun e => if e.1 = b then some e.2 else none

theorem written_eq :
    written l b = if ∃ h ∈ hashesAt b l, h ≠ 0 then (hashesAt b l).getLast? else none := by
  induction l using reverseRecOn
  case nil => simp [written, hashesAt]
  case append_singleton l e hi =>
    have hw : written (l ++ [e]) = putHash (written l) e.1 e.2 := by simp [written]
    rw [hw, putHash]
    by_cases hb : b = e.1
    case pos =>
      have ha : hashesAt b (l ++ [e]) = hashesAt b l ++ [e.2] := by simp [hashesAt, hb]
      have hs : (written l b).isSome ↔ ∃ h ∈ hashesAt b l, h ≠ 0 := by
        rw [hi]
        split
        case isTrue h => simpa [ne_nil_of_mem h.choose_spec.left] using h
        case isFalse h => simpa using h
      rw [ha, ← hb, Function.update_self, getLast?_concat]
      simp only [hs, mem_append, mem_singleton, or_and_right, exists_or, exists_eq_left, or_comm]
    case neg =>
      have ha : hashesAt b (l ++ [e]) = hashesAt b l := by simp [hashesAt, Ne.symm hb]
      rw [ha, Function.update_of_ne hb, hi]

-- The entries of the branches that have a hash, in their order.
def branches (f : Fin 16 → Option UInt256) : List (Fin 16 × UInt256) :=
  (finRange 16).filterMap fun b => (f b).map (Prod.mk b)

theorem hashesAt_branches : hashesAt b (branches f) = (f b).toList := by
  have hf {l : List (Fin 16)} (hn : l.Nodup) :
      (l.filterMap fun c => if c = b then f c else none) = if b ∈ l then (f b).toList else [] := by
    induction l
    case nil => rfl
    case cons c l hi =>
      have ⟨hc, hn⟩ := nodup_cons.mp hn
      rw [filterMap_cons]
      by_cases hb : c = b
      case pos =>
        subst hb
        cases ho : f c <;> simp [hi hn, hc]
      case neg => simp [hi hn, hb, Ne.symm hb]
  have he (c : Fin 16) : (((f c).map (Prod.mk c)).bind fun e => if e.1 = b then some e.2 else none) =
      if c = b then f c else none := by
    cases f c <;> simp
  rw [hashesAt, branches, filterMap_filterMap]
  simp only [he, hf (nodup_finRange 16), mem_finRange, if_true]

theorem written_branches : written (branches f) b = (f b).filter (· ≠ 0) := by
  rw [written_eq, hashesAt_branches]
  cases f b <;> simp [Option.filter]

theorem written_branches_of_canonical (hc : Canonical hashes)
    (hf : ∀ b, (f b).getD 0 = (hashes b).getD 0) : written (branches f) = hashes := by
  funext b
  have hb := hc b
  have hf := hf b
  rw [written_branches]
  cases hh : hashes b <;> cases ho : f b <;> simp_all [Option.filter]

-- The entries of a node that is sent without its empty branches.
def entries : Nat → Blob → Option (List (Fin 16 × UInt256))
  | 0, _ => some []
  | n + 1, data =>
    if h : (data.getD 32 0).toNat < 16 then
      ((⟨_, h⟩, bitString data 0) :: ·) <$> entries n (data.drop 33)
    else
      none

theorem loop_eq_ok {n : Nat} : makeCompressedInner.loop acc n data = .ok hashes ↔
    ∃ l, entries n data = some l ∧ l.foldl (fun acc e => putHash acc e.1 e.2) acc = hashes := by
  induction n generalizing acc data
  case zero => simp [makeCompressedInner.loop, entries]
  case succ n hi =>
    rw [makeCompressedInner.loop, entries]
    split
    case isTrue h => simp [hi]
    case isFalse h => simp

def entry (e : Fin 16 × UInt256) : Blob :=
  addBitString e.2 ++ [UInt8.ofNat e.1]

theorem entries_flatMap : entries l.length (l.flatMap entry) = some l := by
  induction l
  case nil => rfl
  case cons e l hi =>
    have hpos : (UInt8.ofNat e.1.val).toNat = e.1.val := SerialIter.toNat_ofNat_byte (by omega)
    have hd : ((e :: l).flatMap entry).drop 33 = l.flatMap entry :=
      drop_left' (by simp [entry])
    have hg : ((e :: l).flatMap entry).getD 32 0 = UInt8.ofNat e.1.val := by
      simp [entry, getD_eq_getElem?_getD]
    have hb : bitString ((e :: l).flatMap entry) 0 = e.2 := by
      rw [flatMap_cons, entry, append_assoc, bitString_addBitString]
    rw [length_cons, entries]
    simp only [hg, hpos, e.1.isLt, dif_pos, hd, hb, hi]
    rfl

theorem compressed_eq : serializeForWire.compressed hashes = (branches hashes).flatMap entry := by
  rw [serializeForWire.compressed, branches]
  induction finRange 16
  case nil => rfl
  case cons b l hi => cases hb : hashes b <;> simp [hb, hi, entry]

theorem makeCompressedInner_compressed (hc : Canonical hashes) :
    makeCompressedInner (serializeForWire.compressed hashes) = .ok (inner hashes) := by
  have hl : ((branches hashes).flatMap entry).length / 33 = (branches hashes).length := by
    simp [length_flatMap, entry]
  have hw := written_branches_of_canonical hc fun _ => rfl
  rw [makeCompressedInner, compressed_eq, hl, loop_eq_ok.mpr ⟨_, entries_flatMap, hw⟩]
  rfl

theorem makeFullInner_eq (h : data.length = 512) : makeFullInner data =
    .ok (inner (written (branches fun i => some (bitString data (i * 32))))) := by
  rw [makeFullInner, if_neg (not_not.mpr h), written, branches]
  simp [foldl_map]

theorem bitString_flatMap {f : Fin 16 → UInt256} {l : List (Fin 16)} {i : Nat} (hi : i < l.length) :
    bitString (l.flatMap fun b => addBitString (f b)) (i * 32) = f (l.get ⟨i, hi⟩) := by
  induction l generalizing i
  case nil => exact absurd hi (Nat.not_lt_zero _)
  case cons b l ih =>
    cases i
    case zero => simp [bitString_addBitString]
    case succ i =>
      have hd : (addBitString (f b) ++
          l.flatMap fun b => addBitString (f b)).drop ((i + 1) * 32) =
          (l.flatMap fun b => addBitString (f b)).drop (i * 32) := by
        rw [show (i + 1) * 32 = (addBitString (f b)).length + i * 32 by
          rw [length_addBitString]; omega, ← drop_drop, drop_left]
      have hl := Nat.lt_of_succ_lt_succ hi
      rw [flatMap_cons, bitString, hd]
      exact ih hl

theorem makeFullInner_flatMap (hc : Canonical hashes) :
    makeFullInner ((finRange 16).flatMap fun b => addBitString ((hashes b).getD 0)) =
      .ok (inner hashes) := by
  have hl : ((finRange 16).flatMap fun b =>
      addBitString ((hashes b).getD 0)).length = 512 := by
    simp [length_flatMap]
  have hf (b : Fin 16) : bitString ((finRange 16).flatMap fun b =>
      addBitString ((hashes b).getD 0)) (b * 32) = (hashes b).getD 0 := by
    rw [bitString_flatMap (f := fun b => (hashes b).getD 0) (by simp)]
    simp
  rw [makeFullInner_eq hl, written_branches_of_canonical (f := fun i => some (bitString _ (i * 32))) hc hf]

theorem makeFromWire_append [Digest] :
    makeFromWire (data ++ [type]) = some <$> makeFromWire.make type data := by
  simp [makeFromWire]

theorem makeFromWire_inner [Digest] (hc : Canonical hashes) :
    makeFromWire (inner hashes).serializeForWire = .ok (some (inner hashes)) := by
  rw [serializeForWire]
  split
  case isTrue =>
    rw [makeFromWire_append, makeFromWire.make]
    rw [if_neg (by decide), if_neg (by decide), if_neg (by decide), if_pos rfl,
      makeCompressedInner_compressed hc]
    rfl
  case isFalse =>
    rw [makeFromWire_append, makeFromWire.make]
    rw [if_neg (by decide), if_neg (by decide), if_pos rfl, makeFullInner_flatMap hc]
    rfl

end Decode

section Hash

variable [Digest]

def Content.hash : Content → UInt256
  | none => 0
  | leaf ty i => leafHash ty i
  | inner hashes => Digest.sha512Half <|
      HashPrefix.innerNode ++ (finRange 16).flatMap (fun b => (hashes b).bytes)

theorem hash_content : n.content.hash = n.hash := by
  cases n
  case leaf => rfl
  case inner hashes =>
    simp only [content, hash, innerHash]
    split <;> rfl

-- Zero is the last of the hashes that are written to a branch, but not the only one.
def Overwritten (raw : Blob) : Prop :=
  raw.getLast? = some wireTypeCompressedInner ∧
    ∃ l, entries (raw.dropLast.length / 33) raw.dropLast = some l ∧
      ∃ b, (∃ h ∈ hashesAt b l, h ≠ 0) ∧ (hashesAt b l).getLast? = some 0

variable {raw₁ raw₂ : Blob} {hashes₁ hashes₂ : Fin 16 → Option UInt256}

theorem makeFromWire_eq_inner (h : makeFromWire raw = .ok (some (inner hashes))) :
    (raw.getLast? = some wireTypeInner ∧ ∃ f, hashes = written (branches f)) ∨
      raw.getLast? = some wireTypeCompressedInner ∧
        ∃ l, entries (raw.dropLast.length / 33) raw.dropLast = some l ∧ hashes = written l := by
  unfold makeFromWire at h
  split at h
  case h_1 => cases h
  case h_2 type hl =>
    rw [hl]
    generalize raw.dropLast = data at h
    have h : makeFromWire.make type data = .ok (inner hashes) := by
      cases hm : makeFromWire.make type data <;> simp_all
    rw [makeFromWire.make] at h
    split at h
    case isTrue => cases h
    split at h
    case isTrue =>
      rw [makeAccountState] at h
      split at h
      case isTrue => cases h
      dsimp only at h
      split at h <;> cases h
    split at h
    case isTrue ht =>
      by_cases hd : data.length = 512
      case neg => rw [makeFullInner, if_pos hd] at h; cases h
      rw [makeFullInner_eq hd] at h
      cases h
      exact .inl ⟨congrArg some ht, _, rfl⟩
    split at h
    case isTrue ht =>
      have ⟨hs, hloop, h⟩ := Except.bind_eq_ok.mp h
      cases h
      have ⟨l, he, hl⟩ := loop_eq_ok.mp hloop
      exact .inr ⟨congrArg some ht, l, he, hl.symm⟩
    split at h
    case isTrue =>
      rw [makeTransactionWithMeta] at h
      split at h <;> cases h
    case isFalse => cases h

-- A branch that is not empty has a hash other than zero unless that was overwritten.
theorem canonical_iff (h : makeFromWire raw = .ok (some (inner hashes))) :
    Canonical hashes ↔ ¬ Overwritten raw := by
  obtain ⟨hl, f, hf⟩ | ⟨hl, l, he, hw⟩ := makeFromWire_eq_inner h
  case inl =>
    refine iff_of_true (fun b => ?_) fun ⟨hc, _⟩ => ?_
    · rw [hf, written_branches, Ne, Option.filter_eq_some_iff]
      simp
    · rw [hl] at hc
      exact absurd hc (by decide)
  case inr =>
    rw [Overwritten, not_and, not_exists]
    refine ⟨fun hc _ l' ⟨he', b, hb, hz⟩ => hc b ?_, fun hc b hb => hc hl l ⟨he, b, ?_⟩⟩
    · cases he.symm.trans he'
      rw [hw, written_eq, if_pos hb, hz]
    · rw [hw, written_eq] at hb
      split at hb
      case isTrue hm => exact ⟨hm, hb⟩
      case isFalse => cases hb

-- Nodes of one hash have the same branches unless a hash was overwritten with zero, which does not
-- make the branch an empty one again.
theorem makeFromWire_pinned_iff (h₁ : makeFromWire raw₁ = .ok (some (inner hashes₁)))
    (h₂ : makeFromWire raw₂ = .ok (some (inner hashes₂)))
    (hinj : Set.InjOn Content.hash {(inner hashes₁).content, (inner hashes₂).content}) :
    ((inner hashes₁).hash = (inner hashes₂).hash →
      ∀ b, ((hashes₁ b).isSome = (hashes₂ b).isSome) ∧
        ((inner hashes₁).getChildHash b = (inner hashes₂).getChildHash b) ∧
        ((hashes₁ b).isSome ↔ (inner hashes₁).getChildHash b ≠ 0)) ↔
    ((inner hashes₁).hash = (inner hashes₂).hash → ¬ Overwritten raw₁ ∧ ¬ Overwritten raw₂) := by
  rw [← canonical_iff h₁, ← canonical_iff h₂]
  refine forall_congr' fun he => ⟨fun h => ?_, fun ⟨hc₁, hc₂⟩ b => ?_⟩
  case refine_1 =>
    refine ⟨fun b hb => ?_, fun b hb => ?_⟩
    · have ⟨_, _, hz⟩ := h b
      simp [getChildHash, hb] at hz
    · have ⟨hs, hg, hz⟩ := h b
      simp [getChildHash, hb, hs] at hg hz
      exact hz hg
  case refine_2 =>
    have hc : (inner hashes₁).content = (inner hashes₂).content := by
      apply hinj (.inl rfl) (.inr rfl)
      rw [hash_content, hash_content, he]
    have heq := eq_of_content hc (fun _ h => inner.inj h ▸ hc₁) fun _ h => inner.inj h ▸ hc₂
    cases heq
    refine ⟨rfl, rfl, ?_⟩
    have hb := hc₁ b
    cases hh : hashes₁ b <;> simp_all [getChildHash]

end Hash
end Hashed
end Tree
end SHAMap
