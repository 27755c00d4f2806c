import Bixd.SHAMap.Theorems.History
import Bixd.SHAMap.Theorems.Wire

open List Set

namespace SHAMap

open SHAMapTreeNode SHAMap.Tree

namespace Tree

section

variable {t : Tree} {key : UInt256} {ty : LeafType} {i : SHAMapItem} {b : Fin 16}

theorem Placed.walkTowardsKey (hp : t.Placed p) (hi : i ∈ t.items) :
    ∃ ty, t.walkTowardsKey i.key p.length = some (ty, i) := by
  induction t generalizing p
  case empty => cases hi
  case leaf ty j =>
    cases mem_singleton.mp hi
    exact ⟨ty, rfl⟩
  case inner ts ih =>
    have ⟨b, hb⟩ := mem_items_inner.mp hi
    have hn := (HasPath.append_iff.mp ((hp.right b).hasPath hb)).right
    have ⟨ty, hw⟩ := ih b (hp.right b) hb
    rw [length_append, length_singleton] at hw
    exact ⟨ty, by rw [Tree.walkTowardsKey, hn, hw]⟩

theorem mem_items_of_walkTowardsKey (h : t.walkTowardsKey key d = some (ty, i)) : i ∈ t.items := by
  induction t generalizing d
  case empty => cases h
  case leaf => cases h; simp [items]
  case inner ts hi => exact mem_items_inner.mpr ⟨_, hi _ h⟩

-- The tree that a branch leads to. There is nothing below an empty tree.
def child : Tree → Fin 16 → Tree
  | inner ts, b => ts b
  | empty, _ | leaf .., _ => empty

variable [Digest]

theorem hash_top : t.top.hash = t.hash := by
  cases t
  case empty => exact Hashed.hash_empty
  case leaf => rfl
  case inner => rfl

theorem getChildHash_top : t.top.getChildHash b = (t.child b).hash := by
  cases t
  case empty => rfl
  case leaf => rfl
  case inner ts =>
    simp only [top, Hashed.getChildHash, childHashes, child]
    split
    case isTrue he => rw [isEmpty_iff.mp he]; rfl
    case isFalse => rfl

theorem hashed_child : (t.child b).hashed ⊆ t.hashed := by
  cases t
  case empty => exact empty_subset _
  case leaf => exact empty_subset _
  case inner => exact hashed_child_subset b

theorem top_mem_hashed : t.top ∈ {Hashed.empty} ∪ t.hashed := by
  cases t
  case empty => exact .inl rfl
  case leaf => exact .inr rfl
  case inner => exact .inr mem_hashed_inner

theorem top_eq_leaf (h : t.top = .leaf ty i) : t = leaf ty i := by
  cases t
  case empty => cases h
  case leaf => cases h; rfl
  case inner => cases h

theorem walkTowardsKey_child (h : t.top.isInner) :
    t.walkTowardsKey key d = (t.child (key.nibble d)).walkTowardsKey key (d + 1) := by
  cases t
  case empty => rfl
  case leaf => cases h
  case inner => rfl

end
end Tree

-- The nodes that a path is read as.
def wireNodes [Digest] (path : List Blob) : Set Hashed :=
  { n | ∃ blob ∈ path, Hashed.makeFromWire blob = .ok (some n) }

section Verify

open Hashed

variable [Digest] {t : Tree} {ts : Fin 16 → Tree} {key : UInt256} {ty : LeafType}
variable {i : SHAMapItem} {S : Set Hashed}

section

variable (hinj : Set.InjOn Content.hash (content '' S)) (ht : {Hashed.empty} ∪ t.hashed ⊆ S)

include hinj ht

-- As long as the hashes agree, the path consists of the nodes on the walk along the key's branches.
theorem verifyProofPath.loop_sound (hb : wireNodes blobs ⊆ S) (hs : d + blobs.length = size)
    (h : verifyProofPath.loop key size d t.hash blobs = .ok true) :
    ∃ ty i blob, (blobs.getLast? = some blob) ∧ (makeFromWire blob = .ok (some (.leaf ty i))) ∧
      (t.walkTowardsKey key d = some (ty, i)) := by
  induction blobs generalizing t d
  case nil => cases h
  case cons blob rest hi =>
    have ⟨n, hn, h⟩ := Except.bind_eq_ok.mp h
    cases n
    case none => cases h
    case some n =>
      simp only at h
      split at h
      case isTrue => cases h
      case isFalse hh =>
        have hne := not_not.mp hh
        have hc : n.content = t.top.content := by
          apply hinj ⟨n, hb ⟨blob, mem_cons_self, hn⟩, rfl⟩ ⟨t.top, ht top_mem_hashed, rfl⟩
          rw [hash_content, hash_content, hash_top, hne]
        split at h
        case isTrue hin =>
          rw [getChildHash_of_content hc, getChildHash_top] at h
          have ht' : {Hashed.empty} ∪ (t.child (key.nibble d)).hashed ⊆ S :=
            (union_subset_union_right _ hashed_child).trans ht
          have hb' : wireNodes rest ⊆ S :=
            fun n ⟨blob, hm, he⟩ => hb ⟨blob, mem_cons_of_mem _ hm, he⟩
          have ⟨ty, i, blob', hl, hd, hw⟩ := hi ht' hb' (by rw [← hs, length_cons]; omega) h
          refine ⟨ty, i, blob', ?_, hd, ?_⟩
          · rw [getLast?_cons, hl]; rfl
          · rw [walkTowardsKey_child (isInner_of_content hc ▸ hin), hw]
        case isFalse hin =>
          have hsize := of_decide_eq_true (Except.ok.inj h)
          have hr : rest = [] := length_eq_zero_iff.mp (by rw [length_cons] at hs; omega)
          cases n
          case inner => exact absurd rfl hin
          case leaf ty i =>
            refine ⟨ty, i, blob, by rw [hr]; rfl, hn, ?_⟩
            rw [top_eq_leaf (eq_leaf_of_content hc.symm)]
            rfl

theorem verifyProofPath_sound (hb : wireNodes path ⊆ S) (h : verifyProofPath t.hash key path) :
    ∃ ty i blob, (path.head? = some blob) ∧ (makeFromWire blob = .ok (some (.leaf ty i))) ∧
      (t.walkTowardsKey key 0 = some (ty, i)) := by
  unfold verifyProofPath at h
  split at h
  case isTrue => cases h
  split at h
  case h_2 => cases h
  case h_1 r hl =>
    subst h
    have hb' : wireNodes path.reverse ⊆ S :=
      fun n ⟨blob, hm, he⟩ => hb ⟨blob, mem_reverse.mp hm, he⟩
    have hv := verifyProofPath.loop_sound hinj ht hb' (by rw [length_reverse, Nat.zero_add]) hl
    simpa only [getLast?_reverse] using hv

end

-- What a path to a leaf consists of, from the root on.
def Tree.blobsTo (last : Blob) (key : UInt256) (depth : Nat) : Tree → List Blob
  | empty => []
  | leaf .. => [last]
  | t@(inner ts) => t.top.serializeForWire :: (ts (key.nibble depth)).blobsTo last key (depth + 1)

theorem verifyProofPath.loop_blobsTo (last : Blob) (size : Nat)
    (hc : ∀ hashes, .inner hashes ∈ t.hashed → Canonical hashes)
    (hw : t.walkTowardsKey key d = some (ty, i)) :
    ∃ n, (t.blobsTo last key d).length = n + 1 ∧
      verifyProofPath.loop key size d t.hash (t.blobsTo last key d) =
        verifyProofPath.loop key size (d + n) (Hashed.leaf ty i).hash [last] := by
  induction t generalizing d
  case empty => cases hw
  case leaf =>
    cases hw
    exact ⟨0, rfl, rfl⟩
  case inner ts hi =>
    have hn := makeFromWire_inner (hc _ mem_hashed_inner)
    have hch := getChildHash_top (t := .inner ts) (b := key.nibble d)
    simp only [top, child] at hch
    have ⟨n, hlen, hl⟩ := hi _ (fun _ hm => hc _ (hashed_child_subset _ hm)) hw
    refine ⟨n + 1, congrArg Nat.succ hlen, ?_⟩
    rw [Nat.add_comm n, ← Nat.add_assoc, ← hl, blobsTo, loop, top, hn]
    simp only [Except.ok_bind, hash_inner, ne_eq, not_true_eq_false, if_false, isInner, if_true, hch]

theorem Tree.Placed.length_blobsTo (hp : t.Placed p) (h : p.length ≤ 64) :
    p.length + (t.blobsTo last key p.length).length ≤ 65 := by
  induction t generalizing p
  case empty => simp only [blobsTo, length_nil]; omega
  case leaf => simp only [blobsTo, length_singleton]; omega
  case inner ts hi =>
    have hb := hi (key.nibble p.length) (hp.right _) (by have := hp.left; simp; omega)
    simp only [length_append, length_singleton] at hb
    simp only [blobsTo, length_cons]
    omega

theorem wireNodes_blobsTo (hc : ∀ hashes, .inner hashes ∈ t.hashed → Canonical hashes)
    (hl : makeFromWire last = .ok (some (.leaf ty i)))
    (hw : t.walkTowardsKey key d = some (ty, i)) : wireNodes (t.blobsTo last key d) ⊆ t.hashed := by
  rintro n ⟨blob, hm, hn⟩
  induction t generalizing d
  case empty => cases hw
  case leaf =>
    cases hw
    rw [blobsTo, List.mem_singleton] at hm
    rw [hm, hl] at hn
    cases hn
    rfl
  case inner ts hi =>
    rw [blobsTo, mem_cons] at hm
    obtain rfl | hm := hm
    case inl =>
      rw [top, makeFromWire_inner (hc _ mem_hashed_inner)] at hn
      cases hn
      exact mem_hashed_inner
    case inr =>
      exact hashed_child_subset _ (hi _ (fun _ hm => hc _ (hashed_child_subset _ hm)) hw hm)

-- No node has the hash of an empty branch.
def Tree.Nonzero (t : Tree) : Prop :=
  ∀ n ∈ t.hashed, n ≠ Hashed.empty → n.hash ≠ 0

theorem Tree.nonzero_of_injOn (hinj : Set.InjOn Content.hash (content '' S))
    (ht : {Hashed.empty} ∪ t.hashed ⊆ S) : t.Nonzero := by
  intro n hn hne hz
  have hc : n.content = Hashed.empty.content := by
    apply hinj ⟨_, ht (.inr hn), rfl⟩ ⟨_, ht (.inl rfl), rfl⟩
    rw [hash_content, hash_content, hz, hash_empty]
  cases n
  case leaf => simp [content, Hashed.empty] at hc
  case inner hashes =>
    simp only [content, Hashed.empty, implies_true, if_true] at hc
    split at hc
    case isTrue he => exact hne (congrArg Hashed.inner (funext he))
    case isFalse => cases hc

theorem Tree.WF.hash_ne_zero (hz : t.Nonzero) (hw : t.WF p) (hne : t ≠ empty) : t.hash ≠ 0 := by
  cases t
  case empty => exact absurd rfl hne
  case leaf => exact hz _ rfl nofun
  case inner => exact hz _ mem_hashed_inner fun he => hw.childHashes_ne (Hashed.inner.inj he)

theorem Tree.Nonzero.child (hz : (inner ts).Nonzero) (b : Fin 16) : (ts b).Nonzero :=
  fun n hn => hz n (hashed_child_subset b hn)

theorem Tree.Nonzero.canonical_inner (hz : (inner ts).Nonzero) (hw : ∀ b, (ts b).WF (p ++ [b]))
    (hc : ∀ b hashes, .inner hashes ∈ (ts b).hashed → Canonical hashes) :
    ∀ hashes, .inner hashes ∈ (inner ts).hashed → Canonical hashes := by
  rintro hashes (hm | hm) b hb
  case inl =>
    cases hm
    unfold childHashes at hb
    have ⟨he, hb⟩ := Option.ite_none_left_eq_some.mp hb
    have hne : ts b ≠ empty := fun hc => he (isEmpty_iff.mpr hc)
    exact (hw b).hash_ne_zero (hz.child b) hne (Option.some.inj hb)
  case inr =>
    have ⟨b', hb'⟩ := mem_iUnion.mp hm
    exact hc b' hashes hb' b hb

theorem Tree.Nonzero.canonical (hz : t.Nonzero) (hw : t.WF p) :
    ∀ hashes, .inner hashes ∈ t.hashed → Canonical hashes := by
  induction t generalizing p
  case empty => exact nofun
  case leaf => exact nofun
  case inner ts hi =>
    have hw := hw.right.left
    exact hz.canonical_inner hw fun b => hi b (hz.child b) (hw b)

theorem Tree.RootWF.canonical (hw : RootWF ts) (hz : (inner ts).Nonzero) :
    ∀ hashes, .inner hashes ∈ (inner ts).hashed → Canonical hashes :=
  hz.canonical_inner (p := []) hw.wf fun b => (hz.child b).canonical (hw.wf b)

theorem serialize_pathTo (hw : t.walkTowardsKey key d = some (ty, i)) :
    (t.pathTo key d).map serializeForWire =
      (t.blobsTo (Hashed.leaf ty i).serializeForWire key d).reverse := by
  induction t generalizing d
  case empty => cases hw
  case leaf => cases hw; rfl
  case inner ts hi => simp [pathTo, blobsTo, hi _ hw]

-- Whether the path from the leaf that the walk along the key's branches ends at is accepted depends
-- on the leaf only.
theorem verifyProofPath_blobsTo (hz : (inner ts).Nonzero) (hw : RootWF ts)
    (hk : (inner ts).walkTowardsKey key 0 = some (ty, i)) :
    verifyProofPath (inner ts).hash key ((inner ts).blobsTo last key 0).reverse ↔
      ∃ n, makeFromWire last = .ok (some n) ∧ n.hash = (Hashed.leaf ty i).hash ∧
        n.isInner = false := by
  have hlen : 0 + ((inner ts).blobsTo last key 0).length ≤ 65 :=
    hw.placed.length_blobsTo (Nat.zero_le _)
  have ⟨n, hn, hl⟩ := verifyProofPath.loop_blobsTo last ((inner ts).blobsTo last key 0).length
    (hw.canonical hz) hk
  have hne : ((inner ts).blobsTo last key 0).isEmpty = false := by simp [blobsTo]
  unfold verifyProofPath
  rw [if_neg (by simp only [isEmpty_reverse, hne, length_reverse]; simp; omega),
    length_reverse, reverse_reverse, hl, hn, verifyProofPath.loop]
  cases hb : makeFromWire last
  case error => simp
  case ok n =>
    cases n
    case none => simp
    case some n =>
      by_cases hh : n.hash = (Hashed.leaf ty i).hash <;> cases hin : n.isInner <;>
        simp [hh, hin, verifyProofPath.loop]

theorem readBack_iff : (∃ n, makeFromWire (Hashed.leaf ty i).serializeForWire = .ok (some n) ∧
    n.hash = (Hashed.leaf ty i).hash ∧ n.isInner = false) ↔
      ¬ (ty = .tnACCOUNT_STATE ∧ i.key = 0) := by
  have hl : ¬ (i.data ++ Serializer.addBitString i.key).length < 32 := by
    simp
  have hd : (i.data ++ Serializer.addBitString i.key).length - 32 = i.data.length := by
    simp
  have hk : bitString (i.data ++ Serializer.addBitString i.key) i.data.length = i.key := by
    simpa using @bitString_append i.key [] i.data
  cases ty
  case tnTRANSACTION_NM =>
    rw [serializeForWire, makeFromWire_append, makeFromWire.make, if_pos rfl]
    exact iff_of_true ⟨_, rfl, rfl, rfl⟩ (by simp)
  case tnTRANSACTION_MD =>
    rw [serializeForWire, makeFromWire_append, makeFromWire.make]
    rw [if_neg (by decide), if_neg (by decide), if_neg (by decide), if_neg (by decide), if_pos rfl,
      makeTransactionWithMeta, if_neg hl]
    simp only [hd, hk, take_left]
    exact iff_of_true ⟨_, rfl, rfl, rfl⟩ (by simp)
  case tnACCOUNT_STATE =>
    rw [serializeForWire, makeFromWire_append, makeFromWire.make, if_neg (by decide), if_pos rfl,
      makeAccountState, if_neg hl]
    simp only [hd, hk, take_left]
    split
    case isTrue hz => exact iff_of_false (by simp) (not_not.mpr ⟨trivial, hz⟩)
    case isFalse hz => exact iff_of_true ⟨_, rfl, rfl, rfl⟩ fun h => hz h.right

end Verify

section

open Hashed

variable [Digest] {h : NodeHeap} {m : SHAMap} {ts : Fin 16 → Tree} {S : Set Addr} {key : UInt256}

-- A path proves that there is an item of this key unless the walk along the branches of the key ends
-- at the leaf of another key, since the key of the leaf is not compared.
theorem verifyProofPath_sound_iff (v : Valid h m True ts S)
    (hinj : Set.InjOn Content.hash (content '' ({Hashed.empty} ∪ (m.tree h).hashed))) :
    (∀ path, Set.InjOn Content.hash
        (content '' ({Hashed.empty} ∪ (m.tree h).hashed ∪ wireNodes path)) →
      verifyProofPath (m.getHash h).1 key path →
      ∃ ty, ∃ i ∈ m.items h, (i.key = key) ∧
        ∃ blob, (path.head? = some blob) ∧ (makeFromWire blob = .ok (some (.leaf ty i)))) ↔
    (∀ ty i blob, (m.tree h).walkTowardsKey key 0 = some (ty, i) →
      makeFromWire blob = .ok (some (.leaf ty i)) → i.key = key) := by
  rw [v.getHash_eq, items, v.tree_eq] at *
  constructor
  case mp =>
    intro hs ty i blob hk hb
    have hz := nonzero_of_injOn hinj subset_rfl
    have hc := v.wf.canonical hz
    have hw : wireNodes ((inner ts).blobsTo blob key 0).reverse ⊆ (inner ts).hashed := by
      rintro n ⟨b, hm, hn⟩
      exact wireNodes_blobsTo hc hb hk ⟨b, mem_reverse.mp hm, hn⟩
    have hinj' := hinj
    rw [← union_eq_self_of_subset_right (hw.trans subset_union_right)] at hinj'
    have hv := (verifyProofPath_blobsTo hz v.wf hk).mpr ⟨_, hb, rfl, rfl⟩
    obtain ⟨ty', i', _, hk', b', hh, hb'⟩ := hs _ hinj' hv
    obtain ⟨ty'', i'', b'', hh', hb'', hk''⟩ := verifyProofPath_sound hinj'
      subset_union_left subset_union_right hv
    rw [hh] at hh'
    cases hh'
    rw [hb'] at hb''
    rw [hk] at hk''
    cases hk''
    cases hb''
    exact hk'
  case mpr =>
    intro hc path hinj' hv
    obtain ⟨ty, i, blob, hh, hb, hk⟩ := verifyProofPath_sound hinj'
      subset_union_left subset_union_right hv
    exact ⟨ty, i, mem_items_of_walkTowardsKey hk, hc ty i blob hk hb, blob, hh, hb⟩

end

section OneItem

open Hashed

-- A map of one item, and a digest that tells its nodes apart.
local instance lengthDigest : Digest where
  sha512Half data := BitVec.ofNat 256 data.length

def oneItem (b : Fin 16) : Tree :=
  if b = 0 then .leaf .tnACCOUNT_STATE ⟨1, []⟩ else .empty

theorem run_oneItem :
    ∃ m h, (run .tnACCOUNT_STATE [.edit (.addGiveItem ⟨1, []⟩)] = .ok (m, h)) ∧
      (m.tree h = .inner oneItem) := by
  refine ⟨_, _, rfl, congrArg Tree.inner (funext fun b => ?_)⟩
  fin_cases b <;> rfl

theorem hashed_oneItem : {Hashed.empty} ∪ (inner oneItem).hashed =
    {.empty, .inner (childHashes oneItem), .leaf .tnACCOUNT_STATE ⟨1, []⟩} := by
  have h (b : Fin 16) : (oneItem b).hashed =
      if b = 0 then {.leaf .tnACCOUNT_STATE ⟨1, []⟩} else {} := by
    unfold oneItem
    split <;> rfl
  ext n
  simp [hashed, h]
  tauto

theorem oneItem_injOn :
    Set.InjOn Content.hash (content '' ({Hashed.empty} ∪ (inner oneItem).hashed)) := by
  have he : Hashed.empty.content.hash = 0 := by rw [hash_content, hash_empty]
  have hi : (inner (childHashes oneItem)).content.hash = 516 := by
    rw [hash_content]; decide +kernel
  have hl : (Hashed.leaf .tnACCOUNT_STATE ⟨1, []⟩).content.hash = 36 := by
    rw [hash_content]; decide +kernel
  rw [hashed_oneItem]
  rintro _ ⟨n, hn, rfl⟩ _ ⟨n', hn', rfl⟩ hh
  obtain rfl | rfl | rfl := hn <;> obtain rfl | rfl | rfl := hn' <;>
    first
    | rfl
    | (simp only [he, hi, hl] at hh; exact absurd hh (by decide))

theorem wireNodes_oneItem : wireNodes (((inner oneItem).pathTo 1 0).map serializeForWire) ⊆
    (inner oneItem).hashed := by
  have ⟨m, h, hr, ht⟩ := run_oneItem
  have ⟨_, _, ts, _, hr', v, _⟩ :=
    run_valid .tnACCOUNT_STATE [.edit (.addGiveItem ⟨1, []⟩)]
  cases hr.symm.trans hr'
  have hts := inner.inj (v.tree_eq.symm.trans ht)
  subst hts
  rw [serialize_pathTo rfl]
  rintro n ⟨blob, hm, hn⟩
  exact wireNodes_blobsTo (v.wf.canonical (nonzero_of_injOn oneItem_injOn subset_rfl)) rfl rfl
    ⟨blob, mem_reverse.mp hm, hn⟩

-- The only item has the key 1, and its path is accepted for the key 2.
theorem verifyProofPath_absent_key :
    ∃ m h path, (run .tnACCOUNT_STATE [.edit (.addGiveItem ⟨1, []⟩)] = .ok (m, h)) ∧
      (Set.InjOn Content.hash
        (content '' ({Hashed.empty} ∪ (m.tree h).hashed ∪ wireNodes path))) ∧
      (m.items h = [⟨1, []⟩]) ∧ (getProofPath (m.tree h) 1 = some path) ∧
      verifyProofPath (m.getHash h).1 2 path := by
  have ⟨m, h, hr, ht⟩ := run_oneItem
  refine ⟨m, h, ((inner oneItem).pathTo 1 0).map serializeForWire, hr, ?_, ?_, ?_, ?_⟩
  · rw [ht, union_eq_self_of_subset_right (wireNodes_oneItem.trans subset_union_right)]
    exact oneItem_injOn
  · rw [items, ht]; decide +kernel
  · rw [ht]; rfl
  · cases hr; decide +kernel

theorem verifyProofPath_present_key :
    ∃ m h, (run .tnACCOUNT_STATE [.edit (.addGiveItem ⟨1, []⟩)] = .ok (m, h)) ∧
      ∀ path, Set.InjOn Content.hash
          (content '' ({Hashed.empty} ∪ (m.tree h).hashed ∪ wireNodes path)) →
        verifyProofPath (m.getHash h).1 1 path →
        ∃ ty, ∃ i ∈ m.items h, (i.key = 1) ∧
          ∃ blob, (path.head? = some blob) ∧ (makeFromWire blob = .ok (some (.leaf ty i))) := by
  have ⟨m, h, hr, ht⟩ := run_oneItem
  have ⟨_, _, ts, _, hr', v, _⟩ :=
    run_valid .tnACCOUNT_STATE [.edit (.addGiveItem ⟨1, []⟩)]
  cases hr.symm.trans hr'
  refine ⟨m, h, hr, (verifyProofPath_sound_iff v (ht ▸ oneItem_injOn)).mpr ?_⟩
  intro ty i blob hk _
  rw [ht] at hk
  cases hk
  rfl

-- The hash of branch 3 is overwritten with zero.
theorem makeFromWire_overwritten :
    ∃ hashes₁ hashes₂,
      (makeFromWire ([(0, 1), (3, 1), (3, 0)].flatMap entry ++ [wireTypeCompressedInner]) =
        .ok (some (.inner hashes₁))) ∧
      (makeFromWire (entry (0, 1) ++ [wireTypeCompressedInner]) = .ok (some (.inner hashes₂))) ∧
      ((Hashed.inner hashes₁).hash = (Hashed.inner hashes₂).hash) ∧
      (hashes₁ 3).isSome ∧ ¬ (hashes₂ 3).isSome := by
  refine ⟨_, _, rfl, rfl, ?_, ?_, ?_⟩
  all_goals decide +kernel

theorem makeFromWire_pinned_one_branch :
    ∃ hashes, (makeFromWire ([(0, 1)].flatMap entry ++ [wireTypeCompressedInner]) =
      .ok (some (.inner hashes))) ∧
      ∀ b, (hashes b).isSome ↔ (Hashed.inner hashes).getChildHash b ≠ 0 := by
  obtain ⟨hashes, hm⟩ : ∃ hashes, makeFromWire ([(0, 1)].flatMap entry ++
      [wireTypeCompressedInner]) = .ok (some (.inner hashes)) := ⟨_, rfl⟩
  have ho : ¬ Overwritten ([(0, 1)].flatMap entry ++ [wireTypeCompressedInner]) := by
    rintro ⟨_, l, he, b, _, hb⟩
    cases he.symm.trans (entries_flatMap (l := [(0, 1)]))
    by_cases h : 0 = b <;> simp [hashesAt, h] at hb
  have hinj := injOn_singleton Content.hash (inner hashes).content
  rw [← pair_eq_singleton] at hinj
  have h := (makeFromWire_pinned_iff hm hm hinj).mpr (fun _ => ⟨ho, ho⟩) rfl
  exact ⟨hashes, hm, fun b => (h b).right.right⟩

end OneItem
end SHAMap
