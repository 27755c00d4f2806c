import Bixd.SHAMap.Node

inductive SHAMapError
  | missingNode (id : UInt256)
  | logicError

-- The position of a node: the branches that lead to it from the root. The source keeps the depth
-- and the branches as the leading bits of a `uint256` whose other bits are zero.
structure SHAMapNodeID where
  path  : List (Fin 16)
  valid : path.length ≤ 64

namespace SHAMapNodeID

def root : SHAMapNodeID where
  path  := []
  valid := Nat.zero_le _

def depth (i : SHAMapNodeID) : Nat :=
  i.path.length

def isRoot (i : SHAMapNodeID) : Bool :=
  i.depth = 0

-- The position `{leafDepth, key}`.
def ofKey (key : UInt256) : SHAMapNodeID where
  path  := (List.range 64).map key.nibble
  valid := by simp

def getChildNodeID (i : SHAMapNodeID) (m : Fin 16) : Except SHAMapError SHAMapNodeID :=
  if h : i.depth < 64 then
    .ok { path := i.path ++ [m], valid := by simp [depth] at h ⊢; omega }
  else
    .error .logicError

end SHAMapNodeID

def selectBranch (i : SHAMapNodeID) (key : UInt256) : Fin 16 :=
  key.nibble i.depth

inductive SHAMapState
  | modifying
  | immutable
  | synching
  | invalid
  deriving DecidableEq

abbrev NodeHeap := Heap SHAMapTreeNode

structure SHAMap where
  cowid : UInt32
  root  : Addr
  state : SHAMapState

namespace SHAMap

-- `SharedPtrNodeStack`, the top first.
abbrev Stack := List (Addr × SHAMapNodeID)

-- One more than `leafDepth`, the number of levels of the tree. The loops that go down the tree
-- end after as many steps, since there is no position below `leafDepth`.
def levels : Nat := 65

def walkTowardsKey.loop (h : NodeHeap) (id : UInt256) :
    Nat → Addr → SHAMapNodeID → Stack → Except SHAMapError (Option Addr × Stack)
  | 0, _, _, _ => throw .logicError
  | fuel + 1, node, nodeID, stack =>
    match h.get node with
    | .leaf .. => pure (some node, (node, nodeID) :: stack)
    | .inner _ _ branches =>
      match branches (selectBranch nodeID id) with
      | none    => pure (none, (node, nodeID) :: stack)
      | some br => do
        let childID ← nodeID.getChildNodeID (selectBranch nodeID id)
        loop h id fuel br.child childID ((node, nodeID) :: stack)

-- The leaf that the walk ends at, if any, and the nodes that lead there.
def walkTowardsKey (m : SHAMap) (h : NodeHeap) (id : UInt256) :
    Except SHAMapError (Option Addr × Stack) :=
  walkTowardsKey.loop h id levels m.root .root []

def unshareNode (m : SHAMap) (h : NodeHeap) (node : Addr) (nodeID : SHAMapNodeID) :
    Addr × SHAMap × NodeHeap :=
  if (h.get node).cowid ≠ m.cowid then
    (h.next, if nodeID.isRoot then { m with root := h.next } else m,
      h.alloc ((h.get node).clone m.cowid))
  else
    (node, m, h)

def dirtyUp (target : UInt256) : Stack → SHAMap → NodeHeap → Addr → SHAMap × NodeHeap
  | [], m, h, _ => (m, h)
  | (node, nodeID) :: stack, m, h, child =>
    let (node, m, h) := m.unshareNode h node nodeID
    dirtyUp target stack m (h.modify node (·.setChild (selectBranch nodeID target) (some child))) node

def onlyBelow (h : NodeHeap) : Nat → Addr → Option SHAMapItem
  | 0, _ => none
  | fuel + 1, node =>
    match h.get node with
    | .leaf _ _ _ item => some item
    | .inner _ _ branches =>
      match (List.finRange 16).filterMap branches with
      | [br] => onlyBelow h fuel br.child
      | _    => none

section Hash

variable [Digest]

-- The chain of inner nodes above two leaves whose keys go the same way from `nodeID` on.
def addGiveItem.split (cowid : UInt32) (tag other : UInt256) :
    Nat → Addr → SHAMapNodeID → Stack → NodeHeap →
      Except SHAMapError (Addr × SHAMapNodeID × Stack × NodeHeap)
  | 0, _, _, _, _ => throw .logicError
  | fuel + 1, node, nodeID, stack, h =>
    if selectBranch nodeID tag = selectBranch nodeID other then do
      let childID ← nodeID.getChildNodeID (selectBranch nodeID tag)
      split cowid tag other fuel h.next childID ((node, nodeID) :: stack) (h.alloc (.newInner cowid))
    else
      pure (node, nodeID, stack, h)

-- Two leaves below `inner`, where their keys part.
def addGiveItem.fork (cowid : UInt32) (type : LeafType) (item otherItem : SHAMapItem) (inner : Addr)
    (nodeID : SHAMapNodeID) (h : NodeHeap) : NodeHeap :=
  let leaf₁ := h.next
  let h := h.alloc (.makeTypedLeaf type item cowid)
  let h := h.modify inner (·.setChild (selectBranch nodeID item.key) (some leaf₁))
  let leaf₂ := h.next
  let h := h.alloc (.makeTypedLeaf type otherItem cowid)
  h.modify inner (·.setChild (selectBranch nodeID otherItem.key) (some leaf₂))

def addGiveItem.onStack (m : SHAMap) (h : NodeHeap) (type : LeafType) (item : SHAMapItem) :
    Stack → Except SHAMapError (Bool × SHAMap × NodeHeap)
  | [] => throw (.missingNode item.key)
  | (node, nodeID) :: stack =>
    match h.get node with
    | .inner .. =>
      let (node, m, h) := m.unshareNode h node nodeID
      let leaf := h.next
      let h := h.alloc (.makeTypedLeaf type item m.cowid)
      let h := h.modify node (·.setChild (selectBranch nodeID item.key) (some leaf))
      pure (true, dirtyUp item.key stack m h node)
    | .leaf _ _ _ otherItem =>
      if otherItem.key = item.key then
        pure (false, m, h)
      else do
        let (node, m, h) := m.unshareNode h node nodeID
        let inner := h.next
        let h := h.alloc (.newInner (h.get node).cowid)
        let (inner, nodeID, stack, h) ←
          addGiveItem.split m.cowid item.key otherItem.key levels inner nodeID stack h
        let h := addGiveItem.fork m.cowid type item otherItem inner nodeID h
        pure (true, dirtyUp item.key stack m h inner)

def addGiveItem (m : SHAMap) (h : NodeHeap) (type : LeafType) (item : SHAMapItem) :
    Except SHAMapError (Bool × SHAMap × NodeHeap) := do
  let (_, stack) ← m.walkTowardsKey h item.key
  addGiveItem.onStack m h type item stack

def updateGiveItem.onStack (m : SHAMap) (h : NodeHeap) (type : LeafType) (item : SHAMapItem) :
    Stack → Except SHAMapError (Bool × SHAMap × NodeHeap)
  | [] => throw (.missingNode item.key)
  | (node, nodeID) :: stack =>
    match h.get node with
    | .inner .. => pure (false, m, h)
    | .leaf _ _ leafType oldItem =>
      if oldItem.key ≠ item.key then
        pure (false, m, h)
      else if leafType ≠ type then
        pure (false, m, h)
      else
        let (node, m, h) := m.unshareNode h node nodeID
        let oldHash := (h.get node).getHash
        let h := h.modify node (·.setItem item)
        if oldHash ≠ (h.get node).getHash then
          pure (true, dirtyUp item.key stack m h node)
        else
          pure (true, m, h)

def updateGiveItem (m : SHAMap) (h : NodeHeap) (type : LeafType) (item : SHAMapItem) :
    Except SHAMapError (Bool × SHAMap × NodeHeap) := do
  let (_, stack) ← m.walkTowardsKey h item.key
  updateGiveItem.onStack m h type item stack

-- What takes the place of `node` in its parent after one of its branches has changed. A node above
-- a single leaf is replaced by that leaf. The new leaf has the type of the deleted one.
def delItem.collapse (type : LeafType) (h : NodeHeap) (node : Addr) : Option Addr × NodeHeap :=
  match (h.get node).getBranchCount with
  | 0 => (none, h)
  | 1 =>
    match onlyBelow h levels node with
    | none      => (some node, h)
    | some item =>
      let h := match (List.finRange 16).find? (fun b => !(h.get node).isEmptyBranch b) with
        | none   => h
        | some b => h.modify node (·.setChild b none)
      (some h.next, h.alloc (.makeTypedLeaf type item (h.get node).cowid))
  | _ => (some node, h)

def delItem.loop (id : UInt256) (type : LeafType) :
    Stack → Option Addr → SHAMap → NodeHeap → SHAMap × NodeHeap
  | [], _, m, h => (m, h)
  | (node, nodeID) :: stack, prevNode, m, h =>
    let (node, m, h) := m.unshareNode h node nodeID
    let h := h.modify node (·.setChild (selectBranch nodeID id) prevNode)
    if nodeID.isRoot then
      loop id type stack prevNode m h
    else
      let (prevNode, h) := delItem.collapse type h node
      loop id type stack prevNode m h

def delItem.onStack (m : SHAMap) (h : NodeHeap) (id : UInt256) :
    Stack → Except SHAMapError (Bool × SHAMap × NodeHeap)
  | [] => throw (.missingNode id)
  | (node, _) :: stack =>
    match h.get node with
    | .inner .. => pure (false, m, h)
    | .leaf _ _ type item =>
      if item.key ≠ id then
        pure (false, m, h)
      else
        pure (true, delItem.loop id type stack none m h)

def delItem (m : SHAMap) (h : NodeHeap) (id : UInt256) :
    Except SHAMapError (Bool × SHAMap × NodeHeap) := do
  let (_, stack) ← m.walkTowardsKey h id
  delItem.onStack m h id stack

def preFlushNode (cowid : UInt32) (h : NodeHeap) (node : Addr) : Addr × NodeHeap :=
  if (h.get node).cowid ≠ cowid then
    (h.next, h.alloc ((h.get node).clone cowid))
  else
    (node, h)

-- The part of the loop that handles branch `b` of the inner node `node`.
def walkSubTree.flushBranch (cowid : UInt32) (visit : NodeHeap → Addr → NodeHeap) (node : Addr)
    (h : NodeHeap) (b : Fin 16) : NodeHeap :=
  match (h.get node).branches b with
  | none    => h
  | some br =>
    if (h.get br.child).cowid = 0 then
      h
    else
      let (child, h) := preFlushNode cowid h br.child
      let h :=
        if (h.get child).isLeaf then
          (h.modify child .updateHash).modify child .unshare
        else
          visit h child
      h.modify node (·.shareChild b child)

-- Flushes the children of the inner node `node` and then the node itself. The explicit stack of the
-- loop in the source is the call stack here.
def walkSubTree.visit (cowid : UInt32) : Nat → NodeHeap → Addr → NodeHeap
  | 0, h, _ => h
  | fuel + 1, h, node =>
    let h := (List.finRange 16).foldl (flushBranch cowid (visit cowid fuel) node) h
    (h.modify node (·.updateHashDeep h)).modify node .unshare

-- `walkSubTree(false, hotUNKNOWN)`, that is, without writing to the node store.
def unshare (m : SHAMap) (h : NodeHeap) : SHAMap × NodeHeap :=
  if (h.get m.root).cowid = 0 then
    (m, h)
  else if (h.get m.root).isLeaf then
    let (root, h) := preFlushNode m.cowid h m.root
    ({ m with root := root }, (h.modify root .updateHash).modify root .unshare)
  else if (h.get m.root).isEmpty then
    ({ m with root := h.next }, h.alloc (.newInner 0))
  else
    let (root, h) := preFlushNode m.cowid h m.root
    ({ m with root := root }, walkSubTree.visit m.cowid levels h root)

def getHash (m : SHAMap) (h : NodeHeap) : UInt256 × SHAMap × NodeHeap :=
  if (h.get m.root).getHash = 0 then
    let (m, h) := m.unshare h
    ((h.get m.root).getHash, m, h)
  else
    ((h.get m.root).getHash, m, h)

def snapShot (m : SHAMap) (h : NodeHeap) (isMutable : Bool) : SHAMap × NodeHeap :=
  let newMap : SHAMap :=
    { cowid := m.cowid + 1, root := m.root, state := if isMutable then .modifying else .immutable }
  if m.state ≠ .immutable ∨ newMap.state ≠ .immutable then
    newMap.unshare h
  else
    (newMap, h)

end Hash

-- The map that the constructor `SHAMap(t, f)` builds, in a heap of its own.
def empty : SHAMap × NodeHeap :=
  ({ cowid := 1, root := 0, state := .modifying }, { cells := fun _ => .newInner 1, next := 1 })

end SHAMap
