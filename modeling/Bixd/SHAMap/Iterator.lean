import Bixd.SHAMap.Basic

namespace SHAMap

def findKey (m : SHAMap) (h : NodeHeap) (id : UInt256) : Except SHAMapError (Option (LeafType × SHAMapItem)) := do
  let (leaf, _) ← m.walkTowardsKey h id
  match leaf with
  | none      => pure none
  | some leaf =>
    match h.get leaf with
    | .leaf _ _ type item => pure (if item.key ≠ id then none else some (type, item))
    | .inner .. => pure none

def hasItem (m : SHAMap) (h : NodeHeap) (id : UInt256) : Except SHAMapError Bool := do
  return (← m.findKey h id).isSome

def peekItem (m : SHAMap) (h : NodeHeap) (id : UInt256) : Except SHAMapError (Option SHAMapItem) := do
  return (← m.findKey h id).map Prod.snd

-- The position of a node that is pushed on the stack. It has the right depth. Its last branch is the
-- argument of `firstBelow` at each level, which is the right one at the first level only.
def firstBelow.childID (branch : Fin 16) : Stack → Except SHAMapError SHAMapNodeID
  | [] => pure .root
  | (_, nodeID) :: _ => nodeID.getChildNodeID branch

def firstBelow (h : NodeHeap) (branch : Fin 16) :
    Nat → Addr → Stack → Except SHAMapError (Option (Addr × SHAMapItem) × Stack)
  | 0, _, _ => throw .logicError
  | fuel + 1, node, stack =>
    match h.get node with
    | .leaf _ _ _ item    => pure (some (node, item), (node, .ofKey item.key) :: stack)
    | .inner _ _ branches => do
      let nodeID ← firstBelow.childID branch stack
      match (List.finRange 16).findSome? branches with
      | none    => pure (none, (node, nodeID) :: stack)
      | some br => firstBelow h branch fuel br.child ((node, nodeID) :: stack)

def peekFirstItem (m : SHAMap) (h : NodeHeap) : Except SHAMapError (Option SHAMapItem × Stack) := do
  match ← firstBelow h 0 levels m.root [] with
  | (none, _) => pure (none, [])
  | (some (_, item), stack) => pure (some item, stack)

-- The first item below the branches of `node` to the right of the one that `id` leads to, if there is
-- a non-empty one among them.
def firstAfter (h : NodeHeap) (id : UInt256) (node : Addr) (nodeID : SHAMapNodeID) (stack : Stack) :
    Except SHAMapError (Option (SHAMapItem × Stack)) :=
  let branches := (h.get node).branches
  match (List.finRange 16).find? (fun b => selectBranch nodeID id < b ∧ (branches b).isSome) with
  | none => pure none
  | some b =>
    match branches b with
    | none => pure none
    | some br => do
      match ← firstBelow h b levels br.child ((node, nodeID) :: stack) with
      | (none, _) => throw (.missingNode id)
      | (some (_, item), stack) => pure (some (item, stack))

def peekNextItem.loop (h : NodeHeap) (id : UInt256) :
    Stack → Except SHAMapError (Option SHAMapItem × Stack)
  | [] => pure (none, [])
  | (node, nodeID) :: stack => do
    match ← firstAfter h id node nodeID stack with
    | some (item, stack) => pure (some item, stack)
    | none => loop h id stack

def peekNextItem (h : NodeHeap) (id : UInt256) (stack : Stack) :
    Except SHAMapError (Option SHAMapItem × Stack) :=
  peekNextItem.loop h id stack.tail

structure ConstIterator where
  stack : Stack
  item  : Option SHAMapItem

def begin (m : SHAMap) (h : NodeHeap) : Except SHAMapError ConstIterator := do
  let (item, stack) ← m.peekFirstItem h
  return { stack, item }

-- The operator `++`, which must not be applied at the end.
def ConstIterator.next (h : NodeHeap) (it : ConstIterator) : Except SHAMapError ConstIterator :=
  match it.item with
  | none      => pure it
  | some item => do
    let (item, stack) ← peekNextItem h item.key it.stack
    return { stack, item }

def upperBound.loop (h : NodeHeap) (id : UInt256) :
    Stack → Except SHAMapError (Option SHAMapItem × Stack)
  | [] => pure (none, [])
  | (node, nodeID) :: stack =>
    match h.get node with
    | .leaf _ _ _ item =>
      if id < item.key then
        pure (some item, (node, nodeID) :: stack)
      else
        loop h id stack
    | .inner .. => do
      match ← firstAfter h id node nodeID stack with
      | some (item, stack) => pure (some item, stack)
      | none => loop h id stack

def upperBound (m : SHAMap) (h : NodeHeap) (id : UInt256) : Except SHAMapError ConstIterator := do
  let (_, stack) ← m.walkTowardsKey h id
  let (item, stack) ← upperBound.loop h id stack
  return { stack, item }

-- The loop from an iterator to the end.
def ConstIterator.toEnd (h : NodeHeap) : Nat → ConstIterator → Except SHAMapError (List SHAMapItem)
  | 0, _ => throw .logicError
  | fuel + 1, it =>
    match it.item with
    | none      => pure []
    | some item => do
      let it ← it.next h
      return item :: (← it.toEnd h fuel)

end SHAMap
