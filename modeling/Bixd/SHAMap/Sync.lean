import Bixd.SHAMap.Basic
import Bixd.SHAMap.Wire

namespace SHAMap
namespace Sync

open SHAMap.Tree (Hashed)

-- A branch of a node that is being acquired. The child is null until it is hooked up.
structure Branch where
  hash  : UInt256
  child : Option Addr

inductive Node
  | inner (hash : UInt256) (fullBelowGen : UInt32) (branches : Fin 16 → Option Branch)
  | leaf (hash : UInt256) (type : LeafType) (item : SHAMapItem)

namespace Node

def getHash : Node → UInt256
  | inner hash .. | leaf hash .. => hash

def isInner : Node → Bool
  | inner .. => true
  | leaf ..  => false

def branches : Node → Fin 16 → Option Branch
  | inner _ _ branches => branches
  | leaf .. => fun _ => none

def isFullBelow (generation : UInt32) : Node → Bool
  | inner _ fullBelowGen _ => fullBelowGen = generation
  | leaf .. => false

def setFullBelowGen (gen : UInt32) : Node → Node
  | inner hash _ branches => inner hash gen branches
  | n@(leaf ..) => n

-- `canonicalizeChild`: a child that is hooked up already stays.
def canonicalizeChild (b : Fin 16) (child : Addr) : Node → Node
  | inner hash gen branches => inner hash gen <| Function.update branches b <|
      (branches b).map fun br => { br with child := some (br.child.getD child) }
  | n@(leaf ..) => n

-- A node that has just been made has no children.
def make [Digest] (n : Hashed) : Node :=
  match n with
  | .inner hashes => inner n.hash 0 (fun b => (hashes b).map (Branch.mk · none))
  | .leaf ty i    => leaf n.hash ty i

end Node

-- What the maps share: the nodes in memory, and the hashes of nodes with everything below them
-- available. The tree node cache, the filter and the database together are the nodes that are
-- available by their hashes.
structure Family where
  nodes      : Heap Node
  available  : UInt256 → Option Hashed
  fullBelow  : List UInt256
  generation : UInt32

structure Map where
  root   : Addr
  state  : SHAMapState
  backed : Bool

-- How an available node is found: as a node in memory that the cache has, as one that is made from
-- the data of the filter or the database, or by a read that is deferred.
inductive Route
  | resident (node : Addr)
  | fetched
  | deferred

structure Read where
  parent   : Addr
  parentID : SHAMapNodeID
  branch   : Fin 16

-- What is not up to the calls: random numbers, what the caches still hold and in which order reads
-- complete and pointers compare. The first argument is the number of the step that asks.
structure Env where
  rand : Nat → Addr → Nat
  route : Nat → Route
  touched : Nat → Bool
  finished : Nat → List Read → List Read
  pointers : Nat → List (Addr × SHAMapNodeID) → List (Addr × SHAMapNodeID)
  finished_eq : ∀ n l, (finished n l).Perm l
  pointers_eq : ∀ n l, (pointers n l).Perm l

namespace Family

def get (f : Family) (a : Addr) : Node :=
  f.nodes.get a

def touchIfExists (f : Family) (touched : Bool) (hash : UInt256) : Bool :=
  touched && f.fullBelow.contains hash

section

variable [Digest]

def add (f : Family) (n : Hashed) : Addr × Family :=
  (f.nodes.next, { f with nodes := f.nodes.alloc (.make n) })

-- The node in memory for the data `n` of the node of this hash.
def canonicalize (f : Family) (hash : UInt256) (n : Hashed) : Route → Addr × Family
  | .resident a => if a < f.nodes.next ∧ (f.get a).getHash = hash then (a, f) else f.add n
  | _ => f.add n

def fetchNodeNT (f : Family) (hash : UInt256) (route : Route) : Option (Addr × Family) :=
  (f.available hash).map (f.canonicalize hash · route)

-- The child after the call, which is the one that was hooked up before if there is one.
def hookChild (f : Family) (parent : Addr) (b : Fin 16) (child : Addr) : Addr × Family :=
  let child := (((f.get parent).branches b).bind Branch.child).getD child
  (child, { f with nodes := f.nodes.modify parent (.canonicalizeChild b child) })

def fetchChild (f : Family) (parent : Addr) (b : Fin 16) (hash : UInt256) (route : Route) :
    Option (Addr × Family) := do
  let (child, f) ← f.fetchNodeNT hash route
  return f.hookChild parent b child

-- The child, if it is hooked up or can be found.
def descend (f : Family) (parent : Addr) (b : Fin 16) (br : Branch) (route : Route) :
    Option (Addr × Family) :=
  match br.child with
  | some child => some (child, f)
  | none       => f.fetchChild parent b br.hash route

inductive Descent
  | found (child : Addr) (f : Family)
  | pending
  | missing

-- Only the database is read asynchronously, and only for a map that is backed by it.
def descendAsync (f : Family) (backed : Bool) (parent : Addr) (b : Fin 16) (br : Branch)
    (route : Route) : Descent :=
  match br.child, f.fetchChild parent b br.hash route, route with
  | some child, _, _ => .found child f
  | none, none, _ => if backed then .pending else .missing
  | none, some (child, f), .deferred => if backed then .pending else .found child f
  | none, some (child, f), _ => .found child f

end
end Family

structure StackEntry where
  node : Option Addr
  nodeID : SHAMapNodeID
  firstChild : Nat
  currentChild : Nat
  fullBelow : Bool

structure MissingNodes where
  max : Int
  missingNodes : List (SHAMapNodeID × UInt256) := []
  missingHashes : List UInt256 := []
  stack : List StackEntry := []
  deferred : List Read := []
  resumes : List (Addr × SHAMapNodeID) := []

def maxDefer : Nat := 4096

-- A call of `getMissingNodes` on its way. An exception ends it.
structure Search where
  family : Family
  mn     : MissingNodes
  pos    : StackEntry
  clock  : Nat
  thrown : Option SHAMapError

namespace MissingNodes

-- The child at this position is not available.
def report (mn : MissingNodes) (childID : SHAMapNodeID) (hash : UInt256) : MissingNodes :=
  { mn with
    max := mn.max - 1
    missingNodes := mn.missingNodes ++ [(childID, hash)]
    missingHashes := mn.missingHashes ++ [hash] }

def resume (mn : MissingNodes) (parent : Addr) (parentID : SHAMapNodeID) : MissingNodes :=
  { mn with resumes := (parent, parentID) :: mn.resumes.filter (·.1 ≠ parent) }

end MissingNodes

namespace Search

variable [Digest] (env : Env) (backed : Bool)

def notFull (g : Search) : Search :=
  { g with pos := { g.pos with fullBelow := false } }

-- The search goes on with the child and will come back to the node.
def enter (g : Search) (child : Addr) (childID : SHAMapNodeID) : Search :=
  { g with
    mn  := { g.mn with stack := g.pos :: g.mn.stack }
    pos := ⟨some child, childID, env.rand g.clock child, 0, true⟩ }

-- The branch `b` of the node, which is not an empty one.
def gmn_ProcessNodes.branch (g : Search) (node : Addr) (b : Fin 16) (br : Branch) : Search :=
  if g.mn.missingHashes.contains br.hash then
    g.notFull
  else if backed && g.family.touchIfExists (env.touched g.clock) br.hash then
    g
  else
    match g.family.descendAsync backed node b br (env.route g.clock) with
    | .pending => { g.notFull with mn.deferred := g.mn.deferred ++ [⟨node, g.pos.nodeID, b⟩] }
    | .missing =>
      match g.pos.nodeID.getChildNodeID b with
      | .error e    => { g with thrown := some e }
      | .ok childID => { g.notFull with mn := g.mn.report childID br.hash }
    | .found child f =>
      if (f.get child).isInner && !(f.get child).isFullBelow f.generation then
        match g.pos.nodeID.getChildNodeID b with
        | .error e    => { g with family := f, thrown := some e }
        | .ok childID => enter env { g with family := f } child childID
      else
        { g with family := f }

-- One round of the loop over the branches.
def gmn_ProcessNodes.round (g : Search) (node : Addr) : Search :=
  let b := Fin.ofNat 16 (g.pos.firstChild + g.pos.currentChild)
  let g := { g with pos.currentChild := g.pos.currentChild + 1, clock := g.clock + 1 }
  match (g.family.get node).branches b with
  | none    => g
  | some br => gmn_ProcessNodes.branch env backed g node b br

-- All branches of the node have been looked at.
def gmn_ProcessNodes.finish (g : Search) (node : Addr) : Search :=
  let g := if g.pos.fullBelow then { g with family := mark g.family } else g
  { g with pos.node := none }
where
  mark (f : Family) : Family :=
    { f with
      nodes     := f.nodes.modify node (.setFullBelowGen f.generation)
      fullBelow := if backed then (f.get node).getHash :: f.fullBelow else f.fullBelow }

-- A node has 16 branches, and there are at most 65 nodes on the way down.
def gmn_ProcessNodes.loop : Nat → Search → Search
  | 0, g     => g
  | n + 1, g =>
    match g.pos.node with
    | none      => g
    | some node =>
      if g.thrown.isSome ∨ g.mn.max ≤ 0 then
        g
      else if g.pos.currentChild < 16 then
        gmn_ProcessNodes.loop n (gmn_ProcessNodes.round env backed g node)
      else
        gmn_ProcessNodes.finish backed g node

def gmn_ProcessNodes (g : Search) : Search :=
  gmn_ProcessNodes.loop env backed (17 * 65 + 1) g

def gmn_ProcessDeferredReads.read (g : Search) (r : Read) : Search :=
  let g := { g with clock := g.clock + 1 }
  match (g.family.get r.parent).branches r.branch with
  | none    => g
  | some br =>
    match g.family.fetchChild r.parent r.branch br.hash (env.route g.clock) with
    | some (_, f) => { g with family := f, mn := g.mn.resume r.parent r.parentID }
    | none =>
      if 0 < g.mn.max ∧ ¬ g.mn.missingHashes.contains br.hash then
        match r.parentID.getChildNodeID r.branch with
        | .error e => { g with thrown := some e }
        | .ok childID => { g with mn := g.mn.report childID br.hash }
      else
        g

def gmn_ProcessDeferredReads (g : Search) : Search :=
  let g := (env.finished g.clock g.mn.deferred).foldl
    (fun g r => if g.thrown.isSome then g else gmn_ProcessDeferredReads.read env g r) g
  { g with mn.deferred := [] }

-- Pick up where we left off with the node's parent.
def resumeParent (g : Search) : Search :=
  match g.pos.node, g.mn.stack with
  | none, e :: stack =>
    { g with
      mn.stack := stack
      pos      := { e with fullBelow := e.currentChild = 0 || e.fullBelow && g.pos.fullBelow } }
  | _, _ => g

def traverse : Nat → Search → Option Search
  | 0, _     => none
  | n + 1, g =>
    if g.pos.node.isNone ∨ g.mn.deferred.length > maxDefer then
      some g
    else
      let g := gmn_ProcessNodes env backed g
      if g.thrown.isSome ∨ g.mn.max ≤ 0 then
        some g
      else
        traverse n g.resumeParent

-- Recheck the nodes that could not be finished before.
def recheck (g : Search) : Search :=
  if g.mn.stack.isEmpty then
    let entries := (env.pointers g.clock g.mn.resumes).filter fun (node, _) =>
      !(g.family.get node).isFullBelow g.family.generation
    { g with
      clock      := g.clock + 1
      mn.resumes := []
      mn.stack   := (entries.map fun (node, nodeID) =>
        ⟨some node, nodeID, env.rand g.clock node, 0, true⟩).reverse }
  else
    g

def restart (g : Search) : Search :=
  match g.pos.node with
  | some _ => g
  | none =>
    let g := recheck env g
    match g.mn.stack with
    | [] => g
    | e :: stack => { g with mn.stack := stack, pos := e }

def loop : Nat → Search → Option Search
  | 0, _     => none
  | n + 1, g => do
    let g ← traverse env backed n g
    if g.thrown.isSome then
      some g
    else
      let g := if g.mn.deferred.isEmpty then g else gmn_ProcessDeferredReads env g
      if g.thrown.isSome ∨ g.mn.max ≤ 0 then
        some g
      else
        let g := restart env g
        if g.pos.node.isNone then some g else loop n g

end Search

inductive SHAMapAddNode
  | invalid
  | useful
  | duplicate
  deriving DecidableEq

namespace Map

variable [Digest] (env : Env)

def isSynching (m : Map) : Bool :=
  m.state = .synching

def clearSynching (m : Map) : Map :=
  { m with state := .modifying }

-- The search from the root on. It takes `n` rounds of each loop at most.
def getMissingNodes.search (m : Map) (f : Family) (max : Int) (n : Nat) : Option Search :=
  Search.loop env m.backed n
    ⟨f, { max := max }, ⟨some m.root, .root, env.rand 0 m.root, 0, true⟩, 1, none⟩

def getMissingNodes (m : Map) (f : Family) (max : Int) (n : Nat) :
    Option (Except SHAMapError (List (SHAMapNodeID × UInt256)) × Map × Family) :=
  if !(f.get m.root).isInner || (f.get m.root).isFullBelow f.generation then
    some (.ok [], m.clearSynching, f)
  else do
    let g ← getMissingNodes.search env m f max n
    match g.thrown with
    | some e => some (.error e, m, g.family)
    | none   =>
      let m := if g.mn.missingNodes.isEmpty then m.clearSynching else m
      some (.ok g.mn.missingNodes, m, g.family)

def fetchRoot (m : Map) (f : Family) (hash : UInt256) : Bool × Map × Family :=
  if (f.get m.root).getHash = hash then
    (true, m, f)
  else
    match f.fetchNodeNT hash (env.route 0) with
    | some (root, f) => (true, { m with root := root }, f)
    | none => (false, m, f)

-- The node in memory for what a peer has sent. A map that is backed keeps it in the cache, unless
-- there is one of this hash already.
def adopt (m : Map) (f : Family) (hash : UInt256) (n : Hashed) (route : Route) : Addr × Family :=
  if m.backed then
    let available := Function.update f.available hash (some ((f.available hash).getD n))
    { f with available := available }.canonicalize hash n route
  else
    f.add n

def addRootNode (m : Map) (f : Family) (hash : UInt256) (rootNode : Blob) :
    Except String (SHAMapAddNode × Map × Family) :=
  if (f.get m.root).getHash ≠ 0 then
    .ok (.duplicate, m, f)
  else do
    match ← Hashed.makeFromWire rootNode with
    | none   => .ok (.invalid, m, f)
    | some n =>
      if n.hash ≠ hash then
        .ok (.invalid, m, f)
      else
        let (root, f) := m.adopt f hash n (env.route 0)
        let m := { m with root := root }
        .ok (.useful, if n.isInner then m else m.clearSynching, f)

-- The walk towards the position `node`, of which `path` is left.
def addKnownNode.loop (m : Map) (node : SHAMapNodeID) (newNode : Option Hashed) :
    List (Fin 16) → Nat → Family → Addr → SHAMapAddNode × Map × Family
  | [], _, f, _ => (.duplicate, m, f)
  | b :: path, clock, f, iNode =>
    if !(f.get iNode).isInner || (f.get iNode).isFullBelow f.generation then
      (.duplicate, m, f)
    else
      match (f.get iNode).branches b with
      | none    => (.invalid, m, f)
      | some br =>
        if f.touchIfExists (env.touched clock) br.hash then
          (.duplicate, m, f)
        else
          match f.descend iNode b br (env.route clock) with
          | some (child, f) => addKnownNode.loop m node newNode path (clock + 1) f child
          | none => attach m f iNode b br.hash path (env.route (clock + 1))
where
  attach (m : Map) (f : Family) (iNode : Addr) (b : Fin 16) (childHash : UInt256)
      (path : List (Fin 16)) (route : Route) : SHAMapAddNode × Map × Family :=
    match newNode with
    | none   => (.invalid, m, f)
    | some n =>
      if n.hash ≠ childHash then
        (.invalid, m, f)
      -- There are no inner nodes at the last level.
      else if n.isInner ∧ node.depth - path.length = 64 then
        (.useful, { m with state := .invalid }, f)
      else if path ≠ [] then
        (.useful, m, f)
      else
        let (child, f) := m.adopt f childHash n route
        (.useful, m, (f.hookChild iNode b child).2)

def addKnownNode (m : Map) (f : Family) (node : SHAMapNodeID) (rawNode : Blob) :
    Except String (SHAMapAddNode × Map × Family) :=
  if !m.isSynching then
    .ok (.duplicate, m, f)
  else do
    let newNode ← Hashed.makeFromWire rawNode
    .ok (addKnownNode.loop env m node newNode node.path 0 f m.root)

end Map
end Sync
end SHAMap
