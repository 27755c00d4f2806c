import Bixd.SHAMap.Sync

namespace SHAMap
namespace Sync

open SHAMap.Tree (Hashed)

-- A map that is acquired, and the hash of the root that it is acquired from.
structure Acquired where
  hash : UInt256
  map  : Map

structure World where
  family : Family
  maps   : List Acquired

namespace World

variable [Digest]

-- No node is available yet. The generation stays as it is, since nodes do not disappear.
def init : World where
  family :=
    { nodes := ⟨fun _ => .make .empty, 0⟩, available := fun _ => none, fullBelow := [], generation := 1 }
  maps   := []

inductive Call
  | create (hash : UInt256) (backed : Bool)
  | fetchRoot (i : Nat)
  | addRootNode (i : Nat) (rootNode : Blob)
  | addKnownNode (i : Nat) (node : SHAMapNodeID) (rawNode : Blob)
  | getMissingNodes (i : Nat) (max : Int) (n : Nat)
  -- Another part of the server stores a node.
  | store (hash : UInt256) (rawNode : Blob)
  -- Old hashes are dropped from the cache.
  | sweep (kept : List UInt256)

def update (w : World) (i : Nat) (m : Acquired) (map : Map) (f : Family) : World where
  family := f
  maps   := w.maps.set i { m with map := map }

-- `Step c w w'` says that the call `c` leads from `w` to `w'`.
inductive Step (env : Env) : Call → World → World → Prop
  | create {w hash backed} :
    Step env (.create hash backed) w
      { family := (w.family.add .empty).2,
        maps   := w.maps ++ [⟨hash, ⟨(w.family.add .empty).1, .synching, backed⟩⟩] }
  | fetchRoot {w i m r map f} : w.maps[i]? = some m →
    m.map.fetchRoot env w.family m.hash = (r, map, f) →
    Step env (.fetchRoot i) w (w.update i m map f)
  | addRootNode {w i m raw r map f} : w.maps[i]? = some m →
    m.map.addRootNode env w.family m.hash raw = .ok (r, map, f) →
    Step env (.addRootNode i raw) w (w.update i m map f)
  | addKnownNode {w i m node raw r map f} : w.maps[i]? = some m →
    m.map.addKnownNode env w.family node raw = .ok (r, map, f) →
    Step env (.addKnownNode i node raw) w (w.update i m map f)
  | getMissingNodes {w i m max n r map f} : w.maps[i]? = some m → 0 < max →
    (w.family.get m.map.root).getHash ≠ 0 →
    m.map.getMissingNodes env w.family max n = some (r, map, f) →
    Step env (.getMissingNodes i max n) w (w.update i m map f)
  | store {w hash raw n} : Hashed.makeFromPrefix raw = .ok n → n.hash = hash →
    w.family.available hash = none →
    Step env (.store hash raw) w
      { w with family.available := Function.update w.family.available hash (some n) }
  | sweep {w kept} : kept ⊆ w.family.fullBelow →
    Step env (.sweep kept) w { w with family.fullBelow := kept }

-- What the nodes that come in with a call are read as.
def Call.nodes : Call → Set Hashed
  | addRootNode _ raw | addKnownNode _ _ raw => { n | Hashed.makeFromWire raw = .ok (some n) }
  | store _ raw => { n | Hashed.makeFromPrefix raw = .ok n }
  | _ => {}

-- Whatever the calls are. `S` has all nodes that ever come in.
inductive Reachable (S : Set Hashed) : World → Prop
  | init : Reachable S init
  | step {w w' c env} : Reachable S w → c.nodes ⊆ S → Step env c w w' → Reachable S w'

end World

section

variable [Digest] (S : Set Hashed)

-- The node of hash `h` has a branch `b` with the hash `h'`.
def Refers (h : UInt256) (b : Fin 16) (h' : UInt256) : Prop :=
  ∃ hashes, (.inner hashes ∈ S) ∧ ((Hashed.inner hashes).hash = h) ∧ (hashes b = some h')

-- The node of hash `h'` is at the position `p` of the tree whose root has the hash `h`.
inductive PositionOf (h : UInt256) : List (Fin 16) → UInt256 → Prop
  | root : PositionOf h [] h
  | child {p b h₁ h₂} : PositionOf h p h₁ → Refers S h₁ b h₂ → PositionOf h (p ++ [b]) h₂

def Family.Available (f : Family) (h : UInt256) : Prop :=
  (f.available h).isSome ∨ ∃ a < f.nodes.next, (f.get a).getHash = h

-- Every node of the tree whose root has the hash `h` is available.
def Family.Complete (f : Family) (h : UInt256) : Prop :=
  ∀ p h', PositionOf S h p h' → f.Available h'

end
end Sync
end SHAMap
