import Bixd.SHAMap.Basic
import Bixd.SHAMap.Tree

namespace SHAMap

def readTree (h : NodeHeap) : Nat → Option Addr → Tree
  | 0, _ | _, none => .empty
  | fuel + 1, some a =>
    match h.get a with
    | .leaf _ _ type item => .leaf type item
    | .inner _ _ branches => .inner (fun b => readTree h fuel ((branches b).map Branch.child))

-- What the map stands for.
def tree (m : SHAMap) (h : NodeHeap) : Tree :=
  readTree h levels (some m.root)

def items (m : SHAMap) (h : NodeHeap) : List SHAMapItem :=
  (m.tree h).items

-- The calls that edit a map. The leaf type of those that store an item comes separately.
inductive Edit
  | addGiveItem (item : SHAMapItem)
  | updateGiveItem (item : SHAMapItem)
  | delItem (id : UInt256)

inductive Call
  | edit (e : Edit)
  | getHash
  | unshare
  | snapShot (isMutable : Bool)

-- The calls that assert that the map is not immutable.
def Call.mutates : Call → Bool
  | edit _ => true
  | _      => false

-- What a successful edit does to the items, as a function from keys.
def Edit.apply (f : UInt256 → Option SHAMapItem) : Edit → UInt256 → Option SHAMapItem
  | addGiveItem item | updateGiveItem item => Function.update f item.key (some item)
  | delItem id => Function.update f id none

section Exec

variable [Digest]

def Edit.exec (type : LeafType) (m : SHAMap) (h : NodeHeap) :
    Edit → Except SHAMapError (Bool × SHAMap × NodeHeap)
  | addGiveItem item => m.addGiveItem h type item
  | updateGiveItem item => m.updateGiveItem h type item
  | delItem id => m.delItem h id

-- The map after the call, and the new map if the call is one for a snapshot.
def Call.exec (type : LeafType) (m : SHAMap) (h : NodeHeap) :
    Call → Except SHAMapError (SHAMap × NodeHeap × Option SHAMap)
  | edit e => do
    let (_, m, h) ← e.exec type m h
    pure (m, h, none)
  | getHash =>
    let (_, m, h) := m.getHash h
    pure (m, h, none)
  | unshare =>
    let (m, h) := m.unshare h
    pure (m, h, none)
  | snapShot isMutable =>
    let (newMap, h) := m.snapShot h isMutable
    pure (m, h, some newMap)

-- A sequence of calls on one map that starts out empty. Its snapshots stay in the heap.
def run (type : LeafType) (calls : List Call) : Except SHAMapError (SHAMap × NodeHeap) :=
  calls.foldlM (fun (m, h) c => do let (m, h, _) ← c.exec type m h; pure (m, h)) empty

-- A sequence of edits of a map that starts out empty, along with the items that were last stored.
def runEdits (edits : List (LeafType × Edit)) :
    Except SHAMapError (SHAMap × NodeHeap × (UInt256 → Option SHAMapItem)) :=
  edits.foldlM (fun (m, h, f) (type, e) => do
      let (r, m, h) ← e.exec type m h
      pure (m, h, if r then e.apply f else f))
    (empty.1, empty.2, fun _ => none)

-- A heap and the maps that live there.
structure World where
  heap : NodeHeap
  maps : List SHAMap

namespace World

def init : World where
  heap := empty.2
  maps := [empty.1]

-- The call `c` on the map at `i`. A snapshot becomes the last map.
structure Step (w : World) (i : Nat) (c : Call) (w' : World) : Prop where
  call : ∃ type m m' newMap, w.maps[i]? = some m ∧ (c.mutates → m.state ≠ .immutable) ∧
    c.exec type m w.heap = .ok (m', w'.heap, newMap) ∧ w'.maps = w.maps.set i m' ++ newMap.toList

-- A snapshot gets the successor of the map's id as its own. The largest id has none.
def Fits (w : World) (i : Nat) (c : Call) : Prop :=
  ∀ m isMutable, w.maps[i]? = some m → c = .snapShot isMutable → m.cowid ≠ 0xffffffff

-- Whatever the steps are.
inductive Reachable : World → Prop
  | init : Reachable init
  | step {w i c w'} : Reachable w → Step w i c w' → Reachable w'

-- All steps have been ones that fit.
inductive FitReachable : World → Prop
  | init : FitReachable init
  | step {w i c w'} : FitReachable w → w.Fits i c → Step w i c w' → FitReachable w'

end World
end Exec

-- The nodes below `a`.
inductive Reach (h : NodeHeap) (a : Addr) : Addr → Prop
  | refl : Reach h a a
  | child {b hash cowid bs i br} :
    Reach h a b → h.get b = .inner hash cowid bs → bs i = some br → Reach h a br.child

end SHAMap
