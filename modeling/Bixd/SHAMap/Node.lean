import Bixd.Lib.Heap
import Bixd.Basics.UInt256

-- `sha512Half`, the digest that the nodes are hashed with.
class Digest where
  sha512Half : List UInt8 → UInt256

namespace HashPrefix

def transactionID : List UInt8 := [0x54, 0x58, 0x4E, 0]
def txNode : List UInt8 := [0x53, 0x4E, 0x44, 0]
def leafNode : List UInt8 := [0x4D, 0x4C, 0x4E, 0]
def innerNode : List UInt8 := [0x4D, 0x49, 0x4E, 0]

end HashPrefix

structure SHAMapItem where
  key  : UInt256
  data : List UInt8
  deriving DecidableEq

-- The values of `SHAMapNodeType` other than `tnINNER`, which is not the type of any leaf.
inductive LeafType
  | tnTRANSACTION_NM
  | tnTRANSACTION_MD
  | tnACCOUNT_STATE
  deriving DecidableEq

section Hash

variable [Digest]

-- The key of a transaction without metadata is not part of what is hashed.
def leafHash : LeafType → SHAMapItem → UInt256
  | .tnTRANSACTION_NM, i => Digest.sha512Half (HashPrefix.transactionID ++ i.data)
  | .tnTRANSACTION_MD, i => Digest.sha512Half (HashPrefix.txNode ++ i.data ++ i.key.bytes)
  | .tnACCOUNT_STATE,  i => Digest.sha512Half (HashPrefix.leafNode ++ i.data ++ i.key.bytes)

-- The hash of an inner node from the hashes of its branches, where an empty branch counts as zero.
def innerHash (hs : Fin 16 → Option UInt256) : UInt256 :=
  if ∀ b, hs b = none then
    0
  else
    Digest.sha512Half <|
      HashPrefix.innerNode ++ (List.finRange 16).flatMap (fun b => ((hs b).getD 0).bytes)

end Hash

-- A non-empty branch of an inner node.
structure Branch where
  hash  : UInt256
  child : Addr

inductive SHAMapTreeNode
  | inner (hash : UInt256) (cowid : UInt32) (branches : Fin 16 → Option Branch)
  | leaf  (hash : UInt256) (cowid : UInt32) (type : LeafType) (item : SHAMapItem)

namespace SHAMapTreeNode

def getHash : SHAMapTreeNode → UInt256
  | inner hash .. | leaf hash .. => hash

def cowid : SHAMapTreeNode → UInt32
  | inner _ cowid .. | leaf _ cowid .. => cowid

def isLeaf : SHAMapTreeNode → Bool
  | inner .. => false
  | leaf ..  => true

def clone (cowid : UInt32) : SHAMapTreeNode → SHAMapTreeNode
  | inner hash _ branches => inner hash cowid branches
  | leaf hash _ type item => leaf hash cowid type item

def unshare : SHAMapTreeNode → SHAMapTreeNode :=
  clone 0

def branches : SHAMapTreeNode → Fin 16 → Option Branch
  | inner _ _ branches => branches
  | leaf .. => fun _ => none

def isEmptyBranch (n : SHAMapTreeNode) (b : Fin 16) : Bool :=
  (n.branches b).isNone

def isEmpty (n : SHAMapTreeNode) : Bool :=
  (List.finRange 16).all n.isEmptyBranch

def getBranchCount (n : SHAMapTreeNode) : Nat :=
  (List.finRange 16).countP (fun b => !n.isEmptyBranch b)

def newInner (cowid : UInt32) : SHAMapTreeNode :=
  inner 0 cowid (fun _ => none)

-- The child's hash and the node's own hash are zero from here on until they are recalculated.
def setChild (b : Fin 16) (child : Option Addr) : SHAMapTreeNode → SHAMapTreeNode
  | inner _ cowid branches => inner 0 cowid (Function.update branches b (child.map (Branch.mk 0)))
  | n@(leaf ..) => n

def shareChild (b : Fin 16) (child : Addr) : SHAMapTreeNode → SHAMapTreeNode
  | inner hash cowid branches =>
    inner hash cowid (Function.update branches b ((branches b).map ({ · with child := child })))
  | n@(leaf ..) => n

section Hash

variable [Digest]

def makeTypedLeaf (type : LeafType) (item : SHAMapItem) (owner : UInt32) : SHAMapTreeNode :=
  leaf (leafHash type item) owner type item

def updateHash : SHAMapTreeNode → SHAMapTreeNode
  | inner _ cowid branches => inner (innerHash (fun b => (branches b).map Branch.hash)) cowid branches
  | leaf _ cowid type item => leaf (leafHash type item) cowid type item

def setItem (item : SHAMapItem) : SHAMapTreeNode → SHAMapTreeNode
  | leaf hash cowid type _ => updateHash (leaf hash cowid type item)
  | n@(inner ..) => n

def updateHashDeep (h : Heap SHAMapTreeNode) : SHAMapTreeNode → SHAMapTreeNode
  | inner hash cowid branches =>
    updateHash <| inner hash cowid <| fun b =>
      (branches b).map (fun br => { br with hash := (h.get br.child).getHash })
  | n@(leaf ..) => n

end Hash
end SHAMapTreeNode
