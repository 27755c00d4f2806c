import Bixd.Lib.Except
import Bixd.Protocol.Serializer
import Bixd.SHAMap.Tree

open HashPrefix Serializer

namespace SHAMapTreeNode

def wireTypeTransaction : UInt8 := 0
def wireTypeAccountState : UInt8 := 1
def wireTypeInner : UInt8 := 2
def wireTypeCompressedInner : UInt8 := 3
def wireTypeTransactionWithMeta : UInt8 := 4

end SHAMapTreeNode

namespace SHAMap
namespace Tree
namespace Hashed

open SHAMapTreeNode

-- `Serializer::getBitString` at an offset.
def bitString (data : Blob) (offset : Nat) : UInt256 :=
  BitVec.ofNat 256 (Bytes.toNat ((data.drop offset).take 32))

def isInner : Hashed → Bool
  | inner _ => true
  | leaf .. => false

-- The hash of an empty branch is zero.
def getChildHash : Hashed → Fin 16 → UInt256
  | inner hashes, b => (hashes b).getD 0
  | leaf .., _      => 0

section

variable [Digest]

def makeTransaction (data : Blob) : Hashed :=
  leaf .tnTRANSACTION_NM ⟨Digest.sha512Half (transactionID ++ data), data⟩

end

-- The key is at the end of the data.
def makeTransactionWithMeta (data : Blob) : Except String Hashed :=
  if data.length < 32 then
    .error "Short TXN+MD node"
  else
    let tag := bitString data (data.length - 32)
    .ok (leaf .tnTRANSACTION_MD ⟨tag, data.take (data.length - 32)⟩)

def makeAccountState (data : Blob) : Except String Hashed :=
  if data.length < 32 then
    .error "short AS node"
  else
    let tag := bitString data (data.length - 32)
    if tag = 0 then
      .error "Invalid AS node"
    else
      .ok (leaf .tnACCOUNT_STATE ⟨tag, data.take (data.length - 32)⟩)

-- A hash that is written to a branch. A hash other than zero makes the branch one that is not
-- empty, but zero does not make it an empty one again.
def putHash (hashes : Fin 16 → Option UInt256) (pos : Fin 16) (h : UInt256) :
    Fin 16 → Option UInt256 :=
  Function.update hashes pos (if h ≠ 0 ∨ (hashes pos).isSome then some h else none)

def makeFullInner (data : Blob) : Except String Hashed :=
  if data.length ≠ 512 then
    .error "Invalid FI node"
  else
    .ok <| inner <| (List.finRange 16).foldl
      (fun hashes i => putHash hashes i (bitString data (i * 32))) (fun _ => none)

-- Entries of a hash and the position of its branch. What is left over at the end is ignored.
def makeCompressedInner.loop (hashes : Fin 16 → Option UInt256) :
    Nat → Blob → Except String (Fin 16 → Option UInt256)
  | 0, _ => .ok hashes
  | n + 1, data =>
    let pos := (data.getD 32 0).toNat
    if h : pos < 16 then
      makeCompressedInner.loop (putHash hashes ⟨pos, h⟩ (bitString data 0)) n (data.drop 33)
    else
      .error "invalid CI node"

def makeCompressedInner (data : Blob) : Except String Hashed := do
  let hashes ← makeCompressedInner.loop (fun _ => none) (data.length / 33) data
  return inner hashes

-- The type of a node is the last byte. Nothing is read from no bytes at all.
def makeFromWire [Digest] (rawNode : Blob) : Except String (Option Hashed) :=
  match rawNode.getLast? with
  | none      => .ok none
  | some type => some <$> make type rawNode.dropLast
where
  make (type : UInt8) (rawNode : Blob) : Except String Hashed :=
    if type = wireTypeTransaction then
      .ok (makeTransaction rawNode)
    else if type = wireTypeAccountState then
      makeAccountState rawNode
    else if type = wireTypeInner then
      makeFullInner rawNode
    else if type = wireTypeCompressedInner then
      makeCompressedInner rawNode
    else if type = wireTypeTransactionWithMeta then
      makeTransactionWithMeta rawNode
    else
      .error ("wire: Unknown type (" ++ toString type.toNat ++ ")")

-- The form that nodes are stored in, where the type is at the front.
def makeFromPrefix [Digest] (rawNode : Blob) : Except String Hashed :=
  if rawNode.length < 4 then
    .error "prefix: short node"
  else
    make (rawNode.take 4) (rawNode.drop 4)
where
  make (type rawNode : Blob) : Except String Hashed :=
    if type = transactionID then
      .ok (makeTransaction rawNode)
    else if type = leafNode then
      makeAccountState rawNode
    else if type = innerNode then
      makeFullInner rawNode
    else if type = txNode then
      makeTransactionWithMeta rawNode
    else
      .error ("prefix: unknown type (" ++ toString (Bytes.toNat type) ++ ")")

def getBranchCount (hashes : Fin 16 → Option UInt256) : Nat :=
  (List.finRange 16).countP (fun b => (hashes b).isSome)

-- A node with few branches is sent without the empty ones.
def serializeForWire : Hashed → Blob
  | leaf .tnTRANSACTION_NM i => i.data ++ [wireTypeTransaction]
  | leaf .tnTRANSACTION_MD i => i.data ++ addBitString i.key ++ [wireTypeTransactionWithMeta]
  | leaf .tnACCOUNT_STATE i => i.data ++ addBitString i.key ++ [wireTypeAccountState]
  | inner hashes =>
    if getBranchCount hashes < 12 then
      compressed hashes ++ [wireTypeCompressedInner]
    else
      (List.finRange 16).flatMap (fun b => addBitString ((hashes b).getD 0)) ++
      [wireTypeInner]
where
  compressed (hashes : Fin 16 → Option UInt256) : Blob :=
    (List.finRange 16).flatMap fun b =>
      match hashes b with
      | none   => []
      | some h => addBitString h ++ [UInt8.ofNat b]

end Hashed

-- The node at the top of a tree.
def top [Digest] : Tree → Hashed
  | empty     => .empty
  | leaf ty i => .leaf ty i
  | inner ts  => .inner (childHashes ts)

-- The leaf that the walk along the branches of a key ends at.
def walkTowardsKey (key : UInt256) (depth : Nat) : Tree → Option (LeafType × SHAMapItem)
  | empty     => none
  | leaf ty i => some (ty, i)
  | inner ts  => (ts (key.nibble depth)).walkTowardsKey key (depth + 1)

-- The nodes on the walk along the branches of a key, the last one first.
def pathTo [Digest] (key : UInt256) (depth : Nat) : Tree → List Hashed
  | empty => []
  | leaf ty i => [.leaf ty i]
  | t@(inner ts) => (ts (key.nibble depth)).pathTo key (depth + 1) ++ [t.top]

end Tree

open SHAMap.Tree (Hashed)

-- The path from the leaf to the root, if there is a leaf of this key.
def getProofPath [Digest] (t : Tree) (key : UInt256) : Option (List Blob) :=
  match t.walkTowardsKey key 0 with
  | none => none
  | some (_, i) => if i.key ≠ key then none else some ((t.pathTo key 0).map Hashed.serializeForWire)

-- The loop over the path, from the root on. `size` is the length of the whole path.
def verifyProofPath.loop [Digest] (key : UInt256) (size : Nat) :
    Nat → UInt256 → List Blob → Except String Bool
  | _, _, [] => .ok false
  | depth, hash, blob :: rest => do
    match ← Hashed.makeFromWire blob with
    | none => .ok false
    | some node =>
      if node.hash ≠ hash then
        .ok false
      else if node.isInner then
        verifyProofPath.loop key size (depth + 1) (node.getChildHash (key.nibble depth)) rest
      else
        .ok (decide (depth + 1 = size))

def verifyProofPath [Digest] (rootHash key : UInt256) (path : List Blob) : Bool :=
  if path.isEmpty ∨ path.length > 65 then
    false
  else
    match verifyProofPath.loop key path.length 0 rootHash path.reverse with
    | .ok b    => b
    | .error _ => false

end SHAMap
