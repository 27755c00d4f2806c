import Bixd.Ledger.View
import Bixd.Protocol.Indexes

-- Directories: keys that are kept in pages, which are linked to a ring from the root on.

-- The maximum number of entries per page and of pages per directory.
def dirNodeMaxEntries : Nat := 32
def dirNodeMaxPages   : UInt64 := 262144

def describeOwnerDir (account : AccountID) (sle : SLE) : SLE :=
  sle.set sfOwner (.account (some account))

namespace ApplyView

variable [Digest]

-- The keys of a page with one more.
def dirAdd.indexes (preserveOrder : Bool) (indexes : List UInt256) (key : UInt256) :
    Except String (List UInt256) :=
  if preserveOrder then
    if key ∈ indexes then
      .error "dirInsert: double insertion"
    else
      .ok (indexes ++ [key])
  else
    -- The page may not be sorted yet.
    let indexes := indexes.insertionSort (· ≤ ·)
    let pos := indexes.findIdx (key ≤ ·)
    if indexes[pos]? = some key then
      .error "dirInsert: double insertion"
    else
      .ok (indexes.insertIdx pos key)

-- The last page, which is the root if there is no other.
def dirAdd.lastPage (v : ApplyView) (directory : Keylet) (root : SLEPtr) (page : UInt64) :
    Except String (SLEPtr × ApplyView) :=
  if page ≠ 0 then
    v.peekOrError (.page directory.key page) "Directory chain: root back-pointer broken."
  else
    .ok (root, v)

-- A page is added after the last one. The root is the last page itself if it is the only one.
def dirAdd.newPage (v : ApplyView) (directory : Keylet) (key : UInt256) (describe : SLE → SLE)
    (root node : SLEPtr) (page : UInt64) : Except String (Option UInt64 × ApplyView) := do
  let newPage := page + 1
  if newPage ≥ dirNodeMaxPages then
    return (none, v)
  else
    let node := node.set sfIndexNext (.uint64 newPage)
    let v ← v.update node
    let root := if page = 0 then node else root
    let v ← v.update (root.set sfIndexPrevious (.uint64 newPage))
    let k := Keylet.page directory.key newPage
    let sle := SLE.make k.type k.key
    let sle := sle.set sfRootIndex (.hash256 directory.key)
    let sle := sle.set sfIndexes (.vector256 [key])
    let sle := if newPage ≠ 1 then sle.set sfIndexPrevious (.uint64 (newPage - 1)) else sle
    let (node, v) := v.alloc (describe sle)
    return (some newPage, ← v.insert node)

-- The page that the key is added to, unless the directory is full.
def dirAdd (v : ApplyView) (preserveOrder : Bool) (directory : Keylet) (key : UInt256)
    (describe : SLE → SLE) : Except String (Option UInt64 × ApplyView) :=
  match v.peek directory with
  | (none, v)      => do
    -- There is no root, make it.
    let sle := SLE.make directory.type directory.key
    let sle := describe (sle.set sfRootIndex (.hash256 directory.key))
    let (root, v) := v.alloc (sle.set sfIndexes (.vector256 [key]))
    return (some 0, ← v.insert root)
  | (some root, v) => do
    let page := root.sle.getFieldU64 sfIndexPrevious
    let (node, v) ← dirAdd.lastPage v directory root page
    let indexes := node.sle.getFieldV256 sfIndexes
    if indexes.length < dirNodeMaxEntries then
      let indexes ← dirAdd.indexes preserveOrder indexes key
      return (some page, ← v.update (node.set sfIndexes (.vector256 indexes)))
    else
      dirAdd.newPage v directory key describe root node page

def dirAppend (v : ApplyView) (directory : Keylet) (key : UInt256) (describe : SLE → SLE) :
    Except String (Option UInt64 × ApplyView) :=
  v.dirAdd true directory key describe

def dirInsert (v : ApplyView) (directory : Keylet) (key : UInt256) (describe : SLE → SLE) :
    Except String (Option UInt64 × ApplyView) :=
  v.dirAdd false directory key describe

def rootPage : UInt64 := 0

-- The root has become empty. Its last page may be empty in directories that older versions have
-- left behind.
def dirRemove.emptyRoot (v : ApplyView) (directory : Keylet) (node : SLEPtr) (keepRoot : Bool) :
    Except String (Bool × ApplyView) := do
  let prevPage := node.sle.getFieldU64 sfIndexPrevious
  let nextPage := node.sle.getFieldU64 sfIndexNext
  if nextPage = rootPage ∧ prevPage ≠ rootPage then
    .error "Directory chain: fwd link broken"
  else if prevPage = rootPage ∧ nextPage ≠ rootPage then
    .error "Directory chain: rev link broken"
  else if nextPage = prevPage ∧ nextPage ≠ rootPage then
    let (last, v) ← v.peekOrError (.page directory.key nextPage) "Directory chain: fwd link broken."
    if (last.sle.getFieldV256 sfIndexes).isEmpty then
      let node := (node.set sfIndexNext (.uint64 rootPage)).set sfIndexPrevious (.uint64 rootPage)
      let v ← v.update node
      let v ← v.erase last
      if keepRoot then
        return (true, v)
      else
        return (true, ← v.erase node)
    else
      return (true, v)
  else if keepRoot then
    return (true, v)
  else if nextPage = rootPage ∧ prevPage = rootPage then
    return (true, ← v.erase node)
  else
    return (true, v)

-- The pages before and after a page are linked to each other, and it is deleted. They are the same
-- entry if there is only the root besides.
def dirRemove.unlink (v : ApplyView) (directory : Keylet) (prevPage nextPage : UInt64)
    (node : SLEPtr) : Except String (SLEPtr × SLEPtr × ApplyView) := do
  let (prev, v) ← v.peekOrError (.page directory.key prevPage) "Directory chain: fwd link broken."
  let prev := prev.set sfIndexNext (.uint64 nextPage)
  let v ← v.update prev
  let (next, v) ← v.peekOrError (.page directory.key nextPage) "Directory chain: rev link broken."
  let next := next.set sfIndexPrevious (.uint64 prevPage)
  let v ← v.update next
  let prev := if prevPage = nextPage then next else prev
  return (prev, next, ← v.erase node)

-- The page has become empty and is not the root.
def dirRemove.emptyPage (v : ApplyView) (directory : Keylet) (page : UInt64) (node : SLEPtr)
    (keepRoot : Bool) : Except String (Bool × ApplyView) := do
  let prevPage := node.sle.getFieldU64 sfIndexPrevious
  let nextPage := node.sle.getFieldU64 sfIndexNext
  if nextPage = page then
    .error "Directory chain: fwd link broken"
  else if prevPage = page then
    .error "Directory chain: rev link broken"
  else
    let (prev, next, v) ← dirRemove.unlink v directory prevPage nextPage node
    if nextPage ≠ rootPage ∧ next.sle.getFieldU64 sfIndexNext = rootPage ∧
        (next.sle.getFieldV256 sfIndexes).isEmpty then
      -- The next page is the last one and empty.
      let v ← v.erase next
      let prev := prev.set sfIndexNext (.uint64 rootPage)
      let v ← v.update prev
      let (root, v) ← v.peekOrError (.page directory.key rootPage)
        "Directory chain: root link broken."
      let root := root.set sfIndexPrevious (.uint64 prevPage)
      let v ← v.update root
      let prev := if prevPage = rootPage then root else prev
      if !keepRoot ∧ prevPage = rootPage ∧ (prev.sle.getFieldV256 sfIndexes).isEmpty then
        return (true, ← v.erase prev)
      else
        return (true, v)
    else if !keepRoot ∧ nextPage = rootPage ∧ prevPage = rootPage ∧
        (prev.sle.getFieldV256 sfIndexes).isEmpty then
      return (true, ← v.erase prev)
    else
      return (true, v)

-- Whether the key was on the page. It is removed from it, and pages that are empty are deleted.
def dirRemove (v : ApplyView) (directory : Keylet) (page : UInt64) (key : UInt256)
    (keepRoot : Bool) : Except String (Bool × ApplyView) :=
  match v.peek (.page directory.key page) with
  | (none, v)      => .ok (false, v)
  | (some node, v) =>
    let entries := node.sle.getFieldV256 sfIndexes
    if key ∉ entries then
      .ok (false, v)
    else do
      -- The relative order is preserved.
      let entries := entries.erase key
      let node := node.set sfIndexes (.vector256 entries)
      let v ← v.update node
      if !entries.isEmpty then
        return (true, v)
      else if page = rootPage then
        dirRemove.emptyRoot v directory node keepRoot
      else
        dirRemove.emptyPage v directory page node keepRoot

-- The directory is removed if it is empty. Its last page may be empty in directories that older
-- versions have left behind.
def emptyDirDelete (v : ApplyView) (directory : Keylet) : Except String (Bool × ApplyView) :=
  match v.peek directory with
  | (none, v)      => .ok (false, v)
  | (some node, v) =>
    if directory.type ≠ .ltDIR_NODE ∨ node.sle.getFieldH256 sfRootIndex ≠ directory.key then
      .ok (false, v)
    else if !(node.sle.getFieldV256 sfIndexes).isEmpty then
      .ok (false, v)
    else do
      let prevPage := node.sle.getFieldU64 sfIndexPrevious
      let nextPage := node.sle.getFieldU64 sfIndexNext
      if nextPage = rootPage ∧ prevPage ≠ rootPage then
        .error "Directory chain: fwd link broken"
      else if prevPage = rootPage ∧ nextPage ≠ rootPage then
        .error "Directory chain: rev link broken"
      else if nextPage = prevPage ∧ nextPage ≠ rootPage then
        let (last, v) ← v.peekOrError (.page directory.key nextPage)
          "Directory chain: fwd link broken."
        if !(last.sle.getFieldV256 sfIndexes).isEmpty then
          return (false, v)
        else
          let node :=
            (node.set sfIndexNext (.uint64 rootPage)).set sfIndexPrevious (.uint64 rootPage)
          let v ← v.update node
          let v ← v.erase last
          return (true, ← v.erase node)
      else if nextPage = rootPage ∧ prevPage = rootPage then
        return (true, ← v.erase node)
      else
        return (true, v)

end ApplyView

-- Where an iteration over a directory is: the page and the next entry on it.
structure DirPos where
  sleNode   : SLE
  uDirEntry : Nat

section Iteration

variable [Digest] {S : Type} (fetch : S → Keylet → Option SLE × S)

-- The next entry, if there is one, from a page or from those after it. `none` if the pages that are
-- passed are more than the fuel.
def dirStep (uRootIndex : UInt256) : Nat → S → DirPos → Option ((Option UInt256 × DirPos) × S)
  | 0, _, _ => none
  | fuel + 1, s, ⟨sleNode, uDirEntry⟩ =>
    match (sleNode.getFieldV256 sfIndexes)[uDirEntry]? with
    | some uEntryIndex => some ((some uEntryIndex, ⟨sleNode, uDirEntry + 1⟩), s)
    | none =>
      let uNodeNext := sleNode.getFieldU64 sfIndexNext
      if uNodeNext = 0 then
        some ((none, ⟨sleNode, uDirEntry⟩), s)
      else
        match fetch s (.page uRootIndex uNodeNext) with
        | (none, s) => some ((none, ⟨sleNode, 0⟩), s)
        | (some sleNext, s) => dirStep uRootIndex fuel s ⟨sleNext, 0⟩

-- All entries from a position on.
def dirCollect (uRootIndex : UInt256) : Nat → S → DirPos → Option (List UInt256 × S)
  | 0, _, _ => none
  | fuel + 1, s, pos =>
    match dirStep fetch uRootIndex (fuel + 1) s pos with
    | none => none
    | some ((none, _), s) => some ([], s)
    | some ((some uEntryIndex, pos), s) =>
      (dirCollect uRootIndex fuel s pos).map fun (entries, s) => (uEntryIndex :: entries, s)

-- The root has to be there.
def dirEntries (uRootIndex : UInt256) (fuel : Nat) (s : S) : Option (List UInt256 × S) :=
  match fetch s (.page uRootIndex 0) with
  | (none, _) => none
  | (some sleNode, s) => dirCollect fetch uRootIndex fuel s ⟨sleNode, 0⟩

end Iteration

section

variable [Digest]

-- `cdirFirst` and `cdirNext` read the pages.
def ReadView.fetch (view : ReadView) (k : Keylet) : Option SLE × ReadView :=
  (view.read k, view)

def cdirNext (uRootIndex : UInt256) (fuel : Nat) (view : ReadView) (pos : DirPos) :
    Option ((Option UInt256 × DirPos) × ReadView) :=
  dirStep ReadView.fetch uRootIndex fuel view pos

def cdirEntries (uRootIndex : UInt256) (fuel : Nat) (view : ReadView) :
    Option (List UInt256 × ReadView) :=
  dirEntries ReadView.fetch uRootIndex fuel view

-- `dirFirst` and `dirNext` peek at them.
def ApplyView.fetch (v : ApplyView) (k : Keylet) : Option SLE × ApplyView :=
  let (p, v) := v.peek k
  (p.map SLEPtr.sle, v)

def dirNext (uRootIndex : UInt256) (fuel : Nat) (v : ApplyView) (pos : DirPos) :
    Option ((Option UInt256 × DirPos) × ApplyView) :=
  dirStep ApplyView.fetch uRootIndex fuel v pos

def iterEntries (uRootIndex : UInt256) (fuel : Nat) (v : ApplyView) :
    Option (List UInt256 × ApplyView) :=
  dirEntries ApplyView.fetch uRootIndex fuel v

end
