import Bixd.Basics.IPEndpoint
import Bixd.Lib.HashMap

open IP (Endpoint)

namespace Resource

inductive Kind
  | kindInbound
  | kindOutbound
  | kindUnlimited
  deriving DecidableEq, Repr

structure Key where
  kind    : Kind
  address : Endpoint
  deriving DecidableEq, Repr

-- Seconds until an inactive table item is removed.
def secondsUntilExpiration : Nat := 300

-- Seconds until imported gossip expires.
def gossipExpirationSeconds : Nat := 30

structure Entry where
  refcount       : Int := 0
  -- Contribution from imports.
  remote_balance : Int := 0
  -- For inactive entries, time after which this entry will be erased.
  whenExpires    : Nat := 0

-- A consumer that refers to an entry of the table has the key of the entry.
abbrev Consumer :=
  Option Key

structure Import.Item where
  balance  : Int
  consumer : Consumer

structure Import where
  whenExpires : Nat
  items       : List Import.Item := []

namespace Import

-- The items of all imports.
def all (imports : HashMap String Import) : Multiset Item :=
  imports.values.bind fun imp => imp.items

-- The entries that items refer to.
def refs (items : Multiset Item) : Multiset Key :=
  items.filterMap (·.consumer)

-- What items add to the balance of an entry.
def balance (items : Multiset Item) (key : Key) : Int :=
  ((items.filter (·.consumer = some key)).map (·.balance)).sum

end Import

structure Gossip.Item where
  balance : Int
  address : Endpoint

-- The lists hold the keys of entries. The active entries are in the list of their kind: `inbound_`,
-- `outbound_` and `admin_`.
structure Logic where
  table       : HashMap Key Entry := ∅
  active      : Kind → List Key := fun _ => []
  inactive    : List Key := []
  importTable : HashMap String Import := ∅

namespace Logic

def modify (l : Logic) (key : Key) (f : Entry → Entry) : Logic :=
  match l.table.find? key with
  | some entry => { l with table := l.table.insert key (f entry) }
  | none       => l

def pushActive (l : Logic) (key : Key) : Logic :=
  { l with active := Function.update l.active key.kind (l.active key.kind ++ [key]) }

def eraseActive (l : Logic) (key : Key) : Logic :=
  { l with active := Function.update l.active key.kind ((l.active key.kind).erase key) }

-- What the three kinds of new endpoints share.
def newEndpoint (l : Logic) (key : Key) : Consumer × Logic :=
  let inserted := (l.table.find? key).isNone
  let entry := (l.table.find? key).getD {}
  let entry := { entry with refcount := entry.refcount + 1 }
  let l := { l with table := l.table.insert key entry }
  if entry.refcount = 1 then
    let l := if inserted then l else { l with inactive := l.inactive.erase key }
    (some key, l.pushActive key)
  else (some key, l)

def newInboundEndpoint (l : Logic) (address : Endpoint) : Consumer × Logic :=
  l.newEndpoint ⟨.kindInbound, address.at_port 0⟩

def newOutboundEndpoint (l : Logic) (address : Endpoint) : Consumer × Logic :=
  l.newEndpoint ⟨.kindOutbound, address⟩

def newUnlimitedEndpoint (l : Logic) (address : Endpoint) : Consumer × Logic :=
  l.newEndpoint ⟨.kindUnlimited, address.at_port 1⟩

def erase (l : Logic) (key : Key) : Logic :=
  { l with inactive := l.inactive.erase key, table := l.table.erase key }

def acquire (l : Logic) (key : Key) : Logic :=
  l.modify key fun entry => { entry with refcount := entry.refcount + 1 }

-- An entry without references becomes inactive.
def release (l : Logic) (key : Key) (now : Nat) : Logic :=
  match l.table.find? key with
  | none       => l
  | some entry =>
    let entry := { entry with refcount := entry.refcount - 1 }
    if entry.refcount = 0 then
      let l := l.eraseActive key
      { l with
        inactive := l.inactive ++ [key]
        table := l.table.insert key { entry with
          whenExpires := now + secondsUntilExpiration } }
    else { l with table := l.table.insert key entry }

def addRemoteBalance (l : Logic) (key : Key) (balance : Int) : Logic :=
  l.modify key fun entry => { entry with remote_balance := entry.remote_balance + balance }

-- `Consumer::Consumer(Consumer const&)`
def copyConsumer (l : Logic) : Consumer → Logic
  | none     => l
  | some key => l.acquire key

-- `Consumer::~Consumer`
def destroyConsumer (l : Logic) (now : Nat) : Consumer → Logic
  | none     => l
  | some key => l.release key now

-- `Consumer::operator=`: the old reference is removed before the new one is added.
def assignConsumer (l : Logic) (now : Nat) (old other : Consumer) : Logic :=
  (l.destroyConsumer now old).copyConsumer other

-- The items of an import. The consumer of an item keeps the reference of the new endpoint: the copies
-- that are made on the way are destroyed again.
def importItems (l : Logic) : List Gossip.Item → List Import.Item × Logic
  | [] => ([], l)
  | item :: items =>
    let (consumer, l) := l.newInboundEndpoint item.address
    let l := consumer.elim l fun key => l.addRemoteBalance key item.balance
    let (rest, l) := l.importItems items
    ({ balance := item.balance, consumer } :: rest, l)

def deductItems (l : Logic) (items : List Import.Item) : Logic :=
  items.foldl (fun l item => item.consumer.elim l fun key => l.addRemoteBalance key (-item.balance)) l

def destroyItems (l : Logic) (now : Nat) (items : List Import.Item) : Logic :=
  items.foldl (fun l item => l.destroyConsumer now item.consumer) l

def importConsumers (l : Logic) (now : Nat) (origin : String) (gossip : List Gossip.Item) : Logic :=
  let next := l.importItems gossip
  let imp := { whenExpires := now + gossipExpirationSeconds, items := next.1 }
  match l.importTable.find? origin with
  | none => { next.2 with importTable := next.2.importTable.insert origin imp }
  | some prev =>
    -- The new remote balances were added: deduct the old remote balances.
    let l := next.2.deductItems prev.items
    let l := { l with importTable := l.importTable.insert origin imp }
    l.destroyItems now prev.items

-- The loop over the inactive entries.
def expireEntries (l : Logic) (now : Nat) : List Key → Logic
  | [] => l
  | key :: keys =>
    match l.table.find? key with
    | none => l
    | some entry => if entry.whenExpires ≤ now then (l.erase key).expireEntries now keys else l

-- One round of the loop over the imports.
def expireImport (now : Nat) (l : Logic) (origin : String) : Logic :=
  match l.importTable.find? origin with
  | none     => l
  | some imp =>
    if imp.whenExpires ≤ now then
      let l := l.deductItems imp.items
      let l := { l with importTable := l.importTable.erase origin }
      l.destroyItems now imp.items
    else l

def periodicActivity (l : Logic) (now : Nat) : Logic :=
  let l := l.expireEntries now l.inactive
  l.importTable.keys.foldl (expireImport now) l

end Logic

-- The logic with the consumers that are live outside of it, each an object with an identity, and
-- the time of the clock.
structure System where
  logic     : Logic := {}
  consumers : HashMap Nat Consumer := ∅
  now       : Nat := 0

namespace System

inductive Call
  | newInboundEndpoint (id : Nat) (address : Endpoint)
  | newOutboundEndpoint (id : Nat) (address : Endpoint)
  | newUnlimitedEndpoint (id : Nat) (address : Endpoint)
  | copy (id other : Nat)
  | assign (id other : Nat)
  | destroy (id : Nat)
  | importConsumers (origin : String) (gossip : List Gossip.Item)
  | periodicActivity

-- A new consumer is a new object.
def create (s : System) (id : Nat) (r : Consumer × Logic) : Option System :=
  match s.consumers.find? id with
  | some _ => none
  | none   => some { s with logic := r.2, consumers := s.consumers.insert id r.1 }

-- It is `none` where an object is used that is not live, or constructed where one is.
def exec (s : System) : Call → Option System
  | .newInboundEndpoint id address   => s.create id (s.logic.newInboundEndpoint address)
  | .newOutboundEndpoint id address  => s.create id (s.logic.newOutboundEndpoint address)
  | .newUnlimitedEndpoint id address => s.create id (s.logic.newUnlimitedEndpoint address)
  | .copy id other => do
    let consumer ← s.consumers.find? other
    s.create id (consumer, s.logic.copyConsumer consumer)
  | .assign id other => do
    let old ← s.consumers.find? id
    let consumer ← s.consumers.find? other
    return { s with
      logic := s.logic.assignConsumer s.now old consumer
      consumers := s.consumers.insert id consumer }
  | .destroy id => do
    let consumer ← s.consumers.find? id
    return { s with
      logic := s.logic.destroyConsumer s.now consumer
      consumers := s.consumers.erase id }
  | .importConsumers origin gossip =>
    some { s with logic := s.logic.importConsumers s.now origin gossip }
  | .periodicActivity => some { s with logic := s.logic.periodicActivity s.now }

-- The states that are reached under a clock that does not decrease, by calls that meet a condition.
inductive Reachable (ok : System → Call → Prop) : System → Prop
  | init (now : Nat) : Reachable ok { now }
  | step {s s' : System} (now : Nat) (call : Call) :
    Reachable ok s → s.now ≤ now → ok s call → exec { s with now } call = some s' →
    Reachable ok s'

def refcount (s : System) (key : Key) : Int :=
  ((s.logic.table.find? key).map (·.refcount)).getD 0

-- A consumer is not assigned to itself while it is the only one of its entry.
def NoSelfAssign (s : System) : Call → Prop
  | .assign id other => id = other → ∀ key, s.consumers.find? id = some (some key) →
    s.refcount key ≠ 1
  | _ => True

-- The entries that the live consumers refer to, including those held by imports.
def refs (s : System) : Multiset Key :=
  s.consumers.values.filterMap id + Import.refs (Import.all s.logic.importTable)

-- What the imports say about an entry.
def imported (s : System) (key : Key) : Int :=
  Import.balance (Import.all s.logic.importTable) key

-- The tracking of consumers: an entry is in one list, that of its kind if and only if it has
-- references, there is a reference for each live consumer, the remote balance is what the imports
-- say, and the inactive entries are in the order of their expiry, so that the periodic activity
-- removes those whose expiry has passed and no others.
structure Exact (s : System) : Prop where
  active   : ∀ kind key, (s.logic.active kind).count key =
    if key.kind = kind ∧ 0 < s.refcount key then 1 else 0
  inactive : ∀ key, s.logic.inactive.count key =
    if (s.logic.table.find? key).isSome ∧ ¬0 < s.refcount key then 1 else 0
  live     : ∀ key ∈ s.refs, (s.logic.table.find? key).isSome
  refcount : ∀ {key entry}, s.logic.table.find? key = some entry → entry.refcount = s.refs.count key
  balance  : ∀ {key entry}, s.logic.table.find? key = some entry →
    entry.remote_balance = s.imported key
  ordered  : (s.logic.inactive.filterMap fun key =>
    (s.logic.table.find? key).map (·.whenExpires)).Pairwise (· ≤ ·)
  expires  : ∀ now key, ((s.logic.periodicActivity now).table.find? key).isSome ↔
    ∃ entry, s.logic.table.find? key = some entry ∧ ¬(entry.refcount = 0 ∧ entry.whenExpires ≤ now)

end System

end Resource
