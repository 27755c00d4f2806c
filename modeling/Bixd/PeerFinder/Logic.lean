import Bixd.Basics.IPEndpoint
import Bixd.Lib.HashMap

open IP (Address Endpoint)

namespace PeerFinder

namespace Tuning

def outPercent : Nat := 15

def minOutCount : Nat := 10

def defaultMaxPeers : Nat := 21

def connectionBackoff : List Nat := [1, 1, 2, 3, 5, 8, 13, 21, 34, 55]

end Tuning

structure Config where
  maxPeers     : Nat
  outPeers     : Nat
  inPeers      : Nat
  wantIncoming : Bool
  -- How many incoming connections are allowed per address.
  ipLimit      : Int

namespace Config

def calcOutPeers (maxPeers : Nat) : Nat :=
  max ((maxPeers * Tuning.outPercent + 50) / 100) Tuning.minOutCount

def default : Config where
  maxPeers     := Tuning.defaultMaxPeers
  outPeers     := calcOutPeers Tuning.defaultMaxPeers
  inPeers      := 0
  wantIncoming := true
  ipLimit      := 0

-- A limit for a configuration that does not set one.
def applyTuning.limit (c : Config) : Int :=
  if c.ipLimit = 0 then
    if c.inPeers > Tuning.defaultMaxPeers then
      2 + min 5 (c.inPeers / Tuning.defaultMaxPeers : Nat)
    else 2
  else c.ipLimit

def applyTuning (c : Config) : Config :=
  { c with ipLimit := max 1 (min (applyTuning.limit c) (c.inPeers / 2 : Nat)) }

end Config

-- What is known about an address that should always be connected.
structure Fixed where
  when     : Nat
  failures : Nat := 0

namespace Fixed

def failure (f : Fixed) (now : Nat) : Fixed :=
  let failures := min (f.failures + 1) (Tuning.connectionBackoff.length - 1)
  { when := now + 60 * Tuning.connectionBackoff.getD failures 0, failures }

def success (_ : Fixed) (now : Nat) : Fixed :=
  { when := now, failures := 0 }

end Fixed

inductive State
  | accept
  | connect
  | connected
  | active
  | closing
  deriving DecidableEq, Repr

-- `K` is the type of public keys.
structure SlotImp (K : Type) where
  inbound : Bool
  fixed : Bool
  reserved : Bool := false
  state : State
  remote_endpoint : Endpoint
  local_endpoint : Option Endpoint := none
  public_key : Option K := none

namespace SlotImp

variable {K : Type}

def newInbound (local_endpoint remote_endpoint : Endpoint) (fixed : Bool) : SlotImp K :=
  { inbound := true, fixed, state := .accept, remote_endpoint
    local_endpoint := some local_endpoint }

def newOutbound (remote_endpoint : Endpoint) (fixed : Bool) : SlotImp K :=
  { inbound := false, fixed, state := .connect, remote_endpoint }

-- The assertions on a new state.
def allowsState (s : SlotImp K) (state : State) : Bool :=
  state ≠ .active && state ≠ s.state && state ≠ .accept && state ≠ .connect &&
  (state ≠ .connected || !s.inbound && s.state = .connect) &&
  (state ≠ .closing || s.state ≠ .connect)

def setState (s : SlotImp K) (state : State) : Option (SlotImp K) :=
  if s.allowsState state then some { s with state } else none

def activate (s : SlotImp K) : Option (SlotImp K) :=
  if s.state = .accept ∨ s.state = .connected then some { s with state := .active } else none

end SlotImp

structure Counts where
  attempts : Int := 0
  active : Int := 0
  in_max : Int := 0
  in_active : Int := 0
  out_max : Int := 0
  out_active : Int := 0
  fixed : Int := 0
  fixed_active : Int := 0
  reserved : Int := 0
  acceptCount : Int := 0
  closingCount : Int := 0

namespace Counts

variable {K : Type}

def onConfig (c : Counts) (config : Config) : Counts :=
  let c := { c with out_max := config.outPeers }
  if config.wantIncoming then { c with in_max := config.inPeers } else c

-- Adjusts counts based on the specified slot, in the direction indicated.
def adjust (c : Counts) (s : SlotImp K) (n : Int) : Counts :=
  let c := if s.fixed then { c with fixed := c.fixed + n } else c
  let c := if s.reserved then { c with reserved := c.reserved + n } else c
  match s.state with
  | .accept => { c with acceptCount := c.acceptCount + n }
  | .connect | .connected => { c with attempts := c.attempts + n }
  | .active =>
    let c := if s.fixed then { c with fixed_active := c.fixed_active + n } else c
    let c :=
      if !s.fixed && !s.reserved then
        if s.inbound then { c with in_active := c.in_active + n }
        else { c with out_active := c.out_active + n }
      else c
    { c with active := c.active + n }
  | .closing => { c with closingCount := c.closingCount + n }

def add (c : Counts) (s : SlotImp K) : Counts :=
  c.adjust s 1

def remove (c : Counts) (s : SlotImp K) : Counts :=
  c.adjust s (-1)

def can_activate (c : Counts) (s : SlotImp K) : Bool :=
  if s.fixed || s.reserved then true
  else if s.inbound then c.in_active < c.in_max
  else c.out_active < c.out_max

end Counts

inductive Result
  | duplicate
  | full
  | success
  deriving DecidableEq, Repr

structure Logic (K : Type) where
  config : Config
  counts : Counts := {}
  fixed : HashMap Endpoint Fixed := ∅
  slots : HashMap Endpoint (SlotImp K) := ∅
  connectedAddresses : Multiset Address := 0
  keys : Finset K := ∅

namespace Logic

variable {K : Type}

def setConfig (l : Logic K) (c : Config) : Logic K :=
  { l with config := c, counts := l.counts.onConfig c }

-- The logic as it is constructed, given its fixed addresses and configured.
def init (c : Config) (fixed : HashMap Endpoint Fixed) : Logic K :=
  setConfig (setConfig { config := .default, fixed } .default) c

-- Whether the address matches a fixed address.
def isFixedEndpoint (l : Logic K) (ep : Endpoint) : Bool :=
  l.fixed.toList.any fun entry => entry.1 = ep

-- This does not use the port of the fixed address.
def isFixedAddress (l : Logic K) (address : Address) : Bool :=
  l.fixed.toList.any fun entry => entry.1.address = address

-- `std::map::emplace`: a slot that is present stays.
def emplace (slots : HashMap Endpoint (SlotImp K)) (slot : SlotImp K) :
    HashMap Endpoint (SlotImp K) :=
  match slots.find? slot.remote_endpoint with
  | some _ => slots
  | none   => slots.insert slot.remote_endpoint slot

-- The part that the two kinds of new slots share. The counts are updated also if the remote endpoint
-- was present.
def addSlot (l : Logic K) (slot : SlotImp K) : Logic K :=
  { l with
    slots := emplace l.slots slot
    connectedAddresses := slot.remote_endpoint.address ::ₘ l.connectedAddresses
    counts := l.counts.add slot }

-- Whether an inbound connection is dropped because of the limit per address.
def aboveIpLimit (l : Logic K) (remote_endpoint : Endpoint) : Bool :=
  remote_endpoint.is_public &&
    (l.connectedAddresses.count remote_endpoint.address : Int) > l.config.ipLimit

def new_inbound_slot (l : Logic K) (local_endpoint remote_endpoint : Endpoint) :
    Option (SlotImp K) × Logic K :=
  if l.aboveIpLimit remote_endpoint then (none, l)
  else
    let slot :=
      .newInbound local_endpoint remote_endpoint (l.isFixedAddress remote_endpoint.address)
    let l := l.addSlot slot
    (l.slots.find? remote_endpoint, l)

def new_outbound_slot (l : Logic K) (remote_endpoint : Endpoint) : Option (SlotImp K) × Logic K :=
  match l.slots.find? remote_endpoint with
  | some _ => (none, l)
  | none   =>
    let slot := .newOutbound remote_endpoint (l.isFixedEndpoint remote_endpoint)
    let l := l.addSlot slot
    (l.slots.find? remote_endpoint, l)

-- A slot object is changed while it is in the table.
def setSlot (l : Logic K) (slot : SlotImp K) : Logic K :=
  { l with slots := l.slots.insert slot.remote_endpoint slot }

-- Takes a slot out of the counts, changes it and puts it in again.
def mutate (l : Logic K) (slot slot' : SlotImp K) : Logic K :=
  { l with counts := (l.counts.remove slot).add slot' }.setSlot slot'

-- The slot is the object in the table at the remote endpoint. It is `none` where an assertion fails.
def onConnected (l : Logic K) (remote_endpoint local_endpoint : Endpoint) :
    Option (Bool × Logic K) := do
  let slot ← l.slots.find? remote_endpoint
  let slot := { slot with local_endpoint := some local_endpoint }
  let l := l.setSlot slot
  -- Check for self-connect by address.
  match l.slots.find? local_endpoint with
  | some s =>
    guard (s.local_endpoint = some slot.remote_endpoint)
    return (false, l)
  | none =>
    let slot' ← slot.setState .connected
    return (true, l.mutate slot slot')

-- Marks the success or the failure of a fixed slot.
def markFixed (l : Logic K) (ep : Endpoint) (f : Fixed → Fixed) : Option (Logic K) := do
  let entry ← l.fixed.find? ep
  return { l with fixed := l.fixed.insert ep (f entry) }

def activate.markSuccess (l : Logic K) (slot : SlotImp K) (now : Nat) : Option (Logic K) :=
  if slot.fixed && !slot.inbound then l.markFixed slot.remote_endpoint (·.success now) else some l

variable [DecidableEq K]

def activate (l : Logic K) (remote_endpoint : Endpoint) (key : K) (reserved : Bool) (now : Nat) :
    Option (Result × Logic K) := do
  let slot ← l.slots.find? remote_endpoint
  guard (slot.state = .accept ∨ slot.state = .connected)
  -- Check for duplicate connection by key.
  if key ∈ l.keys then return (.duplicate, l)
  let slot' := { slot with reserved }
  let l := l.mutate slot slot'
  -- See if we have an open space for this slot.
  if !l.counts.can_activate slot' then return (.full, l)
  let keyed := { slot' with public_key := some key }
  let l := { l with keys := insert key l.keys }
  let active ← keyed.activate
  let l := l.mutate keyed active
  let l ← activate.markSuccess l active now
  return (.success, l)

-- The key of a slot is removed if present. It must exist.
def remove.eraseKey (l : Logic K) (slot : SlotImp K) : Option (Logic K) :=
  match slot.public_key with
  | none     => some l
  | some key => if key ∈ l.keys then some { l with keys := l.keys.erase key } else none

def remove (l : Logic K) (slot : SlotImp K) : Option (Logic K) := do
  let l := { l with slots := l.slots.erase slot.remote_endpoint }
  let l ← remove.eraseKey l slot
  let address := slot.remote_endpoint.address
  guard (address ∈ l.connectedAddresses)
  return { l with
    connectedAddresses := l.connectedAddresses.erase address
    counts := l.counts.remove slot }

def on_closed.markFailure (l : Logic K) (slot : SlotImp K) (now : Nat) : Option (Logic K) :=
  if slot.fixed && !slot.inbound && slot.state ≠ .active then
    l.markFixed slot.remote_endpoint (·.failure now)
  else some l

def on_closed (l : Logic K) (remote_endpoint : Endpoint) (now : Nat) : Option (Logic K) := do
  let slot ← l.slots.find? remote_endpoint
  let l ← l.remove slot
  on_closed.markFailure l slot now

-- The calls on the logic. A call on a slot names the remote endpoint it has in the table.
inductive Call (K : Type) where
  | new_inbound_slot (local_endpoint remote_endpoint : Endpoint)
  | new_outbound_slot (remote_endpoint : Endpoint)
  | onConnected (slot local_endpoint : Endpoint)
  | activate (slot : Endpoint) (key : K) (reserved : Bool) (now : Nat)
  | on_closed (slot : Endpoint) (now : Nat)

def exec (l : Logic K) : Call K → Option (Logic K)
  | .new_inbound_slot loc remote => some (l.new_inbound_slot loc remote).2
  | .new_outbound_slot remote => some (l.new_outbound_slot remote).2
  | .onConnected slot loc => (l.onConnected slot loc).map (·.2)
  | .activate slot key reserved now => (l.activate slot key reserved now).map (·.2)
  | .on_closed slot now => l.on_closed slot now

-- The states that are reached by calls that meet a condition and whose assertions hold.
inductive Reachable (ok : Logic K → Call K → Prop) (c : Config) : Logic K → Prop
  | init (fixed : HashMap Endpoint Fixed) : Reachable ok c (init c fixed)
  | step {l l' : Logic K} (call : Call K) :
    Reachable ok c l → ok l call → exec l call = some l' → Reachable ok c l'

-- The remote endpoint of an inbound connection is not already present.
def FreshInbound (l : Logic K) : Call K → Prop
  | .new_inbound_slot _ remote => l.slots.find? remote = none
  | _ => True

-- The number of inbound slots whose remote address is the given one.
def inboundCount (l : Logic K) (address : Address) : Nat :=
  l.slots.values.countP fun s => s.inbound ∧ s.remote_endpoint.address = address

-- An inbound connection from a public address is not attempted while there are exactly as many
-- connections with this address as the limit, all of them inbound.
def NotAtIpLimit (l : Logic K) : Call K → Prop
  | .new_inbound_slot _ remote =>
    remote.is_public →
      ¬((l.connectedAddresses.count remote.address : Int) = l.config.ipLimit ∧
        (l.inboundCount remote.address : Int) = l.config.ipLimit)
  | _ => True

end Logic

-- Each counter is the tally of the slots that it stands for.
structure Counts.Tallies {K : Type} (c : Counts) (slots : Multiset (SlotImp K)) : Prop where
  attempts : c.attempts = slots.countP fun s => s.state = .connect ∨ s.state = .connected
  active : c.active = slots.countP fun s => s.state = .active
  in_active : c.in_active =
    slots.countP fun s => s.state = .active ∧ !s.fixed ∧ !s.reserved ∧ s.inbound
  out_active : c.out_active =
    slots.countP fun s => s.state = .active ∧ !s.fixed ∧ !s.reserved ∧ !s.inbound
  fixed : c.fixed = slots.countP fun s => s.fixed
  fixed_active : c.fixed_active = slots.countP fun s => s.state = .active ∧ s.fixed
  reserved : c.reserved = slots.countP fun s => s.reserved
  acceptCount : c.acceptCount = slots.countP fun s => s.state = .accept
  closingCount : c.closingCount = slots.countP fun s => s.state = .closing

-- The bookkeeping of the slots: the counts are tallies, the set of keys holds the keys of the active
-- slots, no two of which are equal, the connected addresses are those of the slots, and the slots
-- that are neither fixed nor reserved are within what is configured.
structure Logic.Exact {K : Type} [DecidableEq K] (l : Logic K) (c : Config) : Prop where
  counts    : l.counts.Tallies l.slots.values
  keys      : (l.slots.values.filter (·.state = .active)).map (·.public_key) = l.keys.val.map some
  addresses : l.connectedAddresses = l.slots.values.map (·.remote_endpoint.address)
  inbound   : l.slots.values.countP
    (fun s => s.state = .active ∧ !s.fixed ∧ !s.reserved ∧ s.inbound) ≤ c.inPeers
  outbound  : l.slots.values.countP
    (fun s => s.state = .active ∧ !s.fixed ∧ !s.reserved ∧ !s.inbound) ≤ c.outPeers

end PeerFinder
