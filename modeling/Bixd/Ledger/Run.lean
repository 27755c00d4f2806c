import Bixd.Ledger.View

namespace ReadView

inductive Layer
  | openView (v : OpenView)
  | applyView (v : ApplyView)

def Layer.view : Layer → ReadView
  | openView v  => v.view
  | applyView v => v.view

-- A ledger and the views on top of it, the uppermost first.
structure Stack where
  ledger : Ledger
  layers : List Layer

inductive Call
  -- A new view on top.
  | openLedger (rules : Rules)
  | openView
  | applyView
  | peek (k : Keylet)
  | insert (p : SLEPtr)
  | update (p : SLEPtr)
  | erase (p : SLEPtr)
  | rawInsert (p : SLEPtr)
  | rawReplace (p : SLEPtr)
  | rawErase (p : SLEPtr)
  | rawDestroyBIXRP (fee : Int)
  | rawTxInsert (key : UInt256) (tx : TxData)
  -- The uppermost view goes away, with or without its changes.
  | apply
  | discard

namespace Stack

def view (s : Stack) : ReadView :=
  match s.layers with
  | []     => s.ledger.view
  | v :: _ => v.view

def push (s : Stack) (v : Layer) : Stack :=
  { s with layers := v :: s.layers }

-- Calls of the uppermost view, or of the ledger if there is none.
def raw (s : Stack) (f : {V : Type} → [RawView V] → V → Except String V) : Except String Stack :=
  match s.layers with
  | [] => return { s with ledger := ← f s.ledger }
  | .openView v :: rest => return { s with layers := .openView (← f v) :: rest }
  | .applyView v :: rest => return { s with layers := .applyView (← f v) :: rest }

def rawTx (s : Stack) (f : {V : Type} → [TxsRawView V] → V → Except String V) :
    Option (Except String Stack) :=
  match s.layers with
  | [] => some (return { s with ledger := ← f s.ledger })
  | .openView v :: rest => some (return { s with layers := .openView (← f v) :: rest })
  | .applyView _ :: _ => none

def edit (s : Stack) (f : ApplyView → Except String ApplyView) : Option (Except String Stack) :=
  match s.layers with
  | .applyView v :: rest => some (return { s with layers := .applyView (← f v) :: rest })
  | _ => none

def pop (s : Stack) : Option (Layer × Stack) :=
  match s.layers with
  | [] => none
  | v :: rest => some (v, { s with layers := rest })

-- There is no result if the uppermost view does not have the call.
def call (s : Stack) : Call → Option (Except String Stack)
  | .openLedger rules => some (.ok (s.push (.openView (.openLedger s.view rules))))
  | .openView => some (.ok (s.push (.openView (.make s.view))))
  | .applyView => some (.ok (s.push (.applyView ⟨s.view, {}⟩)))
  | .peek k => s.edit fun v => .ok (v.peek k).2
  | .insert p => s.edit (·.insert p)
  | .update p => s.edit (·.update p)
  | .erase p => s.edit (·.erase p)
  | .rawInsert p => some (s.raw (RawView.rawInsert · p))
  | .rawReplace p => some (s.raw (RawView.rawReplace · p))
  | .rawErase p => some (s.raw (RawView.rawErase · p))
  | .rawDestroyBIXRP fee => some (s.raw fun v => .ok (RawView.rawDestroyBIXRP v fee))
  | .rawTxInsert key tx => s.rawTx (TxsRawView.rawTxInsert · key tx)
  | .discard => s.pop.map fun (_, s) => .ok s
  | .apply => s.pop.bind fun
    | (.openView v, s) => s.rawTx v.apply
    | (.applyView v, s) => some (s.raw v.apply)

end Stack

namespace Call

-- What a call does to the contents of the views.
def spec : Call → List Contents → List Contents
  | openLedger _, c :: cs | openView, c :: cs | applyView, c :: cs => c :: c :: cs
  | insert p, c :: cs | rawInsert p, c :: cs => c.put p.key (some p.sle) :: cs
  | update p, c :: cs | rawReplace p, c :: cs => c.put p.key (some p.sle) :: cs
  | erase p, c :: cs | rawErase p, c :: cs => c.put p.key none :: cs
  | rawDestroyBIXRP fee, c :: cs => { c with drops := c.drops - fee } :: cs
  | rawTxInsert key tx, c :: cs => { c with txs := Function.update c.txs key (some tx) } :: cs
  | apply, c :: _ :: cs => c :: cs
  | discard, _ :: cs => cs
  | _, cs => cs

-- What has to hold when a call is made. For an entry that is updated or erased, the view knows
-- whether it has been obtained from it.
def Requires (s : Stack) (c : Contents) : Call → Prop
  | insert p | rawInsert p => p.key ≠ 0 ∧ c.state p.key = none
  | update p => ∃ s', s.call (update p) = some (.ok s')
  | erase p => ∃ s', s.call (erase p) = some (.ok s')
  | rawReplace p | rawErase p => (c.state p.key).isSome
  | rawTxInsert key tx => (c.txs key = none) ∧ tx.metaData.isSome
  | _ => True

-- The call made on the ledger itself.
def direct (l : Ledger) : Call → Except String Ledger
  | insert p | rawInsert p => l.rawInsert p
  | update p | rawReplace p => l.rawReplace p
  | erase p | rawErase p => l.rawErase p
  | rawDestroyBIXRP fee => .ok (l.rawDestroyBIXRP fee)
  | rawTxInsert key tx => l.rawTxInsert key tx
  | _ => .ok l

end Call

-- The calls lead from a ledger without views to `s`, whose views have the contents `cs`.
inductive Reachable (l : Ledger) : List Call → Stack → List Contents → Prop
  | init : Reachable l [] ⟨l, []⟩ [l.contents]
  | step {calls s c cs call s'} : Reachable l calls s (c :: cs) → call.Requires s c →
    s.call call = some (.ok s') → Reachable l (calls ++ [call]) s' (call.spec (c :: cs))

end ReadView
