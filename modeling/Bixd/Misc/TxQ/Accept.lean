import Bixd.Misc.TxQ.Queue

-- How the transactions are moved from the queue to the new open ledger.

namespace TxQ

variable {A T V ρ : Type} [LinearOrder A] [DecidableEq ρ]

-- An attempt to apply a queued transaction, with the queue and the view that it was made from.
structure Attempt (A T V ρ : Type) [LinearOrder A] where
  queue    : TxQ A T ρ
  view     : V
  tx       : A × SeqProxy
  required : FeeLevel64

-- The variables of `accept`, and the attempts so far, the latest first.
structure Accepting (A T V ρ : Type) [LinearOrder A] where
  queue : TxQ A T ρ
  view : V
  candidate : Option (A × SeqProxy)
  ledgerChanged : Bool
  attempts : List (Attempt A T V ρ)

inductive Ending
  | finished
  | stopped
  | thrown
deriving DecidableEq

namespace Accepting

variable (env : Env A T V ρ) (s : Accepting A T V ρ)

-- The result of an attempt allows for another one.
def retry (account : TxQAccount A T ρ) (ter : TER) (c : MaybeTx A T ρ) : MaybeTx A T ρ :=
  { c with
    retriesRemaining :=
      if account.retryPenalty ∧ c.retriesRemaining > 2 then 1 else c.retriesRemaining - 1
    lastResult       := some ter }

-- What is done about a transaction that stays in the queue. If the queue is nearly full, one of
-- the transactions of an account with a penalty is dropped.
def keep (q : TxQ A T ρ) (account : TxQAccount A T ρ) (r : A × SeqProxy) :
    TxQ A T ρ × Option (A × SeqProxy) :=
  if account.dropPenalty ∧ account.transactions.size > 1 ∧ q.isFull 95 then
    if r.2.isTicket then
      q.eraseAndAdvance r
    else
      let last := (account.transactions.toList.getLast?.map Prod.fst).map fun s => (r.1, s)
      let q' := last.elim q fun last => if last ≠ r then q.erase last else q
      (q', q'.next r)
  else
    (q, q.next r)

-- The queue and the next candidate after an attempt with the result `ter`.
def settle (q : TxQ A T ρ) (account : TxQAccount A T ρ) (c : MaybeTx A T ρ) (r : A × SeqProxy)
    (ter : TER) (didApply : Bool) : TxQ A T ρ × Option (A × SeqProxy) :=
  if didApply then
    q.eraseAndAdvance r
  else if isTefFailure ter ∨ isTemMalformed ter ∨ c.retriesRemaining ≤ 0 then
    let penalty := fun a : TxQAccount A T ρ =>
      if c.retriesRemaining ≤ 0 then { a with retryPenalty := true }
      else { a with dropPenalty := true }
    (q.modifyAccount r.1 penalty).eraseAndAdvance r
  else
    keep (q.modify r (retry account ter)) account r

def attempt (account : TxQAccount A T ρ) (c : MaybeTx A T ρ) (r : A × SeqProxy)
    (required : FeeLevel64) : Accepting A T V ρ :=
  let (c', ter, view') := c.apply env s.view
  let (queue, candidate) :=
    settle (s.queue.modify r fun _ => c') account c r ter view'.isSome
  { queue := queue
    view := view'.getD s.view
    candidate := candidate
    ledgerChanged := s.ledgerChanged || view'.isSome
    attempts := ⟨s.queue, s.view, r, required⟩ :: s.attempts }

-- The loop of `accept`. The fuel is there for the recursion only; a look-up that fails leaves it
-- without a result.
def loop : Nat → Accepting A T V ρ → Option (Accepting A T V ρ × Ending)
  | 0, _ => none
  | fuel + 1, s =>
    match s.candidate with
    | none => some (s, .finished)
    | some r => do
      let account ← s.queue.byAccount.find? r.1
      let c ← account.transactions.find? r.2
      let first ← account.transactions.toList.head?
      -- Sequence-based transactions are processed in the order of their sequences.
      if r.2.isSeq ∧ first.1 < r.2 then
        loop fuel { s with candidate := s.queue.next r }
      else
        match s.queue.getRequiredFeeLevel env s.view tapNONE with
        | none => some (s, .thrown)
        | some required =>
          if required ≤ c.feeLevel then
            loop fuel (s.attempt env account c r required)
          else
            some (s, .stopped)

end Accepting

-- As many steps as the loop can make from a queue of `n` transactions.
def acceptSteps (n : Nat) : Nat :=
  n * (n + 1) + n

def accept (env : Env A T V ρ) (q : TxQ A T ρ) (view : V) :
    Option (Accepting A T V ρ × Ending) :=
  Accepting.loop env (acceptSteps q.byFee.length + 1)
    ⟨q, view, q.byFee.head?, false, []⟩

-- An attempt at a transaction that pays enough, and that is the first one of its account if it
-- uses a sequence.
structure Attempt.Sound (env : Env A T V ρ) (a : Attempt A T V ρ) : Prop where
  mem      : a.tx ∈ a.queue.byFee
  required : a.queue.getRequiredFeeLevel env a.view tapNONE = some a.required
  paid     : a.required ≤ a.queue.feeLevel a.tx
  first    : a.tx.2.isSeq → ∀ s, (a.tx.1, s) ∈ a.queue.byFee → a.tx.2 ≤ s

-- The candidate and all that come after it pay too little.
def Accepting.Short (env : Env A T V ρ) (s : Accepting A T V ρ) : Prop :=
  ∃ r required, s.candidate = some r ∧ r ∈ s.queue.byFee ∧
    s.queue.getRequiredFeeLevel env s.view tapNONE = some required ∧
    ∀ r' ∈ Position.from s.queue.byFee r, s.queue.feeLevel r' < required

namespace Accepting

-- A step of the loop: a transaction is passed over, or it is attempted.
inductive Step (env : Env A T V ρ) (s : Accepting A T V ρ) : Accepting A T V ρ → Prop
  | skip : s.candidate = some r → Step env s { s with candidate := s.queue.next r }
  | attempt : s.candidate = some r → s.queue.byAccount.find? r.1 = some account →
    account.transactions.find? r.2 = some c →
    Attempt.Sound env ⟨s.queue, s.view, r, required⟩ →
    Step env s (s.attempt env account c r required)

end Accepting

-- In the order of the fees, the transactions of an account come in their own order.
def InOrder (q : TxQ A T ρ) : Prop :=
  q.byFee.Pairwise fun r r' => r.1 = r'.1 → r.2 < r'.2

instance (q : TxQ A T ρ) : Decidable q.InOrder :=
  inferInstanceAs (Decidable (List.Pairwise _ _))

-- The account has no penalties.
def Unpenalised (q : TxQ A T ρ) (a : A) : Prop :=
  ∀ account, q.byAccount.find? a = some account →
    account.retryPenalty = false ∧ account.dropPenalty = false

-- A call in which every attempt at a transaction has it retried, while its account is without
-- penalties.
structure Patient (env : Env A T V ρ) (r : A × SeqProxy) (s : Accepting A T V ρ) : Prop where
  penalties : ∀ a ∈ s.attempts, a.queue.Unpenalised r.1
  retried   : ∀ a ∈ s.attempts, a.tx = r → ∀ c, a.queue.find? r = some c →
    (c.apply env a.view).2.2 = none ∧ ¬ isTefFailure (c.apply env a.view).2.1 ∧
      ¬ isTemMalformed (c.apply env a.view).2.1

-- A transaction is queued, and offered to `k` open ledgers so far. Between the calls anything may
-- happen to the rest of the queue.
inductive Offered (env : Env A T V ρ) (r : A × SeqProxy) : TxQ A T ρ → Nat → Prop
  | queued : q.find? r = some c → c.retriesRemaining = MaybeTx.retriesAllowed → Offered env r q 0
  | other : Offered env r q k → q'.find? r = q.find? r → Offered env r q' k
  | accept : Offered env r q k → Agree q → InOrder q → accept env q view = some (s, e) →
    Patient env r s →
    Offered env r s.queue (k + if r ∈ s.attempts.map Attempt.tx then 1 else 0)

end TxQ
