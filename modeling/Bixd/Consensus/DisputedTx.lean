import Bixd.Consensus.ConsensusTypes

open HashMap

structure DisputedTx (T N : Type) where
  yays    : Int
  nays    : Int
  ourVote : Bool
  tx      : T
  votes   : HashMap N Bool

namespace DisputedTx

variable {T N : Type}

def init (tx : T) (ourVote : Bool) : DisputedTx T N where
  yays    := 0
  nays    := 0
  ourVote := ourVote
  tx      := tx
  votes   := ∅

-- Our vote given the votes of the peers and how far the consensus has proceeded.
def newPosition (d : DisputedTx T N) (percentTime : Int) (proposing : Bool)
    (p : ConsensusParms) : Bool :=
  if proposing then
    -- we have full weight
    let weight := (d.yays * 100 + if d.ourVote then 100 else 0).tdiv (d.nays + d.yays + 1)
    decide (toSize weight > p.neededWeight percentTime)
  else
    decide (d.yays > d.nays)

-- Returns whether our vote changed.
def updateVote (d : DisputedTx T N) (percentTime : Int) (proposing : Bool)
    (p : ConsensusParms) : Bool × DisputedTx T N :=
  if d.ourVote ∧ d.nays = 0 then (false, d)
  else if ¬d.ourVote ∧ d.yays = 0 then (false, d)
  else if d.newPosition percentTime proposing p = d.ourVote then (false, d)
  else (true, { d with ourVote := d.newPosition percentTime proposing p })

variable [DecidableEq N]

def setVote (d : DisputedTx T N) (peer : N) (votesYes : Bool) : DisputedTx T N :=
  match d.votes.find? peer with
  | none =>
    let d := { d with votes := d.votes.insert peer votesYes }
    if votesYes then { d with yays := d.yays + 1 } else { d with nays := d.nays + 1 }
  | some vote =>
    if votesYes && !vote then
      { d with
        nays  := d.nays - 1
        yays  := d.yays + 1
        votes := d.votes.insert peer true }
    else if !votesYes && vote then
      { d with
        nays  := d.nays + 1
        yays  := d.yays - 1
        votes := d.votes.insert peer false }
    else
      d

def unVote (d : DisputedTx T N) (peer : N) : DisputedTx T N :=
  match d.votes.find? peer with
  | none      => d
  | some vote =>
    let d := if vote then { d with yays := d.yays - 1 } else { d with nays := d.nays - 1 }
    { d with votes := d.votes.erase peer }

-- The counters are the numbers of votes.
structure Exact (d : DisputedTx T N) : Prop where
  yays : d.yays = d.votes.values.count true
  nays : d.nays = d.votes.values.count false

omit [DecidableEq N] in

theorem exact_init (tx : T) (ourVote : Bool) : Exact (init tx ourVote : DisputedTx T N) :=
  ⟨rfl, rfl⟩

theorem setVote_find (d : DisputedTx T N) (peer n : N) (votesYes : Bool) :
    (d.setVote peer votesYes).votes.find? n =
      if n = peer then some votesYes else d.votes.find? n := by
  unfold setVote
  split
  case h_1 => split <;> exact find?_insert ..
  case h_2 vote hv =>
    by_cases hn : n = peer
    case pos => subst hn; cases votesYes <;> cases vote <;> simp [find?_insert, hv]
    case neg => cases votesYes <;> cases vote <;> simp [find?_insert, hn]

theorem setVote_keeps (d : DisputedTx T N) (peer : N) (votesYes : Bool) :
    (d.setVote peer votesYes).tx = d.tx ∧ (d.setVote peer votesYes).ourVote = d.ourVote := by
  unfold setVote
  split
  case h_1 => split <;> exact ⟨rfl, rfl⟩
  split
  case isTrue => exact ⟨rfl, rfl⟩
  case isFalse => split <;> exact ⟨rfl, rfl⟩

theorem Exact.setVote (h : Exact d) (peer : N) (votesYes : Bool) :
    Exact (d.setVote peer votesYes) := by
  have ⟨hy, hn⟩ := h
  unfold DisputedTx.setVote
  split
  case h_1 hv =>
    rw [← values_erase_of_find?_none hv] at hy hn
    cases votesYes
    case false => exact ⟨by simpa [values_insert], by simp [values_insert, hn]⟩
    case true => exact ⟨by simp [values_insert, hy], by simpa [values_insert]⟩
  case h_2 vote hv =>
    rw [values_of_find? hv] at hy hn
    cases votesYes <;> cases vote <;> simp at hy hn ⊢
    case false.false => exact h
    case true.true => exact h
    all_goals constructor <;> simp [values_insert, hy, hn]

theorem unVote_find (d : DisputedTx T N) (peer n : N) :
    (d.unVote peer).votes.find? n = if n = peer then none else d.votes.find? n := by
  unfold unVote
  split
  case h_1 hv =>
    split
    case isTrue h => exact h ▸ hv
    case isFalse h => rfl
  case h_2 vote hv => cases vote <;> exact find?_erase ..

theorem unVote_keeps (d : DisputedTx T N) (peer : N) :
    (d.unVote peer).tx = d.tx ∧ (d.unVote peer).ourVote = d.ourVote := by
  unfold unVote
  split
  case h_1 => exact ⟨rfl, rfl⟩
  case h_2 vote _ => cases vote <;> exact ⟨rfl, rfl⟩

theorem Exact.unVote (h : Exact d) (peer : N) : Exact (d.unVote peer) := by
  have ⟨hy, hn⟩ := h
  unfold DisputedTx.unVote
  split
  case h_1 => exact h
  case h_2 vote hv =>
    rw [values_of_find? hv] at hy hn
    cases vote <;> constructor <;> simp [hy, hn]

-- What `updateVote` can do.
omit [DecidableEq N] in

theorem updateVote_cases (d : DisputedTx T N) (percentTime : Int) (proposing : Bool)
    (p : ConsensusParms) :
    d.updateVote percentTime proposing p = (false, d) ∨
    d.updateVote percentTime proposing p = (true, { d with ourVote := !d.ourVote }) := by
  unfold updateVote
  split
  case isTrue => exact .inl rfl
  split
  case isTrue => exact .inl rfl
  split
  case isTrue => exact .inl rfl
  case isFalse hn => exact .inr (by rw [Bool.eq_not_of_ne hn])

end DisputedTx
