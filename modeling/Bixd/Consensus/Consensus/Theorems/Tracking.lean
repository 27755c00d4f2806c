import Bixd.Consensus.Consensus.Run
import Bixd.Consensus.Consensus.Theorems.Disputes

open HashMap Inv

namespace Consensus

variable {τ : Traits}

-- The known sets are stored under their ids and the positions under their nodes. If we have a
-- position, its set is known and the disputes are tracked.
structure Inv (peers : Peers τ) (acquired : Sets τ) (result : Option (Result τ)) : Prop where
  sets   : ∀ {i set}, acquired.find? i = some set → τ.setID set = i
  nodes  : ∀ {n p}, peers.find? n = some p → p.nodeID = n
  named  : ∀ {r}, result = some r → r.position.position = τ.setID r.txns
  own    : ∀ {r}, result = some r → ∃ set, acquired.find? r.position.position = some set
  tracks : ∀ {r}, result = some r → Tracks peers acquired (fun _ => True) (fun _ => True)
             r.txns r.disputes r.compares

abbrev Tracking {A : Type} (s : Consensus τ A) : Prop :=
  Inv s.currPeerPositions s.acquired s.result

variable {peers : Peers τ} {acquired : Sets τ} {result : Option (Result τ)} {r r' : Result τ}

namespace Inv

theorem of_none (hs : ∀ {i set}, acquired.find? i = some set → τ.setID set = i)
    (hn : ∀ {n p}, peers.find? n = some p → p.nodeID = n) : Inv peers acquired none where
  sets := hs
  nodes := hn
  named := by simp
  own := by simp
  tracks := by simp

theorem empty : Inv (∅ : Peers τ) ∅ none :=
  of_none (by simp) (by simp)

theorem of_some (hs : ∀ {i set}, acquired.find? i = some set → τ.setID set = i)
    (hn : ∀ {n p}, peers.find? n = some p → p.nodeID = n)
    (hp : r.position.position = τ.setID r.txns)
    (ho : ∃ set, acquired.find? r.position.position = some set)
    (ht : Tracks peers acquired (fun _ => True) (fun _ => True) r.txns r.disputes r.compares) :
    Inv peers acquired (some r) where
  sets := hs
  nodes := hn
  named h := Option.some.inj h ▸ hp
  own h := Option.some.inj h ▸ ho
  tracks h := Option.some.inj h ▸ ht

theorem of_result (h : Inv peers acquired (some r)) (ht : r'.txns = r.txns)
    (hp : r'.position.position = r.position.position) (hd : r'.disputes = r.disputes)
    (hc : r'.compares = r.compares) : Inv peers acquired (some r') := by
  apply of_some h.sets h.nodes
  · rw [hp, ht, h.named rfl]
  · rw [hp]
    exact h.own rfl
  · rw [ht, hd, hc]
    exact h.tracks rfl

section

variable (h : Inv peers acquired result)

include h

theorem sets_insert (set : τ.TxSet) (hs : (acquired.insert (τ.setID set) set).find? i = some set') :
    τ.setID set' = i := by
  rw [find?_insert] at hs
  split at hs
  case isTrue he =>
    cases hs
    exact he.symm
  case isFalse => exact h.sets hs

theorem nodes_insert (p : Proposal τ) (hq : (peers.insert p.nodeID p).find? n = some q) :
    q.nodeID = n := by
  rw [find?_insert] at hq
  split at hq
  case isTrue he =>
    cases hq
    exact he.symm
  case isFalse => exact h.nodes hq

theorem nodes_erase (hq : (peers.erase n).find? m = some q) : q.nodeID = m := by
  rw [find?_erase] at hq
  split at hq
  case isTrue => contradiction
  case isFalse => exact h.nodes hq

theorem unVotes (n : τ.NodeID) :
    Inv (peers.erase n) acquired
      (result.map fun r => { r with disputes := r.disputes.mapVal fun d => d.unVote n }) := by
  match result with
  | none => exact of_none h.sets h.nodes_erase
  | some r =>
    exact of_some h.sets h.nodes_erase (h.named (r := r) rfl) (h.own (r := r) rfl)
      ((h.tracks rfl).unVotes n)

theorem clear : Inv ∅ acquired (result.map Result.clear) := by
  match result with
  | none => exact of_none h.sets (by simp)
  | some r =>
    exact of_some h.sets (by simp) (h.named (r := r) rfl) (h.own (r := r) rfl) Tracks.empty_peers

end

end Inv

variable {A : Type} [Adaptor τ A] {s : Consensus τ A}

theorem Inv.arrive (h : Inv s.currPeerPositions s.acquired result) (hr : s.result = some r)
    (hn : r.position.position = τ.setID r.txns) (set : τ.TxSet)
    (ho : ∃ own, (s.acquired.insert (τ.setID set) set).find? r.position.position = some own)
    (ht : Tracks s.currPeerPositions s.acquired (fun _ => True) (fun _ => True)
      r.txns r.disputes r.compares) :
    let s₁ := { s with acquired := s.acquired.insert (τ.setID set) set }
    Tracking (s₁.askPeers.1.foldl (fun s e =>
      if e.2.position = τ.setID set then s.updateDisputes e.1 set else s) s₁.askPeers.2) := by
  intro s₁
  obtain ⟨⟨a, ha⟩, hes, hall⟩ := askPeers_spec s₁
  have hs : s₁.acquired.find? (τ.setID set) = some set := by simp [s₁, find?_insert]
  generalize s₁.askPeers = q at ha hes hall ⊢
  obtain ⟨es, s'⟩ := q
  obtain rfl : s' = { s₁ with adaptor := a } := ha
  obtain ⟨ds, cs, ⟨a', hd⟩, ht'⟩ := Tracks.foldl_updateDisputes (s := { s₁ with adaptor := a })
    hr (ht.insert_set (τ.setID set) set) hs rfl hes
  -- a peer either proposes the set, and voted in the loop, or is not concerned
  have hm : ∀ {n p}, s.currPeerPositions.find? n = some p →
      (True ∧ ∀ q, s.currPeerPositions.find? n = some q → q.position ≠ τ.setID set) ∨
      ∃ e ∈ es, e.1 = n ∧ e.2.position = τ.setID set := by
    intro n p hp
    by_cases he : p.position = τ.setID set
    case neg =>
      refine .inl ⟨trivial, fun q hq => ?_⟩
      obtain rfl : p = q := by simpa [hp] using hq
      exact he
    case pos =>
      obtain ⟨e, hmem, hen⟩ := List.mem_map.mp (hall hp)
      have hp' := hes e hmem
      rw [hen, hp] at hp'
      exact .inr ⟨e, hmem, hen, Option.some.inj hp' ▸ he⟩
  rw [hd]
  exact of_some (h.sets_insert set) h.nodes hn ho
    (ht'.mono (fun _ hp _ => hm hp) fun _ hp _ => hm hp)

section

variable (h : Tracking s)

include h

theorem Inv.gotTxSet (now : Nat) (set : τ.TxSet) : Tracking (s.gotTxSet now set) := by
  unfold Consensus.gotTxSet
  split
  case isTrue => exact h
  dsimp only
  split
  case h_1 => exact h
  case h_2 hset =>
    split
    case h_1 hr =>
      rw [hr]
      exact of_none (h.sets_insert set) h.nodes
    case h_2 r hr =>
      refine arrive (s := { s with now }) h hr (h.named hr) set ?_ (h.tracks hr)
      obtain ⟨own, ho⟩ := h.own hr
      refine ⟨own, ?_⟩
      rw [find?_insert, if_neg, ho]
      intro he
      simp [he, hset] at ho

theorem Inv.newPosition (p : Proposal τ) : Tracking (s.newPosition p) := by
  -- all positions but the new one are accounted for
  have hn : ∀ {n q}, (s.currPeerPositions.insert p.nodeID p).find? n = some q → q.nodeID = n :=
    h.nodes_insert p
  have ht : ∀ {r}, s.result = some r → Tracks (s.currPeerPositions.insert p.nodeID p) s.acquired
      (fun m => True ∧ m ≠ p.nodeID) (fun m => True ∧ m ≠ p.nodeID)
      r.txns r.disputes r.compares := fun hr => (h.tracks hr).insert_peer p.nodeID p
  unfold Consensus.newPosition
  dsimp only
  split
  case h_1 hset =>
    have hset : s.acquired.find? p.position = none := hset
    -- the new position has no known set yet
    have hm : ∀ {n q set}, True → (s.currPeerPositions.insert p.nodeID p).find? n = some q →
        s.acquired.find? q.position = some set → True ∧ n ≠ p.nodeID := by
      intro n q set _ hq hs
      refine ⟨trivial, fun he => ?_⟩
      simp only [he, find?_insert, if_true, Option.some.injEq] at hq
      simp [← hq, hset] at hs
    have h₁ : Inv (s.currPeerPositions.insert p.nodeID p) s.acquired s.result :=
      ⟨h.sets, hn, h.named, h.own, fun hr => (ht hr).mono hm hm⟩
    split
    case h_1 set _ he =>
      obtain rfl := congrArg Prod.snd he
      exact gotTxSet h₁ _ set
    case h_2 he =>
      obtain rfl := congrArg Prod.snd he
      exact h₁
  case h_2 set hset =>
    split
    case h_1 r hr =>
      have hp : (s.currPeerPositions.insert p.nodeID p).find? p.nodeID = some p := by
        simp [find?_insert]
      obtain ⟨ds, cs, ⟨a, hd⟩, ht⟩ := Tracks.updateDisputes
        (s := s.recordPosition p) hr (ht hr) hp hset (h.sets hset)
      rw [hd]
      have hm : ∀ {n q set}, True → (s.currPeerPositions.insert p.nodeID p).find? n = some q →
          s.acquired.find? q.position = some set → (True ∧ n ≠ p.nodeID) ∨ n = p.nodeID := by
        intro n _ _ _ _ _
        by_cases he : n = p.nodeID
        case pos => exact .inr he
        case neg => exact .inl ⟨trivial, he⟩
      exact of_some h.sets hn (h.named (r := r) hr) (h.own (r := r) hr) (ht.mono hm hm)
    case h_2 hr =>
      unfold Tracking
      rw [hr]
      exact of_none h.sets hn

theorem Inv.peerProposalInternal (now : Nat) (p : Proposal τ) :
    Tracking (s.peerProposalInternal now p).2 := by
  unfold Consensus.peerProposalInternal
  split
  case isTrue => exact h
  dsimp only
  split_ifs
  · exact h
  · exact h
  · exact h
  · exact h.unVotes p.nodeID
  · exact newPosition (s := { s with now }) h p

theorem Inv.playback (p : Proposal τ) : Tracking (s.playback p) := by
  have hp := h.peerProposalInternal s.now p
  unfold Consensus.playback
  split
  case isTrue =>
    generalize s.peerProposalInternal s.now p = q at hp
    match q with
    | (true, s') => exact hp
    | (false, s') => exact hp
  case isFalse => exact h

theorem Inv.playbackProposals : Tracking s.playbackProposals := by
  have hps : ∀ {s : Consensus τ A} (ps : List (Proposal τ)), Tracking s →
      Tracking (ps.foldl Consensus.playback s) := by
    intro s ps h
    induction ps generalizing s
    case nil => exact h
    case cons p ps ih => exact ih (h.playback p)
  have hes : ∀ {s : Consensus τ A} (es : List (τ.NodeID × List (Proposal τ))), Tracking s →
      Tracking (es.foldl (fun s e => e.2.foldl Consensus.playback s) s) := by
    intro s es h
    induction es generalizing s
    case nil => exact h
    case cons e es ih => exact ih (hps e.2 h)
  exact hes _ h

end

theorem Tracks.foldl_compareWith {compared : τ.NodeID → Prop} (hr : s.result = some r)
    (hs : ∀ {i set}, s.acquired.find? i = some set → τ.setID set = i)
    (h : Tracks s.currPeerPositions s.acquired (fun _ => True) compared r.txns r.disputes
      r.compares)
    {es : List (τ.NodeID × Proposal τ)}
    (hes : ∀ e ∈ es, s.currPeerPositions.find? e.1 = some e.2) :
    ∃ disputes compares, Disputed s r disputes compares (es.foldl compareWith s) ∧
      Tracks s.currPeerPositions s.acquired (fun _ => True)
        (fun m => compared m ∨ m ∈ es.map Prod.fst) r.txns disputes compares := by
  induction es generalizing s r compared
  case nil =>
    refine ⟨r.disputes, r.compares, ⟨s.adaptor, by simp [← hr]⟩, h.mono (fun hm _ _ => hm) ?_⟩
    exact fun hm _ _ => by simpa using hm
  case cons e es ih =>
    have hp := hes e (by simp)
    have hes' : ∀ e ∈ es, s.currPeerPositions.find? e.1 = some e.2 :=
      fun d hd => hes d (by simp [hd])
    rw [List.foldl_cons, compareWith]
    cases hset : s.acquired.find? e.2.position with
    | none =>
      obtain ⟨ds, cs, hd, ht⟩ := ih hr hs h hes'
      refine ⟨ds, cs, hd, ht.mono (fun hm _ _ => hm) fun {m q set} hm hq hq' => ?_⟩
      have hne : m ≠ e.1 := by
        intro he
        rw [he, hp] at hq
        simp [← Option.some.inj hq, hset] at hq'
      simpa [hne] using hm
    | some set =>
      obtain ⟨ds, cs, ⟨a, hd⟩, ht, hc⟩ := h.createDisputes hr set
      obtain ⟨ds', cs', ⟨a', hd'⟩, ht'⟩ := ih
        (s := { s with adaptor := a, result := some { r with disputes := ds, compares := cs } })
        (r := { r with disputes := ds, compares := cs }) rfl hs
        (ht.add_compared hp (hs hset ▸ hc)) hes'
      dsimp only
      rw [hd]
      refine ⟨ds', cs', ⟨a', hd'⟩, ht'.mono (fun hm _ _ => hm) ?_⟩
      exact fun hm _ _ => by simpa [or_assoc] using hm

theorem takePosition_spec (hs : ∀ {i set}, s.acquired.find? i = some set → τ.setID set = i) :
    s.takePosition.currPeerPositions = s.currPeerPositions ∧
    (∀ {i set}, s.takePosition.acquired.find? i = some set → τ.setID set = i) ∧
    ∃ r, s.takePosition.result = some r ∧ r.disputes = ∅ ∧ r.compares = [] ∧
      r.position.position = τ.setID r.txns ∧
      ∃ set, s.takePosition.acquired.find? r.position.position = some set := by
  have hp : (Adaptor.onClose s.adaptor s.previousLedger s.now s.mode).1.2.position = _ :=
    Adaptor.onClose_position
  unfold takePosition ask
  dsimp only
  generalize Adaptor.onClose s.adaptor s.previousLedger s.now s.mode = q at hp ⊢
  have ⟨⟨txns, position⟩, a⟩ := q
  dsimp only at hp ⊢
  split
  case h_1 set hset => exact ⟨rfl, hs, _, rfl, rfl, rfl, hp, set, hp ▸ hset⟩
  refine ⟨rfl, fun {i set} hset => ?_, _, rfl, rfl, rfl, hp, txns, ?_⟩
  · exact Inv.sets_insert (Inv.of_none hs (by simp) : Inv ∅ s.acquired none) txns hset
  · simp [notify, hp, find?_insert]

theorem proposePosition_eq (s : Consensus τ A) :
    ∃ a, s.proposePosition = { s with adaptor := a } := by
  unfold proposePosition
  split
  case h_1 => split <;> exact ⟨_, rfl⟩
  case h_2 => exact ⟨_, rfl⟩

theorem Inv.closeLedger (h : Tracking s) : Tracking s.closeLedger := by
  unfold Consensus.closeLedger
  have ⟨hps, hs, r, hr, hd, hc, hp, ho⟩ := takePosition_spec (s := { s with
    phase := .establish, rawCloseTimes := { s.rawCloseTimes with self := s.now } }) h.sets
  dsimp only
  generalize (takePosition _ : Consensus τ A) = s₁ at hps hs hr ho ⊢
  have ⟨a, ha⟩ := proposePosition_eq s₁
  rw [ha]
  have ⟨⟨b, hb⟩, hes, hall⟩ := askPeers_spec { s₁ with adaptor := a }
  generalize (askPeers _ : _ × Consensus τ A) = q at hb hes hall ⊢
  have ⟨es, s₂⟩ := q
  obtain rfl : s₂ = { s₁ with adaptor := b } := hb
  have ht : Tracks s₁.currPeerPositions s₁.acquired (fun _ => True) (fun _ => False) r.txns
      r.disputes r.compares := by rw [hd, hc]; exact .empty
  have ⟨ds, cs, ⟨c, hc⟩, ht⟩ := Tracks.foldl_compareWith (s := { s₁ with adaptor := b }) hr hs
    ht hes
  rw [hc]
  refine of_some hs ?_ hp ho (ht.mono (fun hm _ _ => hm) fun _ hq _ => .inr (hall hq))
  rw [hps]
  exact h.nodes

theorem Inv.phaseOpen (h : Tracking s) : Tracking s.phaseOpen := by
  unfold Consensus.phaseOpen
  dsimp only
  split
  case isTrue => exact closeLedger h
  case isFalse => exact h

omit [Adaptor τ A] in

theorem Inv.checkFresh {q : TimeVotes × Consensus τ A} (h : Tracking q.2) (cutoff : Nat)
    {e : τ.NodeID × Proposal τ} (he : e.2.nodeID = e.1) : Tracking (checkFresh cutoff q e).2 := by
  unfold Consensus.checkFresh
  dsimp only
  split
  case isTrue => exact he ▸ h.unVotes e.2.nodeID
  case isFalse => exact h

theorem Inv.removeStale (h : Tracking s) : Tracking s.removeStale.2 := by
  have hf : ∀ {es : List (τ.NodeID × Proposal τ)} {q : TimeVotes × Consensus τ A} (cutoff : Nat),
      Tracking q.2 → (∀ e ∈ es, e.2.nodeID = e.1) →
      Tracking (es.foldl (Consensus.checkFresh cutoff) q).2 := by
    intro es q cutoff h hes
    induction es generalizing q
    case nil => exact h
    case cons e es ih =>
      exact ih (h.checkFresh cutoff (hes e (by simp))) fun d hd => hes d (by simp [hd])
  have ⟨_, hes, _⟩ := askPeers_spec s
  exact hf (q := ([], s.askPeers.2)) _ h fun e he => h.nodes (hes e he)

-- Our votes and our set change together. Until the new set is our position, the position is still
-- the one of the old set.
theorem updateVotes_spec (hr : s.result = some r) (h : Tracking s) :
    ∃ a disputes, (s.updateVotes r).2 =
        { s with adaptor := a, result := some { r with disputes } } ∧
      Tracks s.currPeerPositions s.acquired (fun _ => True) (fun _ => True)
        ((s.updateVotes r).1.getD r.txns) disputes r.compares := by
  have ht := h.tracks hr
  exact ⟨_, _, rfl, Tracks.updateVotes (q := (r.disputes, none)) ht _ _ _ _⟩

theorem Inv.changePosition (h : Inv s.currPeerPositions s.acquired result) {set : τ.TxSet}
    (ht : Tracks s.currPeerPositions s.acquired (fun _ => True)
      (fun _ => True) set r.disputes r.compares) :
    Tracking (s.changePosition r set closeTime) := by
  have hpropose : ∀ {s : Consensus τ A} (b : Bool), Tracking s →
      Tracking (if b then s else s.proposePosition) := by
    intro s b h
    have ⟨a, ha⟩ := proposePosition_eq s
    cases b
    case true => exact h
    case false => simp only [Bool.false_eq_true, if_false, ha]; exact h
  apply hpropose
  dsimp only
  split
  case h_1 own hown => exact of_some h.sets h.nodes rfl ⟨own, hown⟩ ht
  case h_2 hnone =>
    have ho : (s.acquired.insert (τ.setID set) set).find? (τ.setID set) = some set := by
      simp [find?_insert]
    split
    case isTrue => exact arrive (s := { s with result := some _ }) h rfl rfl set ⟨set, ho⟩ ht
    case isFalse =>
      exact arrive (s := { s with adaptor := _, result := some _ }) h rfl rfl set ⟨set, ho⟩ ht

theorem Inv.updateOurPositions (h : Tracking s) : Tracking s.updateOurPositions := by
  have h₁ := h.removeStale
  unfold Consensus.updateOurPositions
  generalize s.removeStale = q at h₁ ⊢
  have ⟨votes, s₁⟩ := q
  dsimp only at h₁ ⊢
  split
  case h_1 => exact h₁
  case h_2 r hr =>
    have ⟨a, ds, hs, ht⟩ := updateVotes_spec hr h₁
    generalize s₁.updateVotes r = q at hs ht ⊢
    have ⟨newSet, s₂⟩ := q
    obtain rfl := hs
    match newSet with
    | some set =>
      exact changePosition (s := { s₁ with adaptor := a, haveCloseTimeConsensus := _ })
        (r := { r with disputes := ds }) h₁ ht
    | none =>
      dsimp only
      split
      case isTrue =>
        exact changePosition (s := { s₁ with adaptor := a, haveCloseTimeConsensus := _ })
          (r := { r with disputes := ds }) h₁ ht
      case isFalse => exact of_some h₁.sets h₁.nodes (h₁.named (r := r) hr) (h₁.own (r := r) hr) ht

theorem shouldPause_eq (s : Consensus τ A) (roundTime : Int) :
    ∃ a, (s.shouldPause roundTime).2 = { s with adaptor := a } := by
  unfold shouldPause ask
  dsimp only
  split <;> exact ⟨_, rfl⟩

theorem Inv.checkAccept (h : Tracking s) : Tracking s.checkAccept := by
  unfold Consensus.checkAccept
  split
  case h_1 => exact h
  case h_2 r hr =>
    have ⟨a, ha⟩ := shouldPause_eq s r.roundTime.read
    generalize s.shouldPause r.roundTime.read = q at ha ⊢
    have ⟨pause, s₁⟩ := q
    obtain rfl : s₁ = { s with adaptor := a } := ha
    cases pause
    case true => exact h
    have hs : Inv s.currPeerPositions s.acquired (some r) := hr ▸ h
    have hc : Tracking (haveConsensus { s with adaptor := a } r).2 := hs.of_result rfl rfl rfl rfl
    dsimp only
    generalize (haveConsensus _ r : _ × Consensus τ A) = q at hc ⊢
    have ⟨yes, s₂⟩ := q
    cases yes
    case false => exact hc
    dsimp only
    split
    case h_1 => exact hc
    case h_2 => split <;> exact hc

theorem Inv.phaseEstablish (h : Tracking s) : Tracking s.phaseEstablish := by
  unfold Consensus.phaseEstablish
  split
  case h_1 => exact h
  case h_2 r hr =>
    have hs : Inv s.currPeerPositions s.acquired (some r) := hr ▸ h
    have h₁ : ∀ t n, Inv s.currPeerPositions s.acquired
        (some { r with roundTime := t, proposers := n }) :=
      fun _ _ => hs.of_result rfl rfl rfl rfl
    dsimp only
    split
    case isTrue => exact h₁ _ _
    case isFalse => exact checkAccept (updateOurPositions (h₁ _ _))

theorem Inv.leaveConsensus (h : Tracking s) : Tracking s.leaveConsensus := by
  unfold Consensus.leaveConsensus
  split
  case isFalse => exact h
  split
  case h_2 => exact h
  case h_1 r hr =>
    have hs : Inv s.currPeerPositions s.acquired (some r) := hr ▸ h
    split
    case isTrue => exact h
    case isFalse => exact hs.of_result rfl rfl rfl rfl

theorem Inv.switchLedgerID (h : Tracking s) (i : τ.LedgerID) : Tracking (s.switchLedgerID i) := by
  unfold Consensus.switchLedgerID
  split
  case isTrue => exact playbackProposals h.clear
  case isFalse => exact h

section Timer

section

variable {s' : Consensus τ A} {now : Nat} {timer : Consensus τ A → Nat → Option (Consensus τ A)}
  (ht : ∀ {s s' now}, Tracking s → timer s now = some s' → Tracking s')

include ht

theorem startRoundInternal_tracking {now : Nat} {mode : ConsensusMode}
    (hs : s.startRoundInternal timer now i l mode = some s') : Tracking s' := by
  unfold startRoundInternal at hs
  dsimp only at hs
  split at hs
  case isTrue => exact ht (Inv.playbackProposals Inv.empty) hs
  case isFalse =>
    cases hs
    exact Inv.playbackProposals Inv.empty

theorem Inv.handleWrongLedger (h : Tracking s) {i : τ.LedgerID}
    (hs : s.handleWrongLedger timer i = some s') : Tracking s' := by
  have h₁ := h.leaveConsensus.switchLedgerID i
  unfold Consensus.handleWrongLedger at hs
  dsimp only at hs
  generalize s.leaveConsensus.switchLedgerID i = s₁ at h₁ hs
  split at hs
  case isTrue =>
    cases hs
    exact h₁
  split at hs
  case h_1 => exact startRoundInternal_tracking ht hs
  case h_2 he =>
    cases hs
    obtain rfl := congrArg Prod.snd he
    exact h₁

theorem Inv.checkLedger (h : Tracking s) (hs : s.checkLedger timer = some s') : Tracking s' := by
  unfold Consensus.checkLedger at hs
  dsimp only at hs
  split at hs
  case isTrue =>
    refine handleWrongLedger ht ?_ hs
    exact h
  case isFalse =>
    cases hs
    exact h

end

end Timer

theorem Inv.runPhase (h : Tracking s) : Tracking s.runPhase := by
  unfold Consensus.runPhase
  split
  case h_1 => exact h.phaseOpen
  case h_2 => exact h.phaseEstablish
  case h_3 => exact h

theorem Inv.timerEntry {now : Nat} (h : Tracking s)
    (hs : timerEntry depth s now = some s') : Tracking s' := by
  induction depth generalizing s s' now
  case zero => simp [timerEntry] at hs
  case succ depth ih =>
    unfold timerEntry at hs
    split at hs
    case isTrue =>
      cases hs
      exact h
    have ⟨s₁, hs₁, he⟩ := Option.map_eq_some_iff.mp hs
    have h₁ : Tracking s₁ := checkLedger ih (s := { s with now }) h hs₁
    exact he ▸ h₁.runPhase

theorem startRound_tracking {depth now : Nat} {untrusted : List τ.NodeID}
    (hs : s.startRound depth now i l untrusted proposing = some s') : Tracking s' := by
  have ht : ∀ {s s' : Consensus τ A} {now : Nat}, Tracking s →
      timerEntry depth s now = some s' → Tracking s' := fun h hs => h.timerEntry hs
  unfold startRound at hs
  dsimp only at hs
  split at hs
  case isTrue =>
    split at hs
    case h_1 => exact startRoundInternal_tracking ht hs
    case h_2 => exact startRoundInternal_tracking ht hs
  case isFalse => exact startRoundInternal_tracking ht hs

theorem Inv.simulate (h : Tracking s) (now : Nat) (delay : Option Int) :
    Tracking (s.simulate now delay) := by
  have h₁ := closeLedger (s := { s with now }) h
  unfold Consensus.simulate
  dsimp only
  split
  case h_1 => exact h₁
  case h_2 r hr =>
    rw [Tracking, hr] at h₁
    exact h₁.of_result rfl rfl rfl rfl

theorem Inv.exec (h : Tracking s) (hs : s.exec depth op = some s') : Tracking s' := by
  cases op
  case startRound => exact startRound_tracking hs
  case peerProposal now p =>
    cases hs
    have hp := fun recent => peerProposalInternal
      (s := { s with recentPeerPositions := recent }) h now p
    exact hp _
  case gotTxSet now set =>
    cases hs
    exact h.gotTxSet now set
  case timerEntry => exact h.timerEntry hs
  case simulate now delay =>
    cases hs
    exact h.simulate now delay

theorem Reachable.tracking (h : Reachable s) : Tracking s := by
  induction h
  case init => exact Inv.empty
  case step s s' a depth op _ hs ih => exact Inv.exec (s := { s with adaptor := a }) ih hs

end Consensus
