import Bixd.Consensus.Consensus

open HashMap

namespace Consensus

variable {τ : Traits}

abbrev Peers (τ : Traits) := HashMap τ.NodeID (Proposal τ)

abbrev Sets (τ : Traits) := HashMap τ.TxSetID τ.TxSet

abbrev Disputes (τ : Traits) := HashMap τ.TxID (Dispute τ)

-- A dispute counts its votes, which are votes of current peers, agrees with our set, and has the
-- votes of those peers for which `voted` holds and whose set is known.
structure Fits (peers : Peers τ) (acquired : Sets τ) (voted : τ.NodeID → Prop) (txns : τ.TxSet)
    (t : τ.TxID) (d : Dispute τ) : Prop where
  id    : τ.txID d.tx = t
  exact : d.Exact
  peer  : ∀ {n b}, d.votes.find? n = some b → ∃ p, peers.find? n = some p
  ours  : d.ourVote = τ.exists txns t
  votes : ∀ {n p set}, voted n → peers.find? n = some p → acquired.find? p.position = some set →
            d.votes.find? n = some (τ.exists set t)

-- The disputes fit, all differences to the sets that our set was compared with are disputed, and
-- it was compared with the known sets of the peers for which `compared` holds.
structure Tracks (peers : Peers τ) (acquired : Sets τ) (voted compared : τ.NodeID → Prop)
    (txns : τ.TxSet) (disputes : Disputes τ) (compares : List τ.TxSetID) : Prop where
  fits     : ∀ {t d}, disputes.find? t = some d → Fits peers acquired voted txns t d
  disputed : ∀ {set t}, τ.setID set ∈ compares → τ.exists txns t ≠ τ.exists set t →
               ∃ d, disputes.find? t = some d
  compared : ∀ {n p set}, compared n → peers.find? n = some p →
               acquired.find? p.position = some set → p.position ∈ compares

variable {peers : Peers τ} {acquired : Sets τ} {voted compared : τ.NodeID → Prop}
variable {txns set : τ.TxSet} {t : τ.TxID} {d : Dispute τ} {n : τ.NodeID} {p : Proposal τ}
variable {disputes disputes' : Disputes τ} {compares : List τ.TxSetID}

namespace Fits

theorem mono (h : Fits peers acquired voted txns t d)
    (hv : ∀ {n p set}, voted' n → peers.find? n = some p → acquired.find? p.position = some set →
      voted n) : Fits peers acquired voted' txns t d :=
  { h with votes := fun hn hp hs => h.votes (hv hn hp hs) hp hs }

theorem init :
    Fits peers acquired (fun _ => False) txns (τ.txID tx)
      (.init tx (τ.exists txns (τ.txID tx))) where
  id := rfl
  exact := DisputedTx.exact_init ..
  peer hv := by simp [DisputedTx.init] at hv
  ours := rfl
  votes := False.elim

section

variable (h : Fits peers acquired voted txns t d)

include h

theorem setVote (hp : peers.find? n = some p) (hs : acquired.find? p.position = some set) :
    Fits peers acquired (fun m => voted m ∨ m = n) txns t (d.setVote n (τ.exists set t)) where
  id := (d.setVote_keeps ..).left ▸ h.id
  exact := h.exact.setVote ..
  peer {m b} hv := by
    rw [DisputedTx.setVote_find] at hv
    split at hv
    case isTrue hm => exact ⟨p, hm ▸ hp⟩
    case isFalse => exact h.peer hv
  ours := (d.setVote_keeps ..).right ▸ h.ours
  votes {m q set'} hm hq hs' := by
    rw [DisputedTx.setVote_find]
    split
    case isTrue he =>
      subst he
      obtain rfl : p = q := by simpa [hp] using hq
      obtain rfl : set = set' := by simpa [hs] using hs'
      rfl
    case isFalse he => exact h.votes (hm.resolve_right he) hq hs'

theorem skip (hp : peers.find? n = some p) (hs : acquired.find? p.position = none) :
    Fits peers acquired (fun m => voted m ∨ m = n) txns t d := by
  refine h.mono fun {m q set} hm hq hs' => hm.resolve_right fun he => ?_
  subst he
  obtain rfl : p = q := by simpa [hp] using hq
  simp [hs] at hs'

theorem unVote (n : τ.NodeID) : Fits (peers.erase n) acquired voted txns t (d.unVote n) where
  id := (d.unVote_keeps n).left ▸ h.id
  exact := h.exact.unVote n
  peer {m b} hv := by
    rw [DisputedTx.unVote_find] at hv
    split at hv
    case isTrue => contradiction
    case isFalse hm =>
      obtain ⟨p, hp⟩ := h.peer hv
      exact ⟨p, by rw [find?_erase, if_neg hm, hp]⟩
  ours := (d.unVote_keeps n).right ▸ h.ours
  votes {m q set} hm hq hs := by
    rw [find?_erase] at hq
    split at hq
    case isTrue => contradiction
    case isFalse he => rw [DisputedTx.unVote_find, if_neg he, h.votes hm hq hs]

end

end Fits

theorem Fits.peerVotes {A : Type} {s : Consensus τ A}
    (h : Fits s.currPeerPositions s.acquired voted txns t d)
    (hes : ∀ e ∈ es, s.currPeerPositions.find? e.1 = some e.2) :
    Fits s.currPeerPositions s.acquired (fun m => voted m ∨ m ∈ es.map Prod.fst) txns t
      (s.peerVotes t es d) := by
  induction es generalizing d voted
  case nil => exact h.mono fun hm _ _ => by simpa using hm
  case cons e es ih =>
    have hp := hes e (by simp)
    have hes' : ∀ e ∈ es, s.currPeerPositions.find? e.1 = some e.2 :=
      fun d hd => hes d (by simp [hd])
    unfold peerVotes
    rw [List.foldl_cons]
    match hs : s.acquired.find? e.2.position with
    | some set => exact (ih (h.setVote hp hs) hes').mono fun hm _ _ => by simpa [or_assoc] using hm
    | none => exact (ih (h.skip hp hs) hes').mono fun hm _ _ => by simpa [or_assoc] using hm

-- New disputes fit, with the votes of all peers.
structure Grows (peers : Peers τ) (acquired : Sets τ) (txns : τ.TxSet)
    (disputes disputes' : Disputes τ) : Prop where
  keep  : ∀ {t d}, disputes.find? t = some d → disputes'.find? t = some d
  fresh : ∀ {t d}, disputes'.find? t = some d →
            disputes.find? t = some d ∨ Fits peers acquired (fun _ => True) txns t d

namespace Grows

theorem refl : Grows peers acquired txns disputes disputes :=
  ⟨fun h => h, .inl⟩

theorem trans (h₁ : Grows peers acquired txns disputes disputes')
    (h₂ : Grows peers acquired txns disputes' disputes'') :
    Grows peers acquired txns disputes disputes'' where
  keep h := h₂.keep (h₁.keep h)
  fresh h := by
    match h₂.fresh h with
    | .inl h => exact h₁.fresh h
    | .inr h => exact .inr h

theorem insert (hn : disputes.find? t = none)
    (hf : Fits peers acquired (fun _ => True) txns t d) :
    Grows peers acquired txns disputes (disputes.insert t d) where
  keep {u e} hu := by
    rw [find?_insert, if_neg, hu]
    intro he
    simp [he, hn] at hu
  fresh {u e} hu := by
    rw [find?_insert] at hu
    split at hu
    case isTrue he => cases hu; exact .inr (he ▸ hf)
    case isFalse he => exact .inl hu

end Grows

namespace Tracks

theorem mono (h : Tracks peers acquired voted compared txns disputes compares)
    (hv : ∀ {n p set}, voted' n → peers.find? n = some p → acquired.find? p.position = some set →
      voted n)
    (hc : ∀ {n p set}, compared' n → peers.find? n = some p →
      acquired.find? p.position = some set → compared n) :
    Tracks peers acquired voted' compared' txns disputes compares where
  fits hd := (h.fits hd).mono hv
  disputed := h.disputed
  compared hn hp hs := h.compared (hc hn hp hs) hp hs

theorem empty : Tracks peers acquired voted (fun _ => False) txns ∅ [] where
  fits hd := by simp at hd
  disputed hs := by simp at hs
  compared := False.elim

theorem empty_peers : Tracks ∅ acquired voted compared txns ∅ [] where
  fits hd := by simp at hd
  disputed hs := by simp at hs
  compared _ hp := by simp at hp

section

variable (h : Tracks peers acquired voted compared txns disputes compares)

include h

theorem grow (hg : Grows peers acquired txns disputes disputes') :
    Tracks peers acquired voted compared txns disputes' compares where
  fits hd := by
    match hg.fresh hd with
    | .inl hd => exact h.fits hd
    | .inr hf => exact hf.mono fun _ _ _ => trivial
  disputed hs ht := by
    have ⟨d, hd⟩ := h.disputed hs ht
    exact ⟨d, hg.keep hd⟩
  compared := h.compared

theorem compare (hd : ∀ {t}, τ.exists txns t ≠ τ.exists set t → ∃ d, disputes.find? t = some d) :
    Tracks peers acquired voted compared txns disputes (τ.setID set :: compares) where
  fits := h.fits
  disputed {o t} ho ht := by
    match List.mem_cons.mp ho with
    | .inl he => exact hd (τ.exists_of_id he ▸ ht)
    | .inr ho => exact h.disputed ho ht
  compared hn hp hs := List.mem_cons_of_mem _ (h.compared hn hp hs)

theorem add_compared (hp : peers.find? n = some p) (hc : p.position ∈ compares) :
    Tracks peers acquired voted (fun m => compared m ∨ m = n) txns disputes compares where
  fits := h.fits
  disputed := h.disputed
  compared {m q set} hm hq hs := by
    match hm with
    | .inl hm => exact h.compared hm hq hs
    | .inr he =>
      subst he
      obtain rfl : p = q := by simpa [hp] using hq
      exact hc

theorem setVotes (hp : peers.find? n = some p) (hs : acquired.find? p.position = some set) :
    Tracks peers acquired (fun m => voted m ∨ m = n) compared txns
      (disputes.mapVal fun d => d.setVote n (τ.exists set (τ.txID d.tx))) compares where
  fits {t d} hd := by
    rw [find?_mapVal] at hd
    have ⟨e, he, hde⟩ := Option.map_eq_some_iff.mp hd
    have hf := h.fits he
    rw [← hde, hf.id]
    exact hf.setVote hp hs
  disputed hs ht := by
    have ⟨d, hd⟩ := h.disputed hs ht
    exact ⟨_, by rw [find?_mapVal, hd]; rfl⟩
  compared := h.compared

theorem unVotes (n : τ.NodeID) :
    Tracks (peers.erase n) acquired voted compared txns (disputes.mapVal fun d => d.unVote n)
      compares where
  fits {t d} hd := by
    rw [find?_mapVal] at hd
    have ⟨e, he, hde⟩ := Option.map_eq_some_iff.mp hd
    exact hde ▸ (h.fits he).unVote n
  disputed hs ht := by
    have ⟨d, hd⟩ := h.disputed hs ht
    exact ⟨_, by rw [find?_mapVal, hd]; rfl⟩
  compared {m p set} hm hp hs := by
    rw [find?_erase] at hp
    split at hp
    case isTrue => contradiction
    case isFalse => exact h.compared hm hp hs

theorem insert_peer (n : τ.NodeID) (p : Proposal τ) :
    Tracks (peers.insert n p) acquired (fun m => voted m ∧ m ≠ n) (fun m => compared m ∧ m ≠ n)
      txns disputes compares where
  fits {t d} hd :=
    { h.fits hd with
      peer := fun {m b} hv => by
        rw [find?_insert]
        split
        case isTrue => exact ⟨p, rfl⟩
        case isFalse => exact (h.fits hd).peer hv
      votes := fun {m q set} hm hq hs => by
        rw [find?_insert, if_neg hm.right] at hq
        exact (h.fits hd).votes hm.left hq hs }
  disputed := h.disputed
  compared {m q set} hm hq hs := by
    rw [find?_insert, if_neg hm.right] at hq
    exact h.compared hm.left hq hs

theorem insert_set (i : τ.TxSetID) (set : τ.TxSet) :
    Tracks peers (acquired.insert i set)
      (fun m => voted m ∧ ∀ p, peers.find? m = some p → p.position ≠ i)
      (fun m => compared m ∧ ∀ p, peers.find? m = some p → p.position ≠ i)
      txns disputes compares where
  fits {t d} hd :=
    { h.fits hd with
      votes := fun {m q set'} hm hq hs => by
        rw [find?_insert, if_neg (hm.right q hq)] at hs
        exact (h.fits hd).votes hm.left hq hs }
  disputed := h.disputed
  compared {m q set'} hm hq hs := by
    rw [find?_insert, if_neg (hm.right q hq)] at hs
    exact h.compared hm.left hq hs

theorem flip (hd : disputes.find? t = some d) (ht : τ.exists set t = b)
    (hne : ∀ u, u ≠ t → τ.exists set u = τ.exists txns u) :
    Tracks peers acquired voted compared set (disputes.insert t { d with ourVote := b })
      compares where
  fits {u e} hu := by
    rw [find?_insert] at hu
    split at hu
    case isTrue he =>
      cases hu
      subst he
      have hf := h.fits hd
      exact { hf with ours := ht.symm, exact := ⟨hf.exact.yays, hf.exact.nays⟩ }
    case isFalse he => exact { h.fits hu with ours := hne u he ▸ (h.fits hu).ours }
  disputed {o u} ho hu := by
    rw [find?_insert]
    split
    case isTrue => exact ⟨_, rfl⟩
    case isFalse he => exact h.disputed ho (hne u he ▸ hu)
  compared := h.compared

end

end Tracks

theorem Tracks.updateVoteOn {q : Disputes τ × Option τ.TxSet}
    (h : Tracks peers acquired voted compared (q.2.getD txns) q.1 compares)
    (percentTime : Int) (proposing : Bool) (parms : ConsensusParms) (t : τ.TxID) :
    let q' := updateVoteOn q txns percentTime proposing parms t
    Tracks peers acquired voted compared (q'.2.getD txns) q'.1 compares := by
  unfold Consensus.updateVoteOn
  split
  case h_1 => exact h
  case h_2 d hd =>
    match d.updateVote_cases percentTime proposing parms with
    | .inl he => rw [he]; exact h
    | .inr he =>
      rw [he]
      have hid := (h.fits hd).id
      apply h.flip hd
      · cases hv : d.ourVote <;> simp [τ.exists_insert, τ.exists_erase, hid]
      · intro u hu
        cases hv : d.ourVote <;> simp [τ.exists_insert, τ.exists_erase, hid, hu]

theorem Tracks.updateVotes {q : Disputes τ × Option τ.TxSet}
    (h : Tracks peers acquired voted compared (q.2.getD txns) q.1 compares)
    (percentTime : Int) (proposing : Bool) (parms : ConsensusParms) (ts : List τ.TxID) :
    let q' := ts.foldl (fun q t => Consensus.updateVoteOn q txns percentTime proposing parms t) q
    Tracks peers acquired voted compared (q'.2.getD txns) q'.1 compares := by
  induction ts generalizing q
  case nil => exact h
  case cons t ts ih => exact ih (h.updateVoteOn percentTime proposing parms t)

section State

variable {A : Type} {s : Consensus τ A} {r : Result τ} [Adaptor τ A]

theorem askPeers_spec (s : Consensus τ A) :
    (∃ a, s.askPeers.2 = { s with adaptor := a }) ∧
    (∀ e ∈ s.askPeers.1, s.currPeerPositions.find? e.1 = some e.2) ∧
    ∀ {n p}, s.currPeerPositions.find? n = some p → n ∈ s.askPeers.1.map Prod.fst := by
  have hp : s.askPeers.1.Perm s.currPeerPositions.toList := Adaptor.order_perm ..
  refine ⟨⟨_, rfl⟩, fun e he => mem_toList.mp (hp.subset he), fun {n p} h => ?_⟩
  exact List.mem_map.mpr ⟨(n, p), hp.mem_iff.mpr (mem_toList.mpr h), rfl⟩

-- The loop body of `createDisputes` disputes a transaction of the difference.
theorem createDispute_grows (hr : s.result = some r) (he : e ∈ τ.compare r.txns o) :
    ∃ a disputes', s.createDispute o e =
        { s with adaptor := a, result := some { r with disputes := disputes' } } ∧
      Grows s.currPeerPositions s.acquired r.txns r.disputes disputes' ∧
      ∃ d, disputes'.find? e.1 = some d := by
  obtain ⟨hne, hb⟩ := τ.mem_compare.mp he
  obtain ⟨tx, htx⟩ : ∃ tx, (if e.2 then τ.find r.txns e.1 else τ.find o e.1) = some tx := by
    rw [← Option.isSome_iff_exists]
    cases h : e.2
    case true => simp [τ.find_exists, ← hb, h]
    case false =>
      have : τ.exists o e.1 = true := by simpa [← hb, h] using hne.symm
      simp [τ.find_exists, this]
  have hid : τ.txID tx = e.1 := by
    split at htx
    case isTrue => exact τ.find_id htx
    case isFalse => exact τ.find_id htx
  unfold createDispute
  simp only [hr, htx, hid]
  cases hd : r.disputes.find? e.1 with
  | some d => exact ⟨s.adaptor, r.disputes, by simp [← hr], .refl, d, hd⟩
  | none =>
    obtain ⟨⟨a, ha⟩, hes, hall⟩ := askPeers_spec s
    have h₀ : Fits s.currPeerPositions s.acquired _ r.txns (τ.txID tx) _ := .init
    have hf : Fits s.currPeerPositions s.acquired (fun _ => True) r.txns e.1 _ :=
      hid ▸ (h₀.peerVotes hes).mono fun _ hp _ => .inr (hall hp)
    generalize s.askPeers = q at ha hf
    obtain ⟨es, s'⟩ := q
    obtain rfl : s' = { s with adaptor := a } := ha
    exact ⟨_, _, rfl, .insert hd hf, _, by rw [find?_insert, if_pos rfl]⟩

theorem foldl_createDispute_grows (hr : s.result = some r) (hes : es ⊆ τ.compare r.txns o) :
    ∃ a disputes', es.foldl (fun s e => s.createDispute o e) s =
        { s with adaptor := a, result := some { r with disputes := disputes' } } ∧
      Grows s.currPeerPositions s.acquired r.txns r.disputes disputes' ∧
      ∀ e ∈ es, ∃ d, disputes'.find? e.1 = some d := by
  induction es generalizing s r
  case nil => exact ⟨s.adaptor, r.disputes, by simp [← hr], .refl, by simp⟩
  case cons e es ih =>
    obtain ⟨a, ds, hs, hg, d, hd⟩ := createDispute_grows hr (hes (List.mem_cons_self ..))
    obtain ⟨a', ds', hs', hg', hall⟩ := ih
      (s := { s with adaptor := a, result := some { r with disputes := ds } })
      (r := { r with disputes := ds }) rfl fun _ h => hes (List.mem_cons_of_mem _ h)
    rw [List.foldl_cons, hs]
    refine ⟨a', ds', hs', hg.trans hg', fun c hc => ?_⟩
    rcases List.mem_cons.mp hc with he | hc
    · exact ⟨d, he ▸ hg'.keep hd⟩
    · exact hall c hc

-- The state differs in the surroundings, the disputes and the comparisons only.
def Disputed (s : Consensus τ A) (r : Result τ) (disputes : Disputes τ)
    (compares : List τ.TxSetID) (s' : Consensus τ A) : Prop :=
  ∃ a, s' = { s with adaptor := a, result := some { r with disputes, compares } }

section

variable (hr : s.result = some r)
  (h : Tracks s.currPeerPositions s.acquired voted compared r.txns r.disputes r.compares)

include hr h

theorem Tracks.createDisputes (o : τ.TxSet) :
    ∃ disputes compares, Disputed s r disputes compares (s.createDisputes o) ∧
      Tracks s.currPeerPositions s.acquired voted compared r.txns disputes compares ∧
      τ.setID o ∈ compares := by
  unfold Consensus.createDisputes
  simp only [hr]
  split
  case isTrue hmem => exact ⟨r.disputes, r.compares, ⟨s.adaptor, by simp [← hr]⟩, h, hmem⟩
  split
  case isTrue hid =>
    refine ⟨r.disputes, τ.setID o :: r.compares, ⟨s.adaptor, rfl⟩, h.compare ?_, by simp⟩
    exact fun ht => absurd (congrFun (τ.exists_of_id hid) _) ht
  have ⟨a, ds, hs, hg, hall⟩ := foldl_createDispute_grows (o := o)
    (s := { s with result := some { r with compares := τ.setID o :: r.compares } })
    (r := { r with compares := τ.setID o :: r.compares }) rfl (List.Subset.refl _)
  refine ⟨ds, _, ⟨a, hs⟩, (h.grow hg).compare fun {t} ht => ?_, by simp⟩
  exact hall (t, τ.exists r.txns t) (τ.mem_compare.mpr ⟨ht, rfl⟩)

theorem Tracks.updateDisputes (hp : s.currPeerPositions.find? n = some p)
    (hs : s.acquired.find? p.position = some set) (hid : τ.setID set = p.position) :
    ∃ disputes compares, Disputed s r disputes compares (s.updateDisputes n set) ∧
      Tracks s.currPeerPositions s.acquired (fun m => voted m ∨ m = n)
        (fun m => compared m ∨ m = n) r.txns disputes compares := by
  unfold Consensus.updateDisputes
  simp only [hr]
  split
  case isTrue hmem =>
    refine ⟨_, r.compares, ⟨s.adaptor, ?_⟩, (h.setVotes hp hs).add_compared hp (hid ▸ hmem)⟩
    simp [mapDisputes, hr]
  have ⟨ds, cs, ⟨a, hc⟩, ht, hmem⟩ := h.createDisputes hr set
  refine ⟨_, cs, ⟨a, ?_⟩, (ht.setVotes hp hs).add_compared hp (hid ▸ hmem)⟩
  rw [hc]
  rfl

theorem Tracks.foldl_updateDisputes (hs : s.acquired.find? i = some set) (hid : τ.setID set = i)
    {es : List (τ.NodeID × Proposal τ)} (hes : ∀ e ∈ es, s.currPeerPositions.find? e.1 = some e.2) :
    ∃ disputes compares, Disputed s r disputes compares
        (es.foldl (fun s e => if e.2.position = i then s.updateDisputes e.1 set else s) s) ∧
      Tracks s.currPeerPositions s.acquired
        (fun m => voted m ∨ ∃ e ∈ es, e.1 = m ∧ e.2.position = i)
        (fun m => compared m ∨ ∃ e ∈ es, e.1 = m ∧ e.2.position = i)
        r.txns disputes compares := by
  induction es generalizing s r voted compared
  case nil =>
    refine ⟨r.disputes, r.compares, ⟨s.adaptor, by simp [← hr]⟩, h.mono ?_ ?_⟩
    · exact fun hm _ _ => by simpa using hm
    · exact fun hm _ _ => by simpa using hm
  case cons e es ih =>
    have hes' : ∀ e ∈ es, s.currPeerPositions.find? e.1 = some e.2 :=
      fun d hd => hes d (by simp [hd])
    rw [List.foldl_cons]
    by_cases he : e.2.position = i
    case neg =>
      rw [if_neg he]
      have ⟨ds, cs, hd, ht⟩ := ih hr h hs hes'
      refine ⟨ds, cs, hd, ht.mono ?_ ?_⟩ <;> exact fun hm _ _ => by simpa [he] using hm
    case pos =>
      have ⟨ds, cs, ⟨a, hd⟩, ht⟩ :=
        h.updateDisputes hr (hes e (by simp)) (he ▸ hs) (hid.trans he.symm)
      have ⟨ds', cs', ⟨a', hd'⟩, ht'⟩ := ih
        (s := { s with adaptor := a, result := some { r with disputes := ds, compares := cs } })
        (r := { r with disputes := ds, compares := cs }) rfl ht hs hes'
      rw [if_pos he, hd]
      refine ⟨ds', cs', ⟨a', hd'⟩, ht'.mono ?_ ?_⟩ <;>
        exact fun hm _ _ => by simpa [or_assoc, he, eq_comm] using hm

end

end State

end Consensus
