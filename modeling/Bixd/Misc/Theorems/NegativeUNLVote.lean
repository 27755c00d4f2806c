import Bixd.Misc.NegativeUNLVote

open List HashMap

namespace NegativeUNLVote

variable {N : Type} [DecidableEq N] {unl : List N} {index : SLE} {trusted : UInt256 → List N}

theorem find?_foldl_score (l : List N) (t : HashMap N UInt32) (k : N) :
    (l.foldl score t).find? k = (t.find? k).map (· + .ofNat (l.count k)) := by
  induction l generalizing t
  case nil => simp
  case cons v l hi =>
    have hv : (score t v).find? k = if k = v then (t.find? k).map (· + 1) else t.find? k := by
      unfold score
      cases h : t.find? v
      case none => split <;> simp_all
      case some => rw [Option.elim_some, find?_insert]; split <;> simp_all
    rw [foldl_cons, hi, hv, count_cons]
    by_cases hk : k = v
    case neg => simp [hk, Ne.symm hk]
    case pos => cases t.find? k <;> simp [hk, UInt32.ofNat_add, add_comm, add_assoc]

theorem find?_foldl_zero (t : HashMap N UInt32) (k : N) :
    (unl.foldl (fun t k => t.insert k 0) t).find? k = if k ∈ unl then some 0 else t.find? k := by
  induction unl generalizing t
  case nil => simp
  case cons v l hi =>
    rw [foldl_cons, hi, find?_insert]
    by_cases hk : k = v <;> simp [hk]

theorem count_flatMap_eq (h : ∀ hash, (trusted hash).Nodup) (l : List UInt256) (v : N) :
    (l.flatMap trusted).count v = l.countP (v ∈ trusted ·) := by
  induction l
  case nil => rfl
  case cons hash l hi =>
    rw [flatMap_cons, count_append, hi, countP_cons, (h hash).count, add_comm]
    simp

-- How many of the last 256 ledgers a node has validated.
def validated (trusted : UInt256 → List N) (index : SLE) (v : N) : Nat :=
  ((index.getFieldV256 sfHashes).reverse.take 256).countP (v ∈ trusted ·)

variable (unl index) (myId : N) (hp : index.isFieldPresent sfHashes)
  (hl : 256 ≤ (index.getFieldV256 sfHashes).length) (hn : ∀ hash, (trusted hash).Nodup)
  (hme : myId ∈ unl)

include hp hl hn hme

theorem buildScoreTable_eq : ∃ t,
    (∀ v ∈ unl, t.find? v = some (.ofNat (validated trusted index v))) ∧
    buildScoreTable myId (some index) unl trusted =
      let n := validated trusted index myId
      if n < negativeUNLMinLocalValsToVote then .error (.onlyIssued (.ofNat n))
      else if n > negativeUNLMinLocalValsToVote then .ok t else .error (.tooMany (.ofNat n)) := by
  have hfind : ∀ v ∈ unl, (((index.getFieldV256 sfHashes).reverse.take 256).foldl
      (fun t hash => (trusted hash).foldl score t) (unl.foldl (fun t k => t.insert k 0) ∅)).find? v =
        some (.ofNat (validated trusted index v)) := by
    intro v hv
    rw [← foldl_flatMap, find?_foldl_score, find?_foldl_zero, if_pos hv, count_flatMap_eq hn]
    simp [validated]
  have hle : validated trusted index myId ≤ 256 := countP_le_length.trans (length_take_le ..)
  have hnat := UInt32.toNat_ofNat_of_lt' (hle.trans_lt (by decide))
  have h256 : UInt32.ofNat (validated trusted index myId) ≤ FLAG_LEDGER_INTERVAL :=
    UInt32.le_iff_toNat_le.mpr (hnat.symm ▸ hle)
  have hF : FLAG_LEDGER_INTERVAL.toNat = 256 := rfl
  refine ⟨_, hfind, ?_⟩
  simp only [buildScoreTable, Option.filter_some, hp, if_true, hF, if_neg (Nat.not_lt.mpr hl),
    hfind _ hme, Option.getD_some, hnat, h256, and_true]

-- An active node takes part unless it validated just as many ledgers as it has to.
theorem buildScoreTable_iff : validated trusted index myId ≠ negativeUNLMinLocalValsToVote ↔
    let table := buildScoreTable myId (some index) unl trusted
    let n := validated trusted index
    (negativeUNLMinLocalValsToVote ≤ n myId → ∃ t, table = .ok t ∧
        ∀ v ∈ unl, t.find? v = some (.ofNat (n v))) ∧
      (∀ e, table = .error e → n myId < negativeUNLMinLocalValsToVote) ∧
      ∀ m, table ≠ .error (.tooMany m) := by
  have ⟨t, ht, he⟩ := buildScoreTable_eq unl index myId hp hl hn hme
  obtain hlt | heq | hgt := lt_trichotomy (validated trusted index myId)
    negativeUNLMinLocalValsToVote
  case inl => simp [he, hlt, hlt.ne, hlt.not_ge]
  case inr.inl => simp [he, heq]
  case inr.inr => simpa [he, hgt, hgt.ne', hgt.not_gt] using fun _ => ht

omit [DecidableEq N] hp hl hn hme

def skipList : SLE :=
  (SLE.make .ltLEDGER_HASHES 1).set sfHashes (.vector256 ((range 256).map (.ofNat 256)))

-- The only node has validated the first ledgers.
def firstLedgers (n : Nat) (hash : UInt256) : List Unit :=
  if hash.toNat < n then [()] else []

theorem nodup_firstLedgers (n : Nat) (hash : UInt256) : (firstLedgers n hash).Nodup := by
  unfold firstLedgers
  split <;> decide

theorem buildScoreTable_of_230 : (validated (firstLedgers 230) skipList () = 230) ∧
    (buildScoreTable () (some skipList) [()] (firstLedgers 230) = .error (.tooMany 230)) := by
  have hv : validated (firstLedgers 230) skipList () = 230 := by decide +kernel
  have ⟨_, _, he⟩ := buildScoreTable_eq [()] skipList () rfl (by decide +kernel)
    (nodup_firstLedgers 230) (by decide)
  rw [hv] at he
  exact ⟨hv, he⟩

theorem buildScoreTable_iff_231 :
    ∃ t, buildScoreTable () (some skipList) [()] (firstLedgers 231) = .ok t := by
  have hv : validated (firstLedgers 231) skipList () = 231 := by decide +kernel
  have h := (buildScoreTable_iff [()] skipList () rfl (by decide +kernel) (nodup_firstLedgers 231)
    (by decide)).mp (by rw [hv]; decide)
  have ⟨t, ht, _⟩ := h.left (by rw [hv]; decide)
  exact ⟨t, ht⟩

end NegativeUNLVote
