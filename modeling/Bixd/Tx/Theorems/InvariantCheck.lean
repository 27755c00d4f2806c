import Bixd.Tx.InvariantCheck

open List Option

namespace InvariantCheck

open Checkers NoBIXRPTrustLines

-- The trust line that a changed entry is.
def Visit.line (v : Visit) : Option SLE :=
  v.after.filter fun sle => sle.type = .ltBIXD_STATE

-- What each check looks for in an entry.
def Check.violatedBy : Check → Visit → Bool
  | BIXRPBalanceChecks, v => v.isBad .ltACCOUNT_ROOT fun sle =>
    BIXRPBalanceChecks.isBad (sle.getFieldAmount sfBalance)
  | NoBadOffers, v => v.isBad .ltOFFER fun sle => NoBadOffers.isBad
    (sle.getFieldAmount sfTakerPays) (sle.getFieldAmount sfTakerGets)
  | NoZeroEscrow, v => v.isBad .ltESCROW fun sle => NoZeroEscrow.isBad (sle.getFieldAmount sfAmount)
  | LedgerEntryTypesMatch, v => mismatch v || invalid v
  | NoBIXRPTrustLines, v => v.line.any isBad

def Check.verdict (c : Check) (es : List Visit) : Bool :=
  c.finalize (.visit es)

-- The check sees every entry, in whatever order the entries come.
structure Check.SeesAll (c : Check) (es : List Visit) : Prop where
  order : ∀ es', es'.Perm es → c.verdict es' = c.verdict es
  fails : ∀ es', es'.Perm es → (∃ v ∈ es, c.violatedBy v = true) → c.verdict es' = false

-- Trust lines in the native currency and in others are changed together.
def Mixed (es : List Visit) : Prop :=
  (∃ v ∈ es, ∃ sle ∈ v.line, isBad sle = true) ∧
  ∃ v ∈ es, ∃ sle ∈ v.line, isBad sle = false

section

variable {es : List Visit} {c : Check}

theorem foldl_or (flag : Checkers → Bool) (p : Visit → Bool)
    (h : ∀ s v, flag (s.visitEntry v) = (flag s || p v)) (s : Checkers) :
    flag (es.foldl visitEntry s) = (flag s || es.any p) := by
  induction es generalizing s
  case nil => simp
  case cons v es ih => rw [foldl_cons, ih, h, any_cons, Bool.or_assoc]

theorem bixrpTrustLine_visitEntry (s : Checkers) (v : Visit) :
    (s.visitEntry v).bixrpTrustLine =
      (v.line.map isBad).getD s.bixrpTrustLine := by
  have ⟨_, _, after⟩ := v
  cases after
  case none => rfl
  case some sle =>
    by_cases ht : sle.type = .ltBIXD_STATE
    case pos => simp [visitEntry, Visit.line, Option.filter, ht]
    case neg => simp [visitEntry, Visit.line, Option.filter, ht]

theorem bixrpTrustLine_foldl (bad : Bool)
    (h : ∀ v ∈ es, ∀ sle ∈ v.line, isBad sle = bad) {s : Checkers}
    (hs : s.bixrpTrustLine = true → bad = true) :
    (es.foldl visitEntry s).bixrpTrustLine =
      (s.bixrpTrustLine || es.any Check.NoBIXRPTrustLines.violatedBy) := by
  induction es generalizing s
  case nil => simp
  case cons v es ih =>
    rw [foldl_cons, any_cons, ih (fun v hv => h v (.tail _ hv)),
      bixrpTrustLine_visitEntry, ← Bool.or_assoc]
    · congr 1
      cases hl : v.line
      case none => simp [Check.violatedBy, hl]
      case some sle =>
        have hb := h v (.head _) sle hl
        simp only [Check.violatedBy, hl, map_some, getD_some, any_some, hb]
        cases hb' : s.bixrpTrustLine
        case false => simp
        case true => simp [hs hb']
    · rw [bixrpTrustLine_visitEntry]
      cases hl : v.line
      case none => simpa using hs
      case some sle => simp [h v (.head _) sle hl]

theorem verdict_eq (h : ¬Mixed es) : c.verdict es = !es.any c.violatedBy := by
  cases c
  case BIXRPBalanceChecks => exact congrArg not (foldl_or badBalance _ (fun _ _ => rfl) {})
  case NoBadOffers => exact congrArg not (foldl_or badOffer _ (fun _ _ => rfl) {})
  case NoZeroEscrow => exact congrArg not (foldl_or badEscrow _ (fun _ _ => rfl) {})
  case LedgerEntryTypesMatch =>
    rw [Check.verdict, Check.finalize, ← Bool.not_or]
    exact congrArg not (foldl_or (fun s => s.typeMismatch || s.invalidTypeAdded) _ (fun s v => by
      simp [visitEntry, Check.violatedBy, Bool.or_assoc, Bool.or_left_comm]) {})
  case NoBIXRPTrustLines =>
    by_cases hb : ∃ v ∈ es, ∃ sle ∈ v.line, isBad sle = true
    case pos =>
      refine congrArg not (bixrpTrustLine_foldl true (fun v hv sle hl => ?_) (s := {}) ?_)
      · by_contra hn
        exact h ⟨hb, v, hv, sle, hl, by simpa using hn⟩
      · simp
    case neg =>
      refine congrArg not (bixrpTrustLine_foldl false (fun v hv sle hl => ?_) (s := {}) ?_)
      · by_contra hn
        exact hb ⟨v, hv, sle, hl, by simpa using hn⟩
      · simp

theorem Mixed.perm (h : Mixed es') (hp : es'.Perm es) : Mixed es := by
  have ⟨⟨v, hv, hbad⟩, w, hw, hgood⟩ := h
  exact ⟨⟨v, hp.mem_iff.mp hv, hbad⟩, w, hp.mem_iff.mp hw, hgood⟩

theorem seesAll_of_not_mixed (h : ¬Mixed es) : c.SeesAll es where
  order es' hp := by rw [verdict_eq h, verdict_eq (fun hm => h (hm.perm hp)), hp.any_eq]
  fails es' hp hv := by
    rw [verdict_eq (fun hm => h (hm.perm hp)), hp.any_eq, any_eq_true.mpr hv]
    rfl

theorem violatedBy_of_line {v : Visit} (hl : sle ∈ v.line)
    (hb : isBad sle = true) : Check.NoBIXRPTrustLines.violatedBy v = true := by
  rw [Check.violatedBy, mem_def.mp hl]
  exact hb

theorem verdict_append {v : Visit} (hl : sle ∈ v.line) :
    Check.NoBIXRPTrustLines.verdict (es ++ [v]) = !isBad sle := by
  rw [Check.verdict, Check.finalize, visit, foldl_append, foldl_cons,
    foldl_nil, bixrpTrustLine_visitEntry, mem_def.mp hl]
  rfl

end

-- Every check sees every entry, and no trust line in the native currency passes, just if trust
-- lines in that currency are not changed together with others.
theorem seesAll_iff_not_mixed (es : List Visit) :
    ((∀ c : Check, c.SeesAll es) ∧ ∀ others result es', es'.Perm es →
      (∃ v ∈ es, Check.NoBIXRPTrustLines.violatedBy v = true) →
      checkInvariants others result es' = failInvariantCheck result) ↔ ¬Mixed es := by
  constructor
  case mp =>
    rintro ⟨h, _⟩ ⟨⟨v, hv, sle, hl, hbad⟩, w, hw, sle', hl', hgood⟩
    obtain ⟨s, t, rfl⟩ := append_of_mem hw
    -- The good line is visited last.
    have hp : (s ++ t ++ [w]).Perm (s ++ w :: t) := by
      rw [append_assoc]
      exact .append_left s perm_append_comm
    have hf := (h .NoBIXRPTrustLines).fails _ hp ⟨v, hv, violatedBy_of_line hl hbad⟩
    rw [verdict_append hl', hgood] at hf
    cases hf
  case mpr =>
    intro h
    refine ⟨fun c => seesAll_of_not_mixed h, fun others result es' hp hv => ?_⟩
    have hf : Check.NoBIXRPTrustLines.finalize (.visit es') = false :=
      (seesAll_of_not_mixed h).fails es' hp hv
    simp [checkInvariants, hf]

-- A new trust line in a currency.
def newLine (currency : Currency) : Visit where
  isDelete := false
  before   := none
  after    := some ⟨1, .ltBIXD_STATE, fun f =>
    if f = sfLowLimit ∨ f = sfHighLimit then some (.amount (.ofIssue ⟨currency, 1⟩)) else none⟩

-- A trust line in the native currency passes if another trust line is visited after it.
theorem newLine_passes :
    Check.NoBIXRPTrustLines.violatedBy (newLine 0) = true ∧
    checkInvariants true tesSUCCESS [newLine 0, newLine 5] = tesSUCCESS ∧
    checkInvariants true tesSUCCESS [newLine 5, newLine 0] = tecINVARIANT_FAILED := by
  decide +kernel

end InvariantCheck
