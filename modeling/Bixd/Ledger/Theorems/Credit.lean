import Bixd.Ledger.Credit

-- Both ways to pay over a trust line do the same.

open Overlay Keylet

namespace ApplyView

variable {B M : UInt256 → Option SLE} {k : Keylet}

theorem Agree.refl (x : Except String (TER × ApplyView)) : Agree x x := by
  cases x
  case error e => exact .error e
  case ok r => exact .ok (.refl r.2)

section

variable [Digest]

theorem settle_peek (bSenderHigh : Bool) (sender receiver : AccountID) (balance : STAmount)
    (hv : Shows B M v) (hl : v.items.Holds state) (hk : k.key ≠ state.key) :
    Agree (settle v state bSenderHigh sender receiver balance false)
      (settle (v.peek k).2 state bSenderHigh sender receiver balance false) := by
  unfold settle
  generalize hline : state.set sfBalance (.amount (inSenderTerms bSenderHigh balance)) = line
  have hl : v.items.Holds line := hline ▸ holds_set hl
  have hk : k.key ≠ line.key := by rwa [← hline]
  have ⟨t, ht, hb⟩ := ApplyStateTable.update_becomes hv.fits hl
  have hupdate : v.update line = .ok { v with items := t } := by
    rw [update, ht]
    rfl
  have hshows : Shows B _ { v with items := t } := ⟨hv.base, hb.fits, hb.state⟩
  rw [if_neg (by decide), if_neg (by decide), hupdate, peek_update hk hv.base hupdate]
  exact .ok (hshows.same_peek k)

theorem payOver_agree (hv : Shows B M v) (hl : v.items.Holds state)
    (hroot : M (account sender).key = some root) (ht : (account sender).check root)
    (hk : (account sender).key ≠ state.key) :
    Agree
      (do
        let saBefore := inSenderTerms bSenderHigh (state.sle.getFieldAmount sfBalance)
        let saBalance ← saBefore.minus amount
        let (bDelete, line, v) ← bixdCredit.release v state bSenderHigh sender saBefore saBalance
        settle v line bSenderHigh sender receiver saBalance bDelete)
      (payOver v state bSenderHigh sender receiver amount) := by
  unfold payOver
  dsimp only
  generalize inSenderTerms bSenderHigh (state.sle.getFieldAmount sfBalance) = before
  cases before.minus amount
  case error e => exact .error e
  case ok after =>
    have ⟨p, v', hpeek, _, _, hp⟩ := hv.peek_some hroot ht
    have hread : v.view.read (.account sender) = some root := by
      rw [hv.read, hroot, Option.filter_some, if_pos ht]
    simp only [Except.ok_bind]
    unfold bixdCredit.release updateTrustLine
    rw [hread, hpeek]
    dsimp only
    rw [hp]
    by_cases hpaid : paidOff state.sle bSenderHigh before after
    case pos =>
      by_cases hdef : isDefaultSide state.sle bSenderHigh root.getFlags
      case pos =>
        -- The account is looked up in both ways, and the views are the same from then on.
        rw [if_pos hpaid, if_pos hdef, if_pos ⟨hpaid, hdef⟩, adjustOwnerCountOf, hpeek]
        dsimp only
        cases adjustOwnerCount v' p (-1)
        case error e => exact .error e
        case ok r => exact .refl _
      case neg =>
        rw [if_pos hpaid, if_neg hdef, if_neg (fun h => hdef h.right)]
        have h := settle_peek bSenderHigh sender receiver after hv hl hk
        rw [hpeek] at h
        exact h
    case neg =>
      rw [if_neg hpaid, if_neg (fun h => hpaid h.left)]
      have h := settle_peek bSenderHigh sender receiver after hv hl hk
      rw [hpeek] at h
      exact h

theorem check_line {id : AccountID} :
    (line id id' currency).check s ↔ s.type = .ltBIXD_STATE := by
  simp [check, line]

theorem line_comm (id id' : AccountID) (currency : Currency) :
    line id id' currency = line id' id currency := by
  unfold line
  by_cases h : id' < id
  case pos => rw [if_pos h, if_pos h, if_neg (BitVec.lt_asymm h), if_neg (BitVec.lt_asymm h)]
  by_cases h' : id < id'
  case pos => rw [if_neg h, if_neg h, if_pos h', if_pos h']
  case neg => rw [BitVec.le_antisymm (BitVec.not_lt.mp h) (BitVec.not_lt.mp h')]

theorem Shows.peek_line {id : AccountID} (hv : Shows B M v)
    (hline : (v.view.read (.line sender receiver currency)).isSome)
    (hroot : (v.view.read (.account id)).isSome) :
    ∃ state v' root, v.peek (.line sender receiver currency) = (some state, v') ∧
      Shows B M v' ∧ v'.items.Holds state ∧ M (account id).key = some root ∧
      (account id).check root ∧ (account id).key ≠ state.key := by
  have ⟨s, hs⟩ := Option.isSome_iff_exists.mp hline
  have ⟨root, hr⟩ := Option.isSome_iff_exists.mp hroot
  rw [hv.read, Option.filter_eq_some_iff] at hs hr
  have ⟨state, v', hpeek, he, hl, hsle⟩ := hv.peek_some hs.left hs.right
  refine ⟨state, v', root, hpeek, he.shows, hl, hr.left, hr.right, fun hk => ?_⟩
  -- An entry is not a line and an account root at once.
  have hkey : state.key = (line sender receiver currency).key := by
    rw [SLEPtr.key, hsle]
    exact hv.denotes.keyed _ _ hs.left
  have hsame : s = root := Option.some.inj (hs.left.symm.trans (hkey ▸ hk ▸ hr.left))
  have hline := check_line.mp hs.right
  have hroot : root.type = .ltACCOUNT_ROOT := by
    simpa [check, account] using hr.right
  rw [hsame, hroot] at hline
  cases hline

-- Both ways to pay over a line that exists return the same code, leave the same view and report the
-- same to `creditHook`, when the issuer pays and when the account pays back.
theorem issueIOU_redeemIOU_agree (v : ApplyView) (account : AccountID) (amount : STAmount)
    (issue : Issue) (hv : Shows B M v) (hissue : issue = amount.mIssue)
    (hline : (v.view.read (.line issue.account account issue.currency)).isSome)
    (hissuer : (v.view.read (.account issue.account)).isSome)
    (haccount : (v.view.read (.account account)).isSome) :
    (Agree (bixdCredit v issue.account account amount) (issueIOU v account amount issue) ∧
      issueIOU.creditHook v account amount issue =
        bixdCredit.creditHook v issue.account account amount) ∧
    (Agree (bixdCredit v account issue.account amount) (redeemIOU v account amount issue) ∧
      redeemIOU.creditHook v account amount issue =
        bixdCredit.creditHook v account issue.account amount) := by
  subst hissue
  refine ⟨⟨?_, rfl⟩, ?_, rfl⟩
  case refine_1 =>
    have ⟨state, v', root, hpeek, hv', hl, hroot, ht, hk⟩ := hv.peek_line hline hissuer
    unfold bixdCredit issueIOU
    dsimp only
    rw [hpeek]
    exact payOver_agree hv' hl hroot ht hk
  case refine_2 =>
    rw [line_comm] at hline
    have ⟨state, v', root, hpeek, hv', hl, hroot, ht, hk⟩ := hv.peek_line hline haccount
    unfold bixdCredit redeemIOU
    dsimp only
    rw [hpeek]
    exact payOver_agree hv' hl hroot ht hk

end

section Instance

attribute [local instance] shortDigest

-- Two accounts with a line on which the higher one holds ten units of the lower one.
def tenIssued : STAmount :=
  ⟨⟨5, 1⟩, STAmount.cMinValue, -14, false, false⟩

def heldLine : SLE :=
  ((SLE.make .ltBIXD_STATE (line 1 2 5).key).set sfFlags (.uint32 lsfHighReserve)).set
    sfBalance (.amount tenIssued.negated)

def pairLedger : ReadView.Ledger :=
  (((ReadView.Ledger.blank { seq := 1, drops := 1000 } fun _ => true).store
    ⟨0, .make .ltACCOUNT_ROOT (account 1).key⟩ (by decide +kernel)).store
    ⟨1, .make .ltACCOUNT_ROOT (account 2).key⟩ (by decide +kernel)).store
    ⟨2, heldLine⟩ (by decide +kernel)

def pairView : ApplyView :=
  ⟨pairLedger.view, {}⟩

theorem issueIOU_redeemIOU_agree_pairView :
    (Agree (bixdCredit pairView 1 2 tenIssued) (issueIOU pairView 2 tenIssued tenIssued.mIssue) ∧
      (bixdCredit.creditHook pairView 1 2 tenIssued).isSome) ∧
    Agree (bixdCredit pairView 2 1 tenIssued) (redeemIOU pairView 2 tenIssued tenIssued.mIssue) ∧
    (redeemIOU pairView 2 tenIssued tenIssued.mIssue).toOption.isSome := by
  have h := issueIOU_redeemIOU_agree pairView 2 tenIssued tenIssued.mIssue
    (.init pairLedger.denotes) rfl (by decide +kernel) (by decide +kernel) (by decide +kernel)
  exact ⟨⟨h.left.left, by decide +kernel⟩, h.right.left, by decide +kernel⟩

end Instance

end ApplyView
