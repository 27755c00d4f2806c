import Bixd.Lib.Yields
import Bixd.Paths.PaySteps

open Except Option

namespace PaySteps

open PathElement DirectIPaymentStep PaySteps.Step

-- The errors that are not failed assertions.
def Refused : StrandError → Prop
  | .ter _     => True
  | .assertion => False

@[simp]
theorem refused_ter : Refused (.ter t) :=
  trivial

namespace StrandContext

-- A book that was seen is a step of the strand.
def Seen (ctx : StrandContext) : Prop :=
  ctx.seenBookOuts ≠ [] → ctx.result ≠ []

theorem Seen.of_push {ctx ctx' : StrandContext} (h : ctx'.result = ctx.result ++ [s]) :
    ctx'.Seen := by
  intro _
  simp [h]

end StrandContext

theorem reject_yields (b : Bool) (t : TER) : Yields Refused (fun _ => b = false) (reject b t) := by
  cases b
  case false => simp [reject]
  case true => simp [reject]

theorem insertSeen_yields (seen : List Issue) (i : Issue) :
    Yields Refused (fun _ => True) (insertSeen seen i) := by
  unfold insertSeen
  split
  case isTrue => simp
  case isFalse => simp

theorem checkSeenBook_yields {ctx : StrandContext} (h : ctx.Seen) (srcIssue : Issue) :
    Yields Refused (fun _ => True) (checkSeenBook ctx srcIssue) := by
  unfold checkSeenBook
  split
  case isFalse => simp
  case isTrue hc =>
    have hs : ctx.seenBookOuts ≠ [] := by
      intro he
      simp [count, he] at hc
    split
    case h_1 hp => exact absurd (List.getLast?_eq_none_iff.mp hp) (h hs)
    case h_2 => exact (reject_yields _ _).imp fun _ _ => trivial

section Checks

variable [Digest] {env : StrandEnv} {ctx : StrandContext}

theorem checkFreeze_yields (src dst : AccountID) (currency : Currency) :
    Yields Refused (fun _ => True) (checkFreeze env src dst currency) :=
  (reject_yields _ _).bind fun _ _ => (reject_yields _ _).imp fun _ _ => trivial

theorem checkNoBixd_yields (prev cur next : AccountID) (currency : Currency) :
    Yields Refused (fun _ => True) (checkNoBixd env prev cur next currency) := by
  unfold checkNoBixd
  split
  · exact (reject_yields _ _).imp fun _ _ => trivial
  · simp

theorem DirectIPaymentStep.check_yields (sleSrc : SLE) (src dst : AccountID)
    (currency : Currency) :
    Yields Refused (fun _ => True) (check env ctx sleSrc src dst currency) := by
  unfold check
  split
  case h_1 => simp
  case h_2 =>
    exact (reject_yields _ _).bind fun _ _ => (reject_yields _ _).bind fun _ _ =>
      (reject_yields _ _).imp fun _ _ => trivial

namespace DirectStepI

theorem checkFrozen_yields (isLast : Bool) (src dst : AccountID) (currency : Currency) :
    Yields Refused (fun _ => True) (checkFrozen env ctx isLast src dst currency) := by
  unfold checkFrozen
  split
  case isTrue => simp
  case isFalse => exact checkFreeze_yields _ _ _

theorem checkPrevStep_yields (src dst : AccountID) (currency : Currency) :
    Yields Refused (fun _ => True) (checkPrevStep env ctx src dst currency) := by
  unfold checkPrevStep
  split
  case h_1 => simp
  case h_2 => exact checkNoBixd_yields _ _ _ _

theorem checkDerived_yields (sleSrc : SLE) (src dst : AccountID) (currency : Currency) :
    Yields Refused (fun _ => True) (checkDerived env ctx sleSrc src dst currency) := by
  unfold checkDerived
  split
  case isTrue => simp
  case isFalse => exact check_yields _ _ _ _

end DirectStepI

theorem make_DirectStepI_yields (h : ctx.Seen) (isLast : Bool) (src dst : AccountID)
    (currency : Currency) :
    Yields Refused
      (fun ctx' => ctx'.result = ctx.result ++ [.direct src dst currency] ∧ src ≠ 0 ∧ dst ≠ 0)
      (make_DirectStepI env ctx isLast src dst currency) := by
  refine (reject_yields _ _).bind fun _ h0 => (reject_yields _ _).bind fun _ _ => ?_
  simp only [Bool.or_eq_false_iff, decide_eq_false_iff_not] at h0
  split
  case h_1 => simp
  case h_2 sleSrc _ =>
    refine (DirectStepI.checkFrozen_yields _ _ _ _).bind fun _ _ =>
      (DirectStepI.checkPrevStep_yields _ _ _).bind fun _ _ =>
      (checkSeenBook_yields h _).bind fun _ _ => (insertSeen_yields _ _).bind fun _ _ =>
      (insertSeen_yields _ _).bind fun _ _ =>
      (DirectStepI.checkDerived_yields _ _ _ _).bind fun _ _ => ?_
    exact ⟨rfl, h0.left, h0.right⟩

theorem make_BIXRPEndpointStep_yields (isLast : Bool) (acc : AccountID) :
    Yields Refused
      (fun ctx' => ctx'.result = ctx.result ++ [.endpoint acc isLast] ∧
        (ctx.isFirst = true ∨ isLast = true))
      (make_BIXRPEndpointStep env ctx isLast acc) := by
  refine (reject_yields _ _).bind fun _ _ => (reject_yields _ _).bind fun _ _ =>
    (reject_yields _ _).bind fun _ hf => ?_
  have hf : ctx.isFirst = true ∨ isLast = true := by
    cases hc : ctx.isFirst
    case true => simp
    case false => simpa [hc] using hf
  refine (checkFreeze_yields _ _ _).bind fun _ _ => ?_
  split
  case isFalse => exact ⟨rfl, hf⟩
  split
  case isTrue => exact (insertSeen_yields _ _).bind fun _ _ => ⟨rfl, hf⟩
  case isFalse => exact (insertSeen_yields _ _).bind fun _ _ => ⟨rfl, hf⟩

theorem make_BookStep_yields (bookIn bookOut : Issue) :
    Yields Refused
      (fun ctx' => ctx'.result = ctx.result ++ [.book bookIn bookOut] ∧
        isConsistent bookOut = true ∧ ∀ prev, ctx.prevStep.bind directStepSrcAcct = some prev →
          env.view.read (.line prev bookIn.account bookIn.currency) ≠ none)
      (make_BookStep env ctx bookIn bookOut) := by
  refine (reject_yields _ _).bind fun _ _ => (reject_yields _ _).bind fun _ hc =>
    (insertSeen_yields _ _).bind fun _ _ => (reject_yields _ _).bind fun _ _ =>
    (reject_yields _ _).bind fun _ _ => (reject_yields _ _).bind fun _ _ => ?_
  simp only [Bool.or_eq_false_iff, Bool.not_eq_false'] at hc
  refine Yields.bind (P := fun _ => ∀ prev, ctx.prevStep.bind directStepSrcAcct = some prev →
    env.view.read (.line prev bookIn.account bookIn.currency) ≠ none) ?_
    fun _ hl => ⟨rfl, hc.right, hl⟩
  unfold checkBookLine
  split
  case h_1 hp => simp [hp]
  case h_2 prev hp =>
    split
    case h_1 => simp
    case h_2 sle hr => exact (reject_yields _ _).imp fun _ _ => by simp [hp, hr]

end Checks

section Carry

variable {i : Issue}

theorem carryAll_push :
    carryAll (result ++ [s]) start = (carryAll result start).bind (carry s) := by
  simp [carryAll]

@[simp]
theorem carry_direct : carry (.direct a b c) (a, i) = some (b, { i with account := b }) := by
  simp [carry, stepAccts, directStepAccts, bookStepBook]

@[simp]
theorem carry_endpoint_first :
    carry (.endpoint a false) (a, i) = some (0, { i with account := 0 }) := by
  simp [carry, stepAccts, directStepAccts, bookStepBook]

@[simp]
theorem carry_endpoint_last :
    carry (.endpoint b true) (0, i) = some (b, { i with account := b }) := by
  simp [carry, stepAccts, directStepAccts, bookStepBook]

theorem carry_book (h : i.eq bookIn = true) :
    carry (.book bookIn bookOut) (bookIn.account, i) = some (bookOut.account, bookOut) := by
  simp [carry, stepAccts, directStepAccts, bookStepBook, h]

theorem Issue.eq_self : i.eq i = true := by
  simp [Issue.eq]

theorem Issue.eq_bixrpIssue (hc : i.currency = 0) (ha : i.account = 0) : i = bixrpIssue := by
  cases i
  simp_all [bixrpIssue]

end Carry

-- The elements that may follow in a path after an element with the currency `c`.
inductive Regular (c : Currency) : PathElement → Prop
  | account {a : AccountID} (h : a = 0 → c = 0) : Regular c (.ofAccount a)
  | offer {currency : Option Currency} {issuer : Option AccountID}
      (h : currency.isSome ∨ issuer.isSome) : Regular c ⟨none, currency, issuer⟩

-- Where the strand stands when the loop comes to the element `cur` with the issue `ci`. The flag
-- tells whether `cur` is the last element.
inductive Place (start : AccountID × Issue) (ctx : StrandContext) (ci : Issue)
    (cur : PathElement) : Bool → Prop
  | account {last : Bool} (nonzero : ci.account ≠ 0) (issued : ci.currency ≠ 0)
      (eq : cur.account = some ci.account) (sets : ∀ c, cur.currency = some c → c ≠ 0)
      (carried : carryAll ctx.result start = some (ci.account, ci)) : Place start ctx ci cur last
  | offer (eq : cur.account = none) (native : ci.currency = 0 → ci.account = 0)
      (carried : carryAll ctx.result start = some (ci.account, ci)) (some_step : ctx.result ≠ []) :
      Place start ctx ci cur false
  | first (eq : cur = ⟨some start.1, some 0, some 0⟩) (issue : ci = bixrpIssue)
      (no_step : ctx.result = []) (nonzero : start.1 ≠ 0) (starts : start.2 = bixrpIssue) :
      Place start ctx ci cur false
  -- The native currency is between accounts, with the account that nobody has.
  | native {a : AccountID} (eq : cur = .ofAccount a) (issue : ci = ⟨0, a⟩)
      (carried : carryAll ctx.result start = some (0, bixrpIssue)) (some_step : ctx.result ≠ []) :
      Place start ctx ci cur false
  -- A direct step in the native currency was made. No step can follow it but another of its kind.
  | lost {a y z : AccountID} (eq : cur = .ofAccount a) (nonzero : a ≠ 0) (issue : ci = ⟨0, a⟩)
      (prev : ctx.prevStep = some (.direct y z 0)) : Place start ctx ci cur false
  | arrived {a : AccountID} (eq : cur = .ofAccount a) (issue : ci = ⟨0, a⟩)
      (carried : carryAll ctx.result start = some (a, ci)) : Place start ctx ci cur true

-- What the loop keeps.
structure Inv (start : AccountID × Issue) (ctx : StrandContext) (ci : Issue) (cur : PathElement)
    (last : Bool) : Prop where
  seen  : ctx.Seen
  place : Place start ctx ci cur last

theorem updateIssue_offer {ci : Issue} {currency : Option Currency} {issuer : Option AccountID}
    (h : currency.getD ci.currency ≠ 0) :
    (⟨currency.getD ci.currency, issuer.getD ci.account⟩ : Issue)
      = updateIssue ci ⟨none, currency, issuer⟩ := by
  cases currency
  case none =>
    cases issuer
    case none => rfl
    case some i => rfl
  case some c =>
    have hc : c ≠ 0 := h
    cases issuer
    case none => exact (congrArg (Issue.mk c) (if_neg hc)).symm
    case some i => exact (congrArg (Issue.mk c) (if_neg hc)).symm

theorem not_setsNative {cur : PathElement} (h : cur.currency ≠ some 0) :
    ¬(cur.hasCurrency = true ∧ cur.getCurrency = 0) := by
  rintro ⟨hc, h0⟩
  have ⟨c, hc⟩ := isSome_iff_exists.mp hc
  have he : c = 0 := by simpa [getCurrency, hc] using h0
  exact h (he ▸ hc)

section Turn

variable [Digest] {env : StrandEnv} {ctx : StrandContext} {ci : Issue}
variable {cur : PathElement}
variable {currency : Option Currency} {issuer : Option AccountID}

-- Nothing is implied between two accounts, or between an account and an offer, where the issue is
-- the one of the first account.

theorem turn_accounts (ha : cur.account = some a) (hi : ci.currency = 0 ∨ ci.account = a) :
    turn env ctx last cur (.ofAccount b) ci = toStep env ctx last cur (.ofAccount b) ci := by
  have hn : ¬(ci.currency ≠ 0 ∧ ci.account ≠ a ∧ ci.account ≠ b) := by
    rintro ⟨hc, ha, _⟩
    exact hi.elim hc ha
  simp only [turn, step, isAccount, getAccountID, ofAccount, ha, hasCurrency, isOffer]
  simp only [isSome_some, isSome_none, Bool.and_true, Bool.and_self,
    Bool.false_and, Bool.and_false, getD_some, if_true]
  rw [if_neg]
  · simp
  · intro h
    simp only [Bool.and_eq_true] at h
    exact hn ⟨of_decide_eq_true h.left.left, of_decide_eq_true h.left.right,
      of_decide_eq_true h.right⟩

theorem turn_account_offer (ha : cur.account = some ci.account) :
    turn env ctx last cur ⟨none, currency, issuer⟩ ci
      = toStep env ctx last cur ⟨none, currency, issuer⟩ ci := by
  simp [turn, step, isAccount, isOffer, getAccountID, ha]

theorem turn_offers (ha : cur.account = none) :
    turn env ctx last cur ⟨none, currency, issuer⟩ ci
      = toStep env ctx last cur ⟨none, currency, issuer⟩ ci := by
  simp [turn, step, isAccount, isOffer, ha]

theorem toStep_accounts (ha : cur.account = some a)
    (hf : ctx.isFirst = true → cur.currency ≠ some 0) (hl : last = true → a ≠ 0) :
    toStep env ctx last cur (.ofAccount b) ci
      = make_DirectStepI env ctx last a b ci.currency := by
  have h1 : ¬(ctx.isFirst = true ∧ cur.hasCurrency = true ∧ cur.getCurrency = 0) :=
    fun h => not_setsNative (hf h.left) h.right
  have h2 : ¬(last = true ∧ isBIXRPAccount cur = true) := by
    rintro ⟨h, hb⟩
    simp only [isBIXRPAccount, getAccountID, ha, getD_some, Bool.and_eq_true,
      decide_eq_true_eq] at hb
    exact hl h hb.right
  simp only [toStep, isAccount, ofAccount, getAccountID, ha, isSome_some, getD_some,
    Bool.and_true]
  rw [if_neg (by simpa [and_assoc] using h1), if_neg (by simpa using h2), if_pos trivial]

theorem toStep_first (hf : ctx.isFirst = true) :
    toStep env ctx last ⟨some a, some 0, issuer⟩ next ci
      = make_BIXRPEndpointStep env ctx last a := by
  simp [toStep, hf, isAccount, hasCurrency, getCurrency, getAccountID]

theorem toStep_last (hf : ctx.isFirst = false) :
    toStep env ctx true (.ofAccount 0) (.ofAccount b) ci
      = make_BIXRPEndpointStep env ctx true b := by
  simp [toStep, hf, isBIXRPAccount, ofAccount, isAccount, hasCurrency, hasIssuer, getAccountID]

theorem turn_offer_account (ha : cur.account = none) :
    turn env ctx last cur (.ofAccount b) ci =
      if ci.account ≠ b ∧ b ≠ 0 then
        if ci.currency = 0 then
          if !last then .error (.ter temBAD_PATH) else make_BIXRPEndpointStep env ctx false b
        else
          make_DirectStepI env ctx false ci.account b ci.currency
      else
        .ok ctx := by
  have hc : (ci.account ≠ b && b ≠ 0) = true ↔ ci.account ≠ b ∧ b ≠ 0 := by
    rw [Bool.and_eq_true_iff, decide_eq_true_iff, decide_eq_true_iff]
  rw [← if_congr hc rfl rfl]
  simp only [turn, isAccount, isOffer, getAccountID, ofAccount, ha]
  rfl

-- A book whose input is what was carried so far.
theorem make_BookStep_place {bookIn : Issue}
    (hc : carryAll ctx.result start = some (bookIn.account, i)) (he : i.eq bookIn = true)
    (ho : bookOut = updateIssue ci next) (hn : next.account = none) :
    Yields Refused (fun ctx' => Inv start ctx' (updateIssue ci next) next false)
      (make_BookStep env ctx bookIn bookOut) := by
  refine (make_BookStep_yields _ _).imp ?_
  rintro ctx' ⟨hr, hcons, _⟩
  subst ho
  refine ⟨.of_push hr, .offer hn ?_ ?_ ?_⟩
  · intro h
    simpa [isConsistent, h] using hcons
  · rw [hr, carryAll_push, hc]
    exact carry_book he
  · simp [hr]

-- What was carried when the next step takes the issue `ci`, where the native currency is without
-- an issuer.
def Carried (start : AccountID × Issue) (ctx : StrandContext) (ci : Issue) : Prop :=
  carryAll ctx.result start
    = if ci.currency = 0 then some (0, bixrpIssue) else some (ci.account, ci)

section

variable (hf : ctx.isFirst = true → cur.account ≠ none → cur.currency ≠ some 0)

include hf

theorem toStep_offer (ho : currency.isSome ∨ issuer.isSome) :
    toStep env ctx last cur ⟨none, currency, issuer⟩ ci =
      if ci.currency = 0 && currency.getD ci.currency = 0 then .error (.ter temBAD_PATH)
      else if currency.getD ci.currency = 0 then make_BookStepIX env ctx ci
      else if ci.currency = 0 then
        make_BookStepXI env ctx ⟨currency.getD ci.currency, issuer.getD ci.account⟩
      else
        make_BookStepII env ctx ci ⟨currency.getD ci.currency, issuer.getD ci.account⟩ := by
  have h1 : ¬(ctx.isFirst = true ∧ cur.isAccount = true ∧ cur.hasCurrency = true
      ∧ cur.getCurrency = 0) :=
    fun ⟨h, ha, hc⟩ => not_setsNative (hf h (isSome_iff_ne_none.mp ha)) hc
  have h5 : ¬(currency.isNone = true ∧ issuer.isNone = true) := by
    rintro ⟨hc, hi⟩
    simp_all
  unfold toStep
  rw [if_neg (by simpa [and_assoc] using h1), if_neg (by simp [isAccount]),
    if_neg (by simp [isAccount]), if_neg (by simp [isAccount]),
    if_neg (by simpa [hasCurrency, hasIssuer] using h5)]
  rfl

theorem toStep_offer_yields (hc : Carried start ctx ci) (ho : currency.isSome ∨ issuer.isSome) :
    Yields Refused
      (fun ctx' => Inv start ctx' (updateIssue ci ⟨none, currency, issuer⟩)
        ⟨none, currency, issuer⟩ false)
      (toStep env ctx last cur ⟨none, currency, issuer⟩ ci) := by
  rw [toStep_offer hf ho]
  split
  case isTrue => simp
  case isFalse hn =>
    split
    case isTrue h0 =>
      -- The native currency is bought, which the book has to name.
      have hi : ci.currency ≠ 0 := by
        intro hi
        exact hn (Bool.and_eq_true_iff.mpr ⟨decide_eq_true hi, decide_eq_true h0⟩)
      have hcur : currency = some 0 := by
        cases currency
        case none => exact absurd h0 hi
        case some c => exact congrArg some h0
      rw [Carried, if_neg hi] at hc
      refine make_BookStep_place hc Issue.eq_self ?_ rfl
      simp [updateIssue, hcur, hasCurrency, getCurrency, bixrpIssue]
    case isFalse h0 =>
      have hout : (⟨currency.getD ci.currency, issuer.getD ci.account⟩ : Issue)
          = updateIssue ci ⟨none, currency, issuer⟩ :=
        updateIssue_offer h0
      split
      case isTrue hi =>
        rw [Carried, if_pos hi] at hc
        exact make_BookStep_place hc Issue.eq_self hout rfl
      case isFalse hi =>
        rw [Carried, if_neg hi] at hc
        exact make_BookStep_place hc Issue.eq_self hout rfl

end

-- Direct steps in an issued currency, and in the native one.

theorem make_DirectStepI_place (hs : ctx.Seen) (hi : ci.currency ≠ 0)
    (hc : carryAll ctx.result start = some (ci.account, ci)) :
    Yields Refused (fun ctx' => Inv start ctx' ⟨ci.currency, b⟩ (.ofAccount b) last)
      (make_DirectStepI env ctx l ci.account b ci.currency) := by
  refine (make_DirectStepI_yields hs _ _ _ _).imp ?_
  rintro ctx' ⟨hr, _, hb0⟩
  refine ⟨.of_push hr, .account hb0 hi rfl (by simp [ofAccount]) ?_⟩
  rw [hr, carryAll_push, hc]
  exact carry_direct

theorem make_DirectStepI_lost (hs : ctx.Seen) :
    Yields Refused (fun ctx' => Inv start ctx' ⟨0, b⟩ (.ofAccount b) false)
      (make_DirectStepI env ctx l a b 0) := by
  refine (make_DirectStepI_yields hs _ _ _ _).imp ?_
  rintro ctx' ⟨hr, _, hb0⟩
  exact ⟨.of_push hr, .lost (y := a) (z := b) rfl hb0 rfl (by simp [StrandContext.prevStep, hr])⟩

-- The turns, by the elements that they are between.

theorem turn_account_yields (h : Inv start ctx ci cur false) (hb : b = 0 → ci.currency = 0)
    (hl : last = true → ci.currency = 0 → cur = .ofAccount 0) :
    Yields Refused (fun ctx' => Inv start ctx' ⟨ci.currency, b⟩ (.ofAccount b) last)
      (turn env ctx last cur (.ofAccount b) ci) := by
  have ⟨hs, hp⟩ := h
  cases hp
  case account hnz hi he hsets hc =>
    rw [turn_accounts he (.inr rfl), toStep_accounts he (fun _ h => hsets 0 h rfl) (fun _ => hnz)]
    exact make_DirectStepI_place hs hi hc
  case offer he hnat hc hne =>
    rw [turn_offer_account he]
    split
    case isTrue hb' =>
      split
      case isTrue =>
        split
        case isTrue => simp
        refine (make_BIXRPEndpointStep_yields _ _).imp ?_
        rintro ctx' ⟨_, hf⟩
        simp [StrandContext.isFirst, hne] at hf
      case isFalse hi => exact make_DirectStepI_place hs hi hc
    case isFalse hb' =>
      refine ⟨hs, ?_⟩
      by_cases hi : ci.currency = 0
      case pos =>
        have hlast : last = false := by
          cases last
          case false => rfl
          case true => simp [hl rfl hi, ofAccount] at he
        have hb0 : b = 0 := by
          by_contra hb0
          exact hb' ⟨fun h => hb0 (h ▸ hnat hi), hb0⟩
        subst hlast hb0
        exact .native rfl (by rw [hi]) (by rw [hc, Issue.eq_bixrpIssue hi (hnat hi)]; rfl) hne
      case neg =>
        have hb0 : b ≠ 0 := fun h => hi (hb h)
        have hab : ci.account = b := by
          by_contra h
          exact hb' ⟨h, hb0⟩
        subst hab
        exact .account hb0 hi rfl (by simp [ofAccount]) hc
  case first he hi hn hnz hst =>
    have hlast : last = false := by
      cases last
      case false => rfl
      case true =>
        have hcur := he.symm.trans (hl rfl (by rw [hi]; rfl))
        simp [ofAccount] at hcur
    subst hlast hi he
    rw [turn_accounts rfl (.inl rfl), toStep_first (by simp [StrandContext.isFirst, hn])]
    refine (make_BIXRPEndpointStep_yields _ _).imp ?_
    rintro ctx' ⟨hr, _⟩
    refine ⟨.of_push hr, .native rfl rfl ?_ (by simp [hr])⟩
    rw [hr, carryAll_push, hn]
    have ⟨src, i⟩ := start
    cases hst
    exact carry_endpoint_first
  case native a he hi hc hne =>
    subst he hi
    rw [turn_accounts rfl (.inl rfl)]
    cases last
    case false =>
      rw [toStep_accounts rfl (by simp [ofAccount]) (by simp)]
      exact make_DirectStepI_lost hs
    have ha : a = 0 := by simpa [ofAccount] using hl rfl rfl
    subst ha
    rw [toStep_last (by simp [StrandContext.isFirst, hne])]
    refine (make_BIXRPEndpointStep_yields _ _).imp ?_
    rintro ctx' ⟨hr, _⟩
    refine ⟨.of_push hr, .arrived rfl rfl ?_⟩
    rw [hr, carryAll_push, hc]
    exact carry_endpoint_last
  case lost a y z he hnz hi hprev =>
    subst he hi
    have hlast : last = false := by
      cases last
      case false => rfl
      case true => exact absurd (by simpa [ofAccount] using hl rfl rfl) hnz
    subst hlast
    rw [turn_accounts rfl (.inl rfl), toStep_accounts rfl (by simp [ofAccount]) (by simp)]
    exact make_DirectStepI_lost hs

theorem turn_offer_yields (hline : ∀ y, env.view.read (.line y 0 0) = none)
    (h : Inv start ctx ci cur false) (ho : currency.isSome ∨ issuer.isSome) :
    Yields Refused
      (fun ctx' => Inv start ctx' (updateIssue ci ⟨none, currency, issuer⟩)
        ⟨none, currency, issuer⟩ false)
      (turn env ctx last cur ⟨none, currency, issuer⟩ ci) := by
  have ⟨hs, hp⟩ := h
  cases hp
  case account hnz hi he hsets hc =>
    rw [turn_account_offer he]
    exact toStep_offer_yields (fun _ _ h => hsets 0 h rfl) (by rw [Carried, if_neg hi, hc]) ho
  case offer he hnat hc hne =>
    rw [turn_offers he]
    refine toStep_offer_yields (fun _ h => absurd he h) ?_ ho
    rw [Carried, hc]
    split
    case isTrue hi => rw [Issue.eq_bixrpIssue hi (hnat hi)]; rfl
    case isFalse hi => rfl
  case first he hi hn hnz hst =>
    subst hi he
    -- The implied account would be the one that nobody has.
    have hturn : turn env ctx last ⟨some start.1, some 0, some 0⟩ ⟨none, currency, issuer⟩ bixrpIssue
        = make_DirectStepI env ctx false start.1 0 0 >>= fun ctx =>
          step env ctx last (.ofAccount 0) ⟨none, currency, issuer⟩ bixrpIssue := by
      have hne := hnz.symm
      exact if_pos hne
    rw [hturn]
    exact (make_DirectStepI_yields hs _ _ _ _).bind fun _ h => absurd rfl h.right.right
  case native a he hi hc hne =>
    subst he hi
    rw [turn_account_offer rfl]
    exact toStep_offer_yields (by simp [ofAccount]) (by rw [Carried, hc]; rfl) ho
  case lost a y z he hnz hi hprev =>
    subst he hi
    rw [turn_account_offer rfl, toStep_offer (by simp [ofAccount]) ho]
    split
    case isTrue => simp
    case isFalse hn =>
      rw [if_neg (fun h => hn (Bool.and_eq_true_iff.mpr ⟨decide_eq_true rfl, decide_eq_true h⟩)),
        if_pos rfl]
      refine (make_BookStep_yields _ _).imp ?_
      rintro ctx' ⟨_, _, hread⟩
      exact absurd (hline y) (hread y (by rw [hprev]; rfl))

end Turn

end PaySteps
