import Bixd.Paths.Theorems.PaySteps

open Except List Option

namespace PaySteps

open PathElement

-- The shape of a normalized path after its source.
section Shape

variable {l : List PathElement}

-- The currency after a path that starts with the currency `c`.
def currencyAfter (c : Currency) (l : List PathElement) : Currency :=
  l.foldl (fun c e => e.currency.getD c) c

@[simp]
theorem currencyAfter_nil : currencyAfter c [] = c :=
  rfl

@[simp]
theorem currencyAfter_cons :
    currencyAfter c (e :: l) = currencyAfter (e.currency.getD c) l :=
  rfl

theorem currencyAfter_append : currencyAfter c (l ++ t) = currencyAfter (currencyAfter c l) t :=
  foldl_append

def Fits : Currency → List PathElement → Prop
  | _, []     => True
  | c, e :: l => Regular c e ∧ Fits (e.currency.getD c) l

theorem fits_append : Fits c (l ++ t) ↔ Fits c l ∧ Fits (currencyAfter c l) t := by
  induction l generalizing c
  case nil => simp [Fits]
  case cons e l ih => simp [Fits, ih, and_assoc]

theorem Fits.eq_ofAccount (h : Fits c l) (he : e ∈ l) (ha : e.account = some a) :
    e = .ofAccount a := by
  induction l generalizing c
  case nil => cases he
  case cons e' l ih =>
    cases he
    case tail he => exact ih h.right he
    cases h.left
    case account => exact congrArg _ (some.inj ha)
    case offer => cases ha

theorem updateIssue_currency (ci : Issue) (e : PathElement) :
    (updateIssue ci e).currency = e.currency.getD ci.currency := by
  have ⟨account, currency, issuer⟩ := e
  cases currency
  case none => rfl
  case some c => rfl

end Shape

section Turns

variable {start : AccountID × Issue} {dst : AccountID} {currency : Currency}

-- A path ends at `dst`. The native currency comes there from the account that nobody has.
structure Ends (dst : AccountID) (currency : Currency) (l : List PathElement) : Prop where
  last   : l.getLast? = some (.ofAccount dst)
  native : currency = 0 → 2 ≤ l.length → ∃ p, l = p ++ [.ofAccount 0, .ofAccount dst]

theorem Ends.tail (h : Ends dst currency (cur :: e :: l)) : Ends dst currency (e :: l) where
  last := by simpa using h.last
  native h0 hl := by
    have ⟨p, hp⟩ := h.native h0 (by simp)
    cases p
    case nil =>
      have hlen := congrArg length hp
      simp only [length_cons, nil_append, length_nil] at hlen hl
      omega
    case cons e p => exact ⟨p, (cons.inj hp).right⟩

theorem Place.at_end (h : Place start ctx ci (.ofAccount dst) true) :
    carryAll ctx.result start = some (dst, ⟨ci.currency, dst⟩) := by
  cases h
  case account _ _ he _ hc =>
    have hd := some.inj he
    rw [hc, hd]
  case arrived a he hi hc =>
    have hd : dst = a := by simpa [ofAccount] using he
    rw [hc, hi, hd]

theorem turns_yields [Digest] {env : StrandEnv} (hline : ∀ y, env.view.read (.line y 0 0) = none)
    (rest : List PathElement) :
    ∀ {ctx : StrandContext} {ci : Issue} {cur : PathElement},
      Inv start ctx (updateIssue ci cur) cur rest.isEmpty →
      Fits (updateIssue ci cur).currency rest →
      currencyAfter (updateIssue ci cur).currency rest = currency →
      Ends dst currency (cur :: rest) →
      Yields Refused (fun ctx' => carryAll ctx'.result start = some (dst, ⟨currency, dst⟩))
        (turns env ctx ci (cur :: rest)) := by
  induction rest
  case nil =>
    intro ctx ci cur hi _ hc he
    have hcur : cur = .ofAccount dst := by simpa using he.last
    subst hcur hc
    exact hi.place.at_end
  case cons next rest ih =>
    intro ctx ci cur hi hf hc he
    rw [currencyAfter_cons, ← updateIssue_currency] at hc
    rw [Fits, ← updateIssue_currency] at hf
    refine Yields.bind (P := fun ctx' => Inv start ctx' (updateIssue (updateIssue ci cur) next) next
      rest.isEmpty) ?_ fun ctx' hi' => ih hi' hf.right hc he.tail
    cases rest
    case nil =>
      -- The last turn is into the destination.
      have hnext : next = .ofAccount dst := by simpa using he.last
      subst hnext
      cases hf.left
      case account hb =>
        refine turn_account_yields hi hb fun _ h0 => ?_
        have ⟨p, hp⟩ := he.native (hc ▸ h0) (by simp)
        cases p
        case nil => exact (cons.inj hp).left
        case cons e p =>
          have hlen := congrArg length hp
          simp only [length_cons, cons_append, length_append, length_nil] at hlen
          omega
    case cons next' rest =>
      cases hf.left
      case account hb => exact turn_account_yields hi hb fun h => by cases h
      case offer ho => exact turn_offer_yields hline hi ho

end Turns

section Normalize

variable {dst : AccountID} {deliver : Issue}
variable {path l : List PathElement}

theorem regular_of_not_badElement (h : badElement e = false) : Regular c e := by
  obtain ⟨account, currency, issuer⟩ := e
  cases account
  case none =>
    refine .offer ?_
    cases currency
    case some => exact .inl rfl
    cases issuer
    case some => exact .inr rfl
    case none => simp [badElement, isAccount, hasIssuer, hasCurrency] at h
  case some a =>
    simp only [badElement, isAccount, hasIssuer, hasCurrency, getAccountID, isSome_some,
      getD_some, Bool.true_and, Bool.or_eq_false_iff,
      isSome_eq_false_iff, isNone_iff_eq_none] at h
    obtain ⟨⟨⟨⟨⟨⟨_, hi, hc⟩, _⟩, ha⟩, _⟩, _⟩, _⟩ := h
    subst hi hc
    exact .account fun h0 => absurd h0 (of_decide_eq_false ha)

theorem fits_of_not_badElement (h : path.any badElement = false) : Fits c path := by
  induction path generalizing c
  case nil => trivial
  case cons e path ih =>
    rw [any_cons, Bool.or_eq_false_iff] at h
    exact ⟨regular_of_not_badElement h.left, ih h.right⟩

-- What the checks of the input leave.
structure Input (src dst : AccountID) (deliver : Issue) (sendMaxIssue : Option Issue)
    (path : List PathElement) : Prop where
  src     : src ≠ 0
  dst     : dst ≠ 0
  deliver : deliver.currency = 0 ↔ deliver.account = 0
  sendMax : ∀ i ∈ sendMaxIssue, i.currency = 0 ↔ i.account = 0
  path    : path.any badElement = false

theorem input_of_not_badInput (h : badInput src dst deliver sendMaxIssue path = false) :
    Input src dst deliver sendMaxIssue path := by
  simp only [badInput, Bool.or_eq_false_iff, decide_eq_false_iff_not, Bool.not_eq_false'] at h
  have ⟨⟨⟨⟨⟨⟨⟨⟨hs, hd⟩, hc⟩, hm⟩, _⟩, _⟩, _⟩, _⟩, hp⟩ := h
  refine ⟨hs, hd, by simpa [isConsistent] using hc, ?_, hp⟩
  rintro i hi
  rw [mem_def] at hi
  simpa [hi, isConsistent] using hm

theorem lastCurrency_cons {s : PathElement} (hs : s.currency = some c) :
    (lastCurrency (s :: l)).getCurrency = currencyAfter c l := by
  induction l using reverseRecOn
  case nil => simp [lastCurrency, hasCurrency, getCurrency, hs]
  case append_singleton l e ih =>
    rw [currencyAfter_append]
    cases he : e.currency
    case some c' => simp [lastCurrency, hasCurrency, getCurrency, he]
    case none => simpa [lastCurrency, hasCurrency, he] using ih

-- The last element of a path that ends with an account is that account, unless it is the source.
theorem eq_append_of_endsWith {s : PathElement} (hf : Fits c l) (hs : s.account ≠ some a ∨ l ≠ [])
    (h : endsWith (s :: l) a = true) : ∃ p, s :: l = p ++ [.ofAccount a] := by
  induction l using reverseRecOn
  case nil =>
    exfalso
    simp only [endsWith, isAccount, getAccountID, getLast?_singleton, any_some,
      Bool.and_eq_true] at h
    obtain ⟨x, hx⟩ := isSome_iff_exists.mp h.left
    have hxa : x = a := by simpa [hx] using h.right
    exact hs.elim (fun hn => hn (hxa ▸ hx)) (fun hn => hn rfl)
  case append_singleton l e _ =>
    have hlast : (s :: (l ++ [e])).getLast? = some e := by
      rw [← cons_append, getLast?_concat]
    rw [endsWith, hlast] at h
    simp only [isAccount, getAccountID, any_some, Bool.and_eq_true] at h
    obtain ⟨x, hx⟩ := isSome_iff_exists.mp h.left
    have hxa : x = a := by simpa [hx] using h.right
    exact ⟨s :: l, by rw [← hf.eq_ofAccount (by simp) (hxa ▸ hx)]; rfl⟩

-- The elements that are added one after another.

theorem fits_sendMaxElement (h : Input src dst deliver sendMaxIssue path) :
    Fits (startIssue src deliver sendMaxIssue).currency (sendMaxElement src sendMaxIssue path) ∧
    currencyAfter (startIssue src deliver sendMaxIssue).currency
        (sendMaxElement src sendMaxIssue path)
      = (startIssue src deliver sendMaxIssue).currency := by
  cases sendMaxIssue
  case none => exact ⟨trivial, rfl⟩
  case some i =>
    unfold sendMaxElement
    dsimp only
    split
    case isFalse => exact ⟨trivial, rfl⟩
    refine ⟨⟨.account fun h0 => ?_, trivial⟩, rfl⟩
    have hc := (h.sendMax i rfl).mpr h0
    simp [startIssue, hc, bixrpIssue]

theorem fits_deliverBook {s : PathElement} (hs : s.currency = some c) (h : Fits c l) :
    Fits c (l ++ deliverBook deliver offerCrossing (s :: l)) ∧
    currencyAfter c (l ++ deliverBook deliver offerCrossing (s :: l)) = deliver.currency := by
  rw [fits_append, currencyAfter_append]
  unfold deliverBook
  dsimp only
  split
  case isTrue => exact ⟨⟨h, .offer (.inl rfl), trivial⟩, rfl⟩
  case isFalse hn =>
    rw [lastCurrency_cons hs] at hn
    refine ⟨⟨h, trivial⟩, ?_⟩
    by_contra hne
    exact hn (Bool.or_eq_true_iff.mpr (.inl (decide_eq_true hne)))

theorem fits_deliverAccount (hd : deliver.currency = 0 ↔ deliver.account = 0) (h : Fits c l)
    (hc : currencyAfter c l = deliver.currency) :
    Fits c (l ++ deliverAccount dst deliver (s :: l)) ∧
    currencyAfter c (l ++ deliverAccount dst deliver (s :: l)) = deliver.currency := by
  rw [fits_append, currencyAfter_append, hc]
  unfold deliverAccount
  split
  case isTrue => exact ⟨⟨h, trivial⟩, rfl⟩
  case isFalse => exact ⟨⟨h, .account hd.mpr, trivial⟩, rfl⟩

theorem deliverAccount_native {s : PathElement} (hs : s.account ≠ some 0) (hdst : dst ≠ 0)
    (hd : deliver.account = 0) (h : Fits c l) :
    ∃ p, s :: (l ++ deliverAccount dst deliver (s :: l)) = p ++ [.ofAccount 0] := by
  unfold deliverAccount
  rw [hd]
  split
  case isFalse => exact ⟨s :: l, rfl⟩
  case isTrue he =>
    have he := (Bool.or_eq_true_iff.mp he).resolve_right (fun h0 => hdst (of_decide_eq_true h0))
    have ⟨p, hp⟩ := eq_append_of_endsWith h (.inl hs) he
    exact ⟨p, by rw [append_nil, hp]⟩

theorem fits_dstAccount (hdst : dst ≠ 0) (h : Fits c l) :
    Fits c (l ++ dstAccount dst (s :: l)) ∧
    currencyAfter c (l ++ dstAccount dst (s :: l)) = currencyAfter c l := by
  rw [fits_append, currencyAfter_append]
  unfold dstAccount
  split
  case isTrue => exact ⟨⟨h, trivial⟩, rfl⟩
  case isFalse => exact ⟨⟨h, .account fun h0 => absurd h0 hdst, trivial⟩, rfl⟩

theorem ends_dstAccount (hdst : dst ≠ 0) (h : Fits c l)
    (hn : deliver.currency = 0 → ∃ p, s :: l = p ++ [.ofAccount 0])
    (hne : l ++ dstAccount dst (s :: l) ≠ []) :
    Ends dst deliver.currency (s :: (l ++ dstAccount dst (s :: l))) := by
  by_cases he : endsWith (s :: l) dst = true
  case neg =>
    rw [dstAccount, if_neg he] at *
    refine ⟨by rw [← cons_append, getLast?_concat], fun h0 _ => ?_⟩
    have ⟨p, hp⟩ := hn h0
    exact ⟨p, by rw [← cons_append, hp]; simp⟩
  case pos =>
    rw [dstAccount, if_pos he, append_nil] at *
    have ⟨p, hp⟩ := eq_append_of_endsWith h (.inr hne) he
    refine ⟨by rw [hp, getLast?_concat], fun h0 _ => ?_⟩
    -- The path would end with two accounts at once.
    have ⟨p', hp'⟩ := hn h0
    have hlast : ofAccount dst = .ofAccount 0 := by
      have hl := congrArg getLast? (hp.symm.trans hp')
      simpa only [getLast?_concat, some.injEq] using hl
    exact absurd (by simpa [ofAccount] using hlast) hdst

-- The element of the source, which sets the first currency.
def srcElement (src : AccountID) (start : Issue) : PathElement :=
  ⟨some src, some start.currency, some start.account⟩

theorem normalize_shape (offerCrossing : Bool) (hst : start = startIssue src deliver sendMaxIssue)
    (h : Input src dst deliver sendMaxIssue path) :
    ∃ l, normalize src dst deliver sendMaxIssue path offerCrossing = srcElement src start :: l ∧
      Fits start.currency l ∧ currencyAfter start.currency l = deliver.currency ∧
      (l ≠ [] → Ends dst deliver.currency (srcElement src start :: l)) := by
  subst hst
  let start := startIssue src deliver sendMaxIssue
  let s := srcElement src start
  let l₁ := sendMaxElement src sendMaxIssue path ++ path
  let l₂ := l₁ ++ deliverBook deliver offerCrossing (s :: l₁)
  let l₃ := l₂ ++ deliverAccount dst deliver (s :: l₂)
  have h₁ := fits_append.mpr ⟨(fits_sendMaxElement h).left, fits_of_not_badElement h.path⟩
  have h₂ : Fits start.currency l₂ ∧ currencyAfter start.currency l₂ = deliver.currency :=
    fits_deliverBook rfl h₁
  have h₃ : Fits start.currency l₃ ∧ currencyAfter start.currency l₃ = deliver.currency :=
    fits_deliverAccount h.deliver h₂.left h₂.right
  have hn : deliver.currency = 0 → ∃ p, s :: l₃ = p ++ [.ofAccount 0] := fun h0 =>
    deliverAccount_native (fun hs => h.src (some.inj hs)) h.dst (h.deliver.mp h0) h₂.left
  have h₄ := fits_dstAccount (s := s) h.dst h₃.left
  exact ⟨l₃ ++ dstAccount dst (s :: l₃), rfl, h₄.left, h₄.right.trans h₃.right,
    ends_dstAccount h.dst h₃.left hn⟩

end Normalize

-- A strand as a chain of steps, each of which takes over the account and the issue that the step
-- before it left.
inductive Chain : AccountID → Issue → List Step → AccountID → Issue → Prop
  | nil {a : AccountID} {i : Issue} : Chain a i [] a i
  | direct {s : Step} {a b z : AccountID} {i j : Issue} {l : List Step}
      (accts : s.directStepAccts = some (a, b)) (rest : Chain b { i with account := b } l z j) :
      Chain a i (s :: l) z j
  | book {i bookIn bookOut j : Issue} {z : AccountID} {l : List Step}
      (carried : i.eq bookIn = true) (rest : Chain bookOut.account bookOut l z j) :
      Chain bookIn.account i (.book bookIn bookOut :: l) z j

theorem carryAll_none {l : List Step} :
    l.foldl (fun at_ s => at_.bind (carry s)) none = none := by
  induction l
  case nil => rfl
  case cons s l ih => simpa using ih

theorem chain_of_carryAll (h : carryAll l (a, i) = some (z, j)) : Chain a i l z j := by
  induction l generalizing a i
  case nil =>
    cases h
    exact .nil
  case cons s l ih =>
    rw [carryAll, foldl_cons, bind_some] at h
    cases hc : carry s (a, i)
    case none => rw [hc, carryAll_none] at h; cases h
    case some at_ =>
      rw [hc] at h
      rw [carry] at hc
      obtain ⟨ha, hc⟩ := Option.ite_none_left_eq_some.mp hc
      have ha : s.stepAccts.1 = a := by simpa using ha
      cases s
      case book bookIn bookOut =>
        simp only [Step.bookStepBook] at hc
        split at hc
        case isTrue => cases hc
        case isFalse he =>
          cases hc
          subst ha
          exact .book (by simpa using he) (ih h)
      case direct src dst c =>
        cases hc
        subst ha
        exact .direct rfl (ih h)
      case endpoint acc isLast =>
        cases hc
        subst ha
        exact .direct rfl (ih h)

theorem inv_start (hsrc : src ≠ 0) (deliver : Issue) (sendMaxIssue : Option Issue) :
    let start := startIssue src deliver sendMaxIssue
    Inv (src, start) ⟨[], [], [], []⟩ (updateIssue start (srcElement src start))
      (srcElement src start) false := by
  intro start
  refine ⟨fun h => absurd rfl h, ?_⟩
  by_cases h0 : (sendMaxIssue.getD deliver).currency = 0
  case pos =>
    have hst : start = bixrpIssue := if_pos h0
    rw [hst]
    exact .first rfl rfl rfl hsrc rfl
  case neg =>
    have hst : start = ⟨(sendMaxIssue.getD deliver).currency, src⟩ := if_neg h0
    have hup : updateIssue start (srcElement src start) = start := by
      rw [hst]
      exact congrArg (Issue.mk _) (if_neg h0)
    rw [hup]
    refine .account ?_ ?_ ?_ ?_ ?_
    · rwa [hst]
    · rwa [hst]
    · rw [hst]; rfl
    · rintro c hc rfl
      rw [hst] at hc
      exact h0 (some.inj hc)
    · rw [hst]; rfl

theorem checkStrand_of_carryAll (h : carryAll strand (src, startIssue src deliver sendMaxIssue)
      = some (dst, ⟨deliver.currency, dst⟩)) :
    checkStrand src dst deliver sendMaxIssue strand = true := by
  simp [checkStrand, h]

section

variable [Digest]

theorem toStrand_yields {env : StrandEnv} (hline : ∀ y, env.view.read (.line y 0 0) = none)
    (src dst : AccountID) (deliver : Issue) (sendMaxIssue : Option Issue)
    (path : List PathElement) :
    Yields Refused (fun strand => carryAll strand (src, startIssue src deliver sendMaxIssue)
        = some (dst, ⟨deliver.currency, dst⟩))
      (toStrand env src dst deliver sendMaxIssue path) := by
  refine (reject_yields _ _).bind fun _ hbad => (reject_yields _ _).bind fun _ hlen => ?_
  have hin := input_of_not_badInput hbad
  have ⟨l, hl, hfits, hcur, hends⟩ := normalize_shape env.offerCrossing rfl hin
  rw [hl] at hlen ⊢
  have hne : l ≠ [] := by
    rintro rfl
    simp at hlen
  have hinv := inv_start hin.src deliver sendMaxIssue
  rw [← isEmpty_eq_false_iff.mpr hne] at hinv
  have hci := updateIssue_currency (startIssue src deliver sendMaxIssue)
    (srcElement src (startIssue src deliver sendMaxIssue))
  refine (turns_yields hline l hinv (hci ▸ hfits) (hci ▸ hcur) (hends hne)).bind fun ctx hc => ?_
  rw [if_pos (checkStrand_of_carryAll hc)]
  exact hc

-- Whatever is asked for, no assertion of `toStrand` fails, and a strand that is made is connected
-- and delivers what it should. No account has a trust line for the native currency with the account
-- that nobody has.
theorem toStrand_connected (env : StrandEnv) (hline : ∀ y, env.view.read (.line y 0 0) = none)
    (src dst : AccountID) (deliver : Issue) (sendMaxIssue : Option Issue)
    (path : List PathElement) :
    toStrand env src dst deliver sendMaxIssue path ≠ .error .assertion ∧
    ∀ strand, toStrand env src dst deliver sendMaxIssue path = .ok strand →
      checkStrand src dst deliver sendMaxIssue strand = true ∧
      ∃ final, Chain src (startIssue src deliver sendMaxIssue) strand dst final ∧
        final.currency = deliver.currency ∧
        (final.account = deliver.account ∨ final.account = dst) := by
  have h := toStrand_yields hline src dst deliver sendMaxIssue path
  refine ⟨h.of_eq_error, fun strand hs => ?_⟩
  have hc := h.of_eq_ok hs
  exact ⟨checkStrand_of_carryAll hc, _, chain_of_carryAll hc, rfl, .inr rfl⟩

end

section

attribute [local instance] shortDigest

-- A ledger in which every account is and no trust line, where an offer crosses the books.
def accountsEnv : StrandEnv where
  view :=
    { info := ⟨1, 0, 0, 0, 0, 0⟩
      isOpen := true
      rules := fun _ => false
      exists_ := fun k => k.type = .ltACCOUNT_ROOT
      succ := fun _ _ => none
      read := fun k => if k.type = .ltACCOUNT_ROOT then some ⟨k.key, k.type, fun _ => none⟩ else none }
  offerCrossing := true
  fix1781 := true
  dry := fun _ _ _ => false

-- Drops buy a currency of the account 4, which then issues it to the destination.
theorem toStrand_connected_accountsEnv :
    toStrand accountsEnv 2 3 ⟨5, 4⟩ (some bixrpIssue) []
      = .ok [.endpoint 2 false, .book bixrpIssue ⟨5, 4⟩, .direct 4 3 5] ∧
    (∀ y, accountsEnv.view.read (.line y 0 0) = none) ∧
    ∃ final, Chain 2 bixrpIssue
        [.endpoint 2 false, .book bixrpIssue ⟨5, 4⟩, .direct 4 3 5] 3 final ∧
      final.currency = 5 ∧ (final.account = 4 ∨ final.account = 3) := by
  have hrun : toStrand accountsEnv 2 3 ⟨5, 4⟩ (some bixrpIssue) []
      = .ok [.endpoint 2 false, .book bixrpIssue ⟨5, 4⟩, .direct 4 3 5] := by
    decide +kernel
  have hline : ∀ y, accountsEnv.view.read (.line y 0 0) = none := fun _ => rfl
  exact ⟨hrun, hline, ((toStrand_connected accountsEnv hline 2 3 ⟨5, 4⟩ (some bixrpIssue) []).right _
    hrun).right⟩

end

end PaySteps
