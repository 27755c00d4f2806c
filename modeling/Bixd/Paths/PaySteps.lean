import Bixd.Ledger.TrustLine

-- The steps of a strand, and how a strand is made from a path of a payment.

def temBAD_PATH      : TER := -291
def temBAD_PATH_LOOP : TER := -290
def terNO_AUTH       : TER := -95
def terNO_LINE       : TER := -94
def terNO_BIXD       : TER := -90
def tecNO_ISSUER     : TER := 133

namespace PaySteps

-- An account, or an order book that is told by a new currency, a new issuer or both. An element
-- without an account is an offer.
structure PathElement where
  account  : Option AccountID
  currency : Option Currency
  issuer   : Option AccountID
  deriving DecidableEq

namespace PathElement

def ofAccount (a : AccountID) : PathElement := ⟨some a, none, none⟩

def isAccount    (e : PathElement) : Bool      := e.account.isSome
def isOffer      (e : PathElement) : Bool      := !e.isAccount
def hasCurrency  (e : PathElement) : Bool      := e.currency.isSome
def hasIssuer    (e : PathElement) : Bool      := e.issuer.isSome
def getAccountID (e : PathElement) : AccountID := e.account.getD 0
def getCurrency  (e : PathElement) : Currency  := e.currency.getD 0
def getIssuerID  (e : PathElement) : AccountID := e.issuer.getD 0

end PathElement

open PathElement

inductive Step
  | direct   (src dst : AccountID) (currency : Currency)
  | endpoint (acc : AccountID) (isLast : Bool)
  | book     (bookIn bookOut : Issue)
  deriving DecidableEq

namespace Step

def directStepAccts : Step → Option (AccountID × AccountID)
  | direct src dst _ => some (src, dst)
  | endpoint acc isLast => some (if isLast then (0, acc) else (acc, 0))
  | book _ _ => none

def directStepSrcAcct : Step → Option AccountID
  | direct src _ _ => some src
  | _ => none

def bookStepBook : Step → Option (Issue × Issue)
  | book bookIn bookOut => some (bookIn, bookOut)
  | _ => none

-- The accounts between which a step moves value. Every step is a direct step or a book.
def stepAccts (s : Step) : AccountID × AccountID :=
  match s.directStepAccts, s.bookStepBook with
  | some r, _      => r
  | none,   some b => (b.1.account, b.2.account)
  | none,   none   => (0, 0)

end Step

-- A strand is refused with a code, or an assertion fails.
inductive StrandError
  | ter (t : TER)
  | assertion
  deriving DecidableEq

-- What does not change while a strand is made.
structure StrandEnv where
  view : ReadView
  offerCrossing : Bool
  fix1781 : Bool
  -- The lines whose limit is used up.
  dry : AccountID → AccountID → Currency → Bool

-- The steps so far, and the issues that they used up: by the sources and by the destinations of
-- direct steps, and by the outputs of books.
structure StrandContext where
  result : List Step
  seenDirectSrcs : List Issue
  seenDirectDsts : List Issue
  seenBookOuts : List Issue

namespace StrandContext

def isFirst (ctx : StrandContext) : Bool := ctx.result.isEmpty

def prevStep (ctx : StrandContext) : Option Step := ctx.result.getLast?

def push (ctx : StrandContext) (s : Step) : StrandContext :=
  { ctx with result := ctx.result ++ [s] }

end StrandContext

def count (seen : List Issue) (i : Issue) : Bool :=
  seen.any (Issue.eq i)

-- An issue that is seen twice makes a loop.
def insertSeen (seen : List Issue) (i : Issue) : Except StrandError (List Issue) :=
  if count seen i then .error (.ter temBAD_PATH_LOOP) else .ok (i :: seen)

def isConsistent (i : Issue) : Bool :=
  (i.currency = 0) = (i.account = 0)

-- Refuses a strand for which a check fails.
def reject (b : Bool) (t : TER) : Except StrandError Unit :=
  if b then .error (.ter t) else .ok ()

section Checks

variable [Digest] (env : StrandEnv)

def checkFreeze (src dst : AccountID) (currency : Currency) : Except StrandError Unit := do
  reject ((env.view.read (.account dst)).any (·.isFlag lsfGlobalFreeze)) terNO_LINE
  reject ((env.view.read (.line src dst currency)).any
    (·.isFlag (TrustLine.lsfFreeze (dst > src)))) terNO_LINE

-- Whether `cur` has set its flag against rippling on its line with `other`.
def noBixd (line : SLE) (cur other : AccountID) : Bool :=
  line.getFlags &&& TrustLine.lsfNoBixd (cur > other) ≠ 0

def checkNoBixd (prev cur next : AccountID) (currency : Currency) : Except StrandError Unit :=
  match env.view.read (.line prev cur currency), env.view.read (.line cur next currency) with
  | some sleIn, some sleOut => reject (noBixd sleIn cur prev && noBixd sleOut cur next) terNO_BIXD
  | _, _ => .error (.ter terNO_LINE)

-- The book whose output is spent has to be the step before.
def checkSeenBook (ctx : StrandContext) (srcIssue : Issue) : Except StrandError Unit :=
  if count ctx.seenBookOuts srcIssue then
    match ctx.prevStep with
    | none   => .error .assertion
    | some s => reject (s.bookStepBook.any fun b => !b.2.eq srcIssue) temBAD_PATH_LOOP
  else
    .ok ()

-- What a payment asks for of the trust line of a direct step.
def DirectIPaymentStep.check (ctx : StrandContext) (sleSrc : SLE) (src dst : AccountID)
    (currency : Currency) : Except StrandError Unit :=
  match env.view.read (.line src dst currency) with
  | none => .error (.ter terNO_LINE)
  | some sleLine => do
    reject (sleSrc.getFlags &&& lsfRequireAuth ≠ 0 &&
      sleLine.getFlags &&& TrustLine.lsfAuth (src > dst) = 0 &&
      (sleLine.getFieldAmount sfBalance).signum = 0) terNO_AUTH
    reject ((ctx.prevStep.any fun s => s.bookStepBook.isSome) && noBixd sleLine src dst) terNO_BIXD
    reject (env.dry src dst currency) tecPATH_DRY

namespace DirectStepI

-- A step that only issues or redeems cannot be frozen.
def checkFrozen (ctx : StrandContext) (isLast : Bool) (src dst : AccountID) (currency : Currency) :
    Except StrandError Unit :=
  if isLast && ctx.isFirst then .ok () else checkFreeze env src dst currency

def checkPrevStep (ctx : StrandContext) (src dst : AccountID) (currency : Currency) :
    Except StrandError Unit :=
  match ctx.prevStep.bind Step.directStepSrcAcct with
  | none => .ok ()
  | some prevSrc => checkNoBixd env prevSrc src dst currency

-- The checks of a payment and of offer crossing, which needs no trust line.
def checkDerived (ctx : StrandContext) (sleSrc : SLE) (src dst : AccountID) (currency : Currency) :
    Except StrandError Unit :=
  if env.offerCrossing then .ok () else DirectIPaymentStep.check env ctx sleSrc src dst currency

end DirectStepI

def make_DirectStepI (ctx : StrandContext) (isLast : Bool) (src dst : AccountID)
    (currency : Currency) : Except StrandError StrandContext := do
  reject (src = 0 || dst = 0) temBAD_PATH
  reject (src = dst) temBAD_PATH
  match env.view.read (.account src) with
  | none => .error (.ter terNO_ACCOUNT)
  | some sleSrc => do
    DirectStepI.checkFrozen env ctx isLast src dst currency
    DirectStepI.checkPrevStep env ctx src dst currency
    checkSeenBook ctx ⟨currency, src⟩
    let srcs ← insertSeen ctx.seenDirectSrcs ⟨currency, src⟩
    let dsts ← insertSeen ctx.seenDirectDsts ⟨currency, dst⟩
    DirectStepI.checkDerived env ctx sleSrc src dst currency
    let ctx := ctx.push (.direct src dst currency)
    return { ctx with seenDirectSrcs := srcs, seenDirectDsts := dsts }

def make_BIXRPEndpointStep (ctx : StrandContext) (isLast : Bool) (acc : AccountID) :
    Except StrandError StrandContext := do
  reject (acc = 0) temBAD_PATH
  reject (env.view.read (.account acc)).isNone terNO_ACCOUNT
  reject (!ctx.isFirst && !isLast) temBAD_PATH
  let (src, dst) := if isLast then (0, acc) else (acc, 0)
  checkFreeze env src dst 0
  let ctx' := ctx.push (.endpoint acc isLast)
  if env.fix1781 then
    if isLast then
      return { ctx' with seenDirectSrcs := ← insertSeen ctx.seenDirectSrcs bixrpIssue }
    else
      return { ctx' with seenDirectDsts := ← insertSeen ctx.seenDirectDsts bixrpIssue }
  else
    return ctx'

def issuerExists (iss : Issue) : Bool :=
  iss.account = 0 || (env.view.read (.account iss.account)).isSome

-- The account before a book lets its issuer ripple.
def checkBookLine (ctx : StrandContext) (bookIn : Issue) : Except StrandError Unit :=
  match ctx.prevStep.bind Step.directStepSrcAcct with
  | none      => .ok ()
  | some prev =>
    match env.view.read (.line prev bookIn.account bookIn.currency) with
    | none     => .error (.ter terNO_LINE)
    | some sle => reject (noBixd sle bookIn.account prev) terNO_BIXD

def make_BookStep (ctx : StrandContext) (bookIn bookOut : Issue) :
    Except StrandError StrandContext := do
  reject (bookIn.eq bookOut) temBAD_PATH
  reject (!isConsistent bookIn || !isConsistent bookOut) temBAD_PATH
  let outs ← insertSeen ctx.seenBookOuts bookOut
  reject (count ctx.seenDirectSrcs bookOut) temBAD_PATH_LOOP
  reject (count ctx.seenDirectDsts bookOut) temBAD_PATH_LOOP
  reject (!issuerExists env bookIn || !issuerExists env bookOut) tecNO_ISSUER
  checkBookLine env ctx bookIn
  return { ctx.push (.book bookIn bookOut) with seenBookOuts := outs }

def make_BookStepII (ctx : StrandContext) (bookIn bookOut : Issue) :
    Except StrandError StrandContext :=
  make_BookStep env ctx bookIn bookOut

def make_BookStepIX (ctx : StrandContext) (bookIn : Issue) : Except StrandError StrandContext :=
  make_BookStep env ctx bookIn bixrpIssue

def make_BookStepXI (ctx : StrandContext) (bookOut : Issue) : Except StrandError StrandContext :=
  make_BookStep env ctx bixrpIssue bookOut

end Checks

def isBIXRPAccount (e : PathElement) : Bool :=
  e.isAccount && !e.hasCurrency && !e.hasIssuer && e.getAccountID = 0

section

variable [Digest] (env : StrandEnv)

def toStep (ctx : StrandContext) (isLast : Bool) (e1 e2 : PathElement) (curIssue : Issue) :
    Except StrandError StrandContext :=
  if ctx.isFirst && e1.isAccount && e1.hasCurrency && e1.getCurrency = 0 then
    make_BIXRPEndpointStep env ctx isLast e1.getAccountID
  else if isLast && isBIXRPAccount e1 && e2.isAccount then
    make_BIXRPEndpointStep env ctx isLast e2.getAccountID
  else if e1.isAccount && e2.isAccount then
    make_DirectStepI env ctx isLast e1.getAccountID e2.getAccountID curIssue.currency
  else if e1.isOffer && e2.isAccount then
    .error .assertion
  else if !e2.hasCurrency && !e2.hasIssuer then
    .error .assertion
  else
    let outCurrency := e2.currency.getD curIssue.currency
    let outIssuer := e2.issuer.getD curIssue.account
    if curIssue.currency = 0 && outCurrency = 0 then .error (.ter temBAD_PATH)
    else if !e2.isOffer then .error .assertion
    else if outCurrency = 0 then make_BookStepIX env ctx curIssue
    else if curIssue.currency = 0 then make_BookStepXI env ctx ⟨outCurrency, outIssuer⟩
    else make_BookStepII env ctx curIssue ⟨outCurrency, outIssuer⟩

-- The issue at an element.
def updateIssue (curIssue : Issue) (cur : PathElement) : Issue :=
  let account :=
    if cur.isAccount then cur.getAccountID
    else if cur.hasIssuer then cur.getIssuerID
    else curIssue.account
  if cur.hasCurrency then
    ⟨cur.getCurrency, if cur.getCurrency = 0 then 0 else account⟩
  else
    ⟨curIssue.currency, account⟩

-- The step for two elements after each other. An account does not change the currency.
def step (ctx : StrandContext) (isLast : Bool) (cur next : PathElement) (curIssue : Issue) :
    Except StrandError StrandContext :=
  if !next.isOffer && next.hasCurrency && next.getCurrency ≠ curIssue.currency then
    .error .assertion
  else
    toStep env ctx isLast cur next curIssue

-- One turn of the loop, with the steps that are implied between two elements.
def turn (ctx : StrandContext) (isLast : Bool) (cur next : PathElement) (curIssue : Issue) :
    Except StrandError StrandContext :=
  if cur.isAccount && next.isAccount then
    if curIssue.currency ≠ 0 && curIssue.account ≠ cur.getAccountID &&
        curIssue.account ≠ next.getAccountID then do
      let ctx ← make_DirectStepI env ctx false cur.getAccountID curIssue.account curIssue.currency
      step env ctx isLast (.ofAccount curIssue.account) next curIssue
    else
      step env ctx isLast cur next curIssue
  else if cur.isAccount && next.isOffer then
    if curIssue.account ≠ cur.getAccountID then do
      let ctx ← make_DirectStepI env ctx false cur.getAccountID curIssue.account curIssue.currency
      step env ctx isLast (.ofAccount curIssue.account) next curIssue
    else
      step env ctx isLast cur next curIssue
  else if cur.isOffer && next.isAccount then
    if curIssue.account ≠ next.getAccountID && next.getAccountID ≠ 0 then
      if curIssue.currency = 0 then
        if !isLast then .error (.ter temBAD_PATH)
        else make_BIXRPEndpointStep env ctx false next.getAccountID
      else
        make_DirectStepI env ctx false curIssue.account next.getAccountID curIssue.currency
    else
      .ok ctx
  else
    step env ctx isLast cur next curIssue

def turns (ctx : StrandContext) (curIssue : Issue) :
    List PathElement → Except StrandError StrandContext
  | cur :: next :: rest => do
    let curIssue := updateIssue curIssue cur
    let ctx ← turn env ctx rest.isEmpty cur next curIssue
    turns ctx curIssue (next :: rest)
  | _ => .ok ctx

end

-- The issue with which a strand starts.
def startIssue (src : AccountID) (deliver : Issue) (sendMaxIssue : Option Issue) : Issue :=
  let currency := (sendMaxIssue.getD deliver).currency
  if currency = 0 then bixrpIssue else ⟨currency, src⟩

def badElement (pe : PathElement) : Bool :=
  (!pe.isAccount && !pe.hasIssuer && !pe.hasCurrency) ||
  (pe.isAccount && (pe.hasIssuer || pe.hasCurrency)) ||
  (pe.hasIssuer && pe.getIssuerID = 0) ||
  (pe.isAccount && pe.getAccountID = 0) ||
  (pe.hasCurrency && pe.hasIssuer && (pe.getCurrency = 0) ≠ (pe.getIssuerID = 0)) ||
  (pe.hasIssuer && pe.getIssuerID = noAccount) ||
  (pe.isAccount && pe.getAccountID = noAccount)

def badInput (src dst : AccountID) (deliver : Issue) (sendMaxIssue : Option Issue)
    (path : List PathElement) : Bool :=
  src = 0 || dst = 0 || !isConsistent deliver || sendMaxIssue.any (!isConsistent ·) ||
  sendMaxIssue.any (·.account = noAccount) || src = noAccount || dst = noAccount ||
  deliver.account = noAccount || path.any badElement

-- The element of the account from which a currency is sent, unless the path names it.
def sendMaxElement (src : AccountID) (sendMaxIssue : Option Issue) (path : List PathElement) :
    List PathElement :=
  match sendMaxIssue with
  | none => []
  | some sendMax =>
    if sendMax.account ≠ src && !(path.head?.any fun e =>
        e.isAccount && e.getAccountID = sendMax.account) then
      [.ofAccount sendMax.account]
    else
      []

-- The last element that sets a currency.
def lastCurrency (normPath : List PathElement) : PathElement :=
  (normPath.reverse.find? hasCurrency).getD ⟨none, none, none⟩

def endsWith (normPath : List PathElement) (a : AccountID) : Bool :=
  normPath.getLast?.any fun e => e.isAccount && e.getAccountID = a

-- The book into the currency that is delivered.
def deliverBook (deliver : Issue) (offerCrossing : Bool) (normPath : List PathElement) :
    List PathElement :=
  let last := lastCurrency normPath
  if last.getCurrency ≠ deliver.currency ||
      (offerCrossing && last.getIssuerID ≠ deliver.account) then
    [⟨none, some deliver.currency, some deliver.account⟩]
  else
    []

def deliverAccount (dst : AccountID) (deliver : Issue) (normPath : List PathElement) :
    List PathElement :=
  if endsWith normPath deliver.account || dst = deliver.account then []
  else [.ofAccount deliver.account]

def dstAccount (dst : AccountID) (normPath : List PathElement) : List PathElement :=
  if endsWith normPath dst then [] else [.ofAccount dst]

-- The path with its source, its destination and what is implied by the amounts.
def normalize (src dst : AccountID) (deliver : Issue) (sendMaxIssue : Option Issue)
    (path : List PathElement) (offerCrossing : Bool) : List PathElement :=
  let curIssue := startIssue src deliver sendMaxIssue
  let normPath := ⟨some src, some curIssue.currency, some curIssue.account⟩ ::
    (sendMaxElement src sendMaxIssue path ++ path)
  let normPath := normPath ++ deliverBook deliver offerCrossing normPath
  let normPath := normPath ++ deliverAccount dst deliver normPath
  normPath ++ dstAccount dst normPath

-- Where a step leads from an account and the issue that is held there.
def carry (s : Step) : AccountID × Issue → Option (AccountID × Issue)
  | (curAcc, curIss) =>
    if s.stepAccts.1 ≠ curAcc then none
    else match s.bookStepBook with
      | some b => if !curIss.eq b.1 then none else some (s.stepAccts.2, b.2)
      | none   => some (s.stepAccts.2, { curIss with account := s.stepAccts.2 })

def carryAll (result : List Step) (start : AccountID × Issue) : Option (AccountID × Issue) :=
  result.foldl (fun at_ s => at_.bind (carry s)) (some start)

def checkStrand (src dst : AccountID) (deliver : Issue) (sendMaxIssue : Option Issue)
    (result : List Step) : Bool :=
  match carryAll result (src, startIssue src deliver sendMaxIssue) with
  | none => false
  | some (curAcc, curIss) =>
    curAcc = dst && curIss.currency = deliver.currency &&
    (curIss.account = deliver.account || curIss.account = dst)

def toStrand [Digest] (env : StrandEnv) (src dst : AccountID) (deliver : Issue)
    (sendMaxIssue : Option Issue) (path : List PathElement) :
    Except StrandError (List Step) := do
  reject (badInput src dst deliver sendMaxIssue path) temBAD_PATH
  let normPath := normalize src dst deliver sendMaxIssue path env.offerCrossing
  reject (normPath.length < 2) temBAD_PATH
  let ctx ← turns env ⟨[], [], [], []⟩ (startIssue src deliver sendMaxIssue) normPath
  if checkStrand src dst deliver sendMaxIssue ctx.result then .ok ctx.result
  else .error .assertion

end PaySteps
