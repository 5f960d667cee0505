import EventQuant.Service.Settings

/-!
One market's turn: whether it is placed at all, the knock of its entry by one
account or by the fleet, and what is written down of it. The market is written
down before its entry is sent, the orders when the knock is over; a placement
that is to be tried again keeps its market pending and goes back in the queue.
-/
namespace EventQuant

open Program Python
open Knock (MemberResult)

/-- `KNOCK_SECONDS`. -/
def knockSeconds : ℚ := 240

/-- `PREVIEW_GIVE_UP_MS`. -/
def previewGiveUpMs : ℤ := 60000

/-- What sent the service to a market: a discovery, or its activation with the
times it was found at. -/
inductive Trigger
  | gamma
  | activation (discoveredTsMs detectedTsMs : ℤ)
  deriving DecidableEq, Repr

def Trigger.isActivation : Trigger → Bool
  | gamma => false
  | activation _ _ => true

/-- What one account's calls answer while it is placed on its own. -/
structure SoloAnswers where
  sign : Except SigningFailure (String × String → String)
  knock : Except Exn (List MemberResult)
  cancelIncomplete : Except Exn Unit
  openOrders : Except Exn (List Value)
  cancelFound : Except Exn Unit

/-- What the world outside answers during one market's turn: the clocks it is
read at, the two looks at the order books, and the placement's own calls. -/
structure PlacementAnswers where
  dayStart : ℤ
  booksReady : Except Exn Bool
  readTsMs : ℤ
  checkTs : ℚ
  doorOpen : Except Exn Bool
  placementStartedTsMs : ℤ
  placementFinishedTsMs : ℤ
  recordTs : ℤ
  solo : SoloAnswers
  fleet : FleetAnswers

/-- `a % b` counts as true; it raises for a zero tick. -/
def offTick (a b : ℚ) : Except Exn Bool :=
  if b = 0 then .error (.other "InvalidOperation" "[<class 'decimal.InvalidOperation'>]")
  else .ok (decide ((a / b).den ≠ 1))

/-- `_gave_up_reason`: the preview's give-up time, or the knocking budget when
that came first. -/
def gaveUpReason (seen : Option PreviewSeen) (knockUntilTs : ℚ) : String :=
  match seen with
  | some seen =>
    if seen.seenMs ≠ 0 ∧ ((seen.anchorMs + previewGiveUpMs : ℤ) : ℚ) < knockUntilTs * 1000 then
      "no acceptance within 60 s of the record turning active"
    else "no acceptance within 240 s of knocking"
  | none => "no acceptance within 240 s of knocking"

namespace Service

variable (s : Service)

/-- `is_eligible`. -/
def eligible (market : Market) (nowTs : ℤ) : Bool :=
  decide (s.runStartedTs ≤ market.startTs) && decide (nowTs < market.endTs)

/-- `_skip_market`. -/
def skipMarket (market : Market) (reason : String) : Action Unit := do
  commit (.popRetry market.slug)
  Action.write (.prepareMarket s.runId market .skipped)
  Action.write (.setMarketState market.slug .skipped (some reason))

/-- A first retry leaves its market pending; a later one adds to the count. -/
def keepRetry (market : Market) (result : PlacementResult) (retry : Option Retry)
    (answers : PlacementAnswers) : Action Unit :=
  match retry with
  | none => do
    commit (.setRetry market.slug
      ⟨result.attempts, answers.placementStartedTsMs, answers.placementFinishedTsMs⟩)
    Action.write (.setMarketState market.slug .placementPending result.error)
  | some retry =>
    commit (.setRetry market.slug { retry with
      attempts := retry.attempts + result.attempts
      lastFinishedTsMs := answers.placementFinishedTsMs })

def requeuedUpdate (market : Market) (trigger : Trigger) (answers : PlacementAnswers) :
    ActivationUpdate :=
  match trigger with
  | .gamma => ⟨market, answers.placementStartedTsMs, answers.placementStartedTsMs⟩
  | .activation discovered detected => ⟨market, discovered, detected⟩

@[simp] theorem requeuedUpdate_market (market : Market) (trigger : Trigger)
    (answers : PlacementAnswers) : (requeuedUpdate market trigger answers).market = market := by
  cases trigger <;> rfl

/-- `_requeue_placement`, for a result that is to be tried again. -/
def requeuePlacement (market : Market) (result : PlacementResult) (retry : Option Retry)
    (trigger : Trigger) (answers : PlacementAnswers) : Action Bool :=
  if !result.retryable || !result.orders.isEmpty then return' false
  else do
    keepRetry market result retry answers
    commit (.enqueue (requeuedUpdate market trigger answers))
    return' true

def placementFailed (market : Market) (error : Option String) : Action Unit := do
  commit (.popRetry market.slug)
  Action.write (.setMarketState market.slug .error error)

def placementActive (market : Market) : Action Unit := do
  commit (.popRetry market.slug)
  Action.write (.setMarketState market.slug .active none)

def recordOrders (market : Market) (orders : List PlacedOrder) (now : ℤ) : Action Unit :=
  forEach orders fun order => Action.addOrder now market.slug order

/-- `place_dual`. -/
def placeDual (x : Exchange) (market : Market) (answers : SoloAnswers) :
    Action PlacementResult := do
  let prepared ← x.prepareEntry market s.plan.buyPrice s.orderSize answers.sign
  match prepared with
  | .inr result => return' result
  | .inl entry =>
    if s.placementIntervalMs ≤ 0 then
      raise (.other "ValueError" "submission_interval_ms must be above 0")
    else do
      commit (.knock ⟨x.account, market.slug, entry.submissionKey, entry.legs⟩)
      let outcomes ← answer answers.knock
      match outcomes with
      | [] => raise (.other "IndexError" "list index out of range")
      | outcome :: _ => x.settleEntry entry outcome answers.cancelIncomplete

/-- What the submission came to, with an ambiguous one looked for among the
open orders. -/
def soloResult (x : Exchange) (market : Market) (answers : SoloAnswers) :
    Action PlacementResult :=
  handle (s.placeDual x market answers) fun e =>
    match e with
    | .other _ _ => return' { orders := [], error := some e.text }
    | .ambiguousPlacement _ retryable attempts =>
      handle
        (do
          let result ← x.reconcileAmbiguousDual market s.plan.buyPrice s.orderSize retryable
            answers.openOrders answers.cancelFound
          return'
            { orders := result.orders
              error := result.error
              retryable := result.retryable
              attempts := attempts })
        fun e' => return'
          { orders := []
            error := some ("submission=" ++ e.text ++ "; reconciliation=" ++ e'.text)
            retryable := retryable
            attempts := attempts }

def placeSolo (x : Exchange) (market : Market) (trigger : Trigger) (retry : Option Retry)
    (answers : PlacementAnswers) : Action Unit := do
  let result ← s.soloResult x market answers.solo
  recordOrders market result.orders answers.recordTs
  if result.complete then placementActive market
  else if result.gaveUp ∧ result.orders = [] then
    s.skipMarket market "no acceptance within 240 s of knocking"
  else do
    let requeued ← requeuePlacement market result retry trigger answers
    if requeued then return' () else placementFailed market result.error

/-- `_place_with_fleet`. -/
def placeWithFleet (f : Fleet) (market : Market) (trigger : Trigger) (retry : Option Retry)
    (knockUntilTs : ℚ) (answers : PlacementAnswers) : Action Unit := do
  let placed ← handle
    (do
      let placement ← f.place market s.plan.buyPrice answers.fleet
      return' (Except.ok placement))
    fun e => return' (Except.error e.text)
  match placed with
  | .error error => placementFailed market (some error)
  | .ok placement => do
    recordOrders market placement.orders answers.recordTs
    if placement.kept.isSome then placementActive market
    else if placement.gaveUp then
      s.skipMarket market (gaveUpReason placement.preview knockUntilTs)
    else do
      let result : PlacementResult :=
        { orders := []
          error := placement.error
          retryable := placement.retryable
          attempts := placement.attempts }
      let requeued ← requeuePlacement market result retry trigger answers
      if requeued then return' () else placementFailed market placement.error

def simulatedOrders (market : Market) : List PlacedOrder :=
  (s.solo.entrySpecifications market).map fun leg =>
    ⟨"dry:" ++ market.slug ++ ":" ++ leg.1, leg.1, leg.2, s.plan.buyPrice, s.orderSize,
      "simulated", .buy, .entry, ""⟩

def prepareFirst (market : Market) (retry : Option Retry) : Action Unit :=
  if retry.isSome then return' () else Action.write (.prepareMarket s.runId market .placing)

/-- `_place`. -/
def place (market : Market) (trigger : Trigger) (answers : PlacementAnswers) : Action Unit := do
  let retry ← read fun b => b.retries.lookup market.slug
  let firstStartedTsMs := (retry.map Retry.firstStartedTsMs).getD answers.readTsMs
  let knockUntilTs : ℚ := (firstStartedTsMs : ℚ) / 1000 + knockSeconds
  if s.live && trigger.isActivation && decide (knockUntilTs ≤ answers.checkTs) then
    s.skipMarket market "knocking budget of 240 s used up before its turn"
  else if s.live && trigger.isActivation && decide (answers.doorOpen = .ok true) then
    s.skipMarket market "order book already open when its turn came"
  else do
    s.prepareFirst market retry
    match s.exchange, s.fleet with
    | none, _ => do
      recordOrders market (s.simulatedOrders market) answers.recordTs
      Action.write (.setMarketState market.slug .active none)
    | some _, some f => s.placeWithFleet f market trigger retry knockUntilTs answers
    | some x, none => s.placeSolo x market trigger retry answers

def expireMarket (market : Market) : Action Unit := do
  let retry ← read fun b => b.retries.lookup market.slug
  match retry with
  | none => return' ()
  | some _ => do
    commit (.popRetry market.slug)
    Action.write (.setMarketState market.slug .expired
      (some "market ended before a complete order pair was accepted"))

/-- A cap is reached: nothing more is placed for now. -/
def capReached (db : Database) (dayStart : ℤ) : Bool :=
  s.maxDailyFilledCost.any (fun cap => decide (cap ≤ db.dailyFilledCost s.decimals dayStart)) ||
    s.maxReservedUsd.any (fun cap =>
      decide (cap < s.decimals.add (db.activeReservedUsd s.decimals) s.marketReserve))

def misfit (market : Market) : Except Exn (Option String) := do
  let entryOff ← offTick s.plan.buyPrice market.tickSize
  let exitsOff ← s.plan.exitTargets.anyM fun target => offTick target.price market.tickSize
  if entryOff then .ok (some "buy price does not match market tick size")
  else if exitsOff then .ok (some "take-profit price does not match market tick size")
  else if s.orderSize < market.minSize then
    .ok (some "configured order is below market minimum")
  else .ok none

/-- `_consider_market`: false where a cap stops the markets behind it too. -/
def considerMarket (market : Market) (nowTs : ℤ) (trigger : Trigger) (orderbookReady : Bool)
    (answers : PlacementAnswers) : Action Bool :=
  if !s.eligible market nowTs then do
    expireMarket market
    return' true
  else do
    let free ← Action.query fun db => db.canStartEntryPlan market.slug
    if !free then return' true
    else do
      let misfit ← answer (s.misfit market)
      match misfit with
      | some reason => do
        s.skipMarket market reason
        return' true
      | none => do
        let capped ← Action.query fun db => s.capReached db answers.dayStart
        if capped then return' false
        else if s.exchange.isSome && !orderbookReady && decide (answers.booksReady ≠ .ok true) then
          return' true
        else do
          s.place market trigger answers
          return' true

end Service

end EventQuant
