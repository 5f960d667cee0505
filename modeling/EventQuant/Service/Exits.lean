import EventQuant.Service.Settings

/-!
The take-profit exits: for each filled entry the rungs of the ladder still
short of their share, sized within the account's settled balance, and one
submission for each. A submission that raised is looked for among the open
orders, and is written down as failed when it is not found.
-/
namespace EventQuant

open Program Python Venue

/-- `place_exit`: what the venue made of the signed sell order. -/
def Exchange.placeExit (x : Exchange) (outcome tokenId : String) (price size : ℚ)
    (response : Except Exn Value) : Except Exn PlacedOrder :=
  match response with
  | .error e => .error e
  | .ok response =>
    if response.isObject ∧ (fromValue x.codec response).accepted then
      .ok ⟨(fromValue x.codec response).orderId, outcome, tokenId, price, size,
        replyStatus x.codec response, .sell, .exit, ""⟩
    else .error (.other "RuntimeError" ("sell order rejected: " ++ response.str x.codec))

/-- `reconcile_ambiguous_exit`: the one open sell order of exactly this token,
price and size. -/
def Exchange.reconcileAmbiguousExit (x : Exchange) (outcome tokenId : String) (price size : ℚ)
    (openOrders : Except Exn (List Value)) : Except Exn (Option PlacedOrder) :=
  match openOrders with
  | .error e => .error e
  | .ok rows =>
    match exactMatches x.codec [tokenId] "SELL" price size rows with
    | .error e => .error e
    | .ok found =>
      match found.filter fun row => row.tokenId = tokenId with
      | [row] => .ok ((orderIdOf x.codec row.raw).map fun orderId =>
          ⟨orderId, outcome, tokenId, price, size, replyStatus x.codec row.raw, .sell, .exit, ""⟩)
      | _ => .ok none

/-- What one rung's calls answer, and the clocks it is written down at. -/
structure ExitAnswers where
  response : Except Exn Value
  openOrders : Except Exn (List Value)
  now : ℤ
  timeNs : ℕ

/-- The calls of one pass over the ladder: each entry's token balance, and
each rung's submission. -/
structure LadderAnswers where
  balance : OrderRow → Except Exn ℚ
  rung : OrderRow → ExitTarget → ExitAnswers

def failedExit (row : OrderRow) (price size : ℚ) (timeNs : ℕ) : PlacedOrder :=
  ⟨"failed:" ++ row.slug ++ ":" ++ row.outcome ++ ":" ++ toString timeNs, row.outcome, row.tokenId,
    price, size, "failed", .sell, .exit, ""⟩

namespace Service

variable (s : Service)

def exitOrder (x : Exchange) (row : OrderRow) (price size : ℚ) (answers : ExitAnswers) :
    Except String PlacedOrder :=
  match x.placeExit row.outcome row.tokenId price size answers.response with
  | .ok order => .ok order
  | .error e =>
    match x.reconcileAmbiguousExit row.outcome row.tokenId price size answers.openOrders with
    | .ok (some order) => .ok order
    | .ok none => .error e.text
    | .error e' => .error ("submission=" ++ e.text ++ "; reconciliation=" ++ e'.text)

/-- `_place_exit_rung`. -/
def placeExitRung (x : Exchange) (row : OrderRow) (price size : ℚ) (answers : ExitAnswers) :
    Action Bool := do
  commit (.submitExit row.tokenId price size)
  match exitOrder x row price size answers with
  | .ok order => do
    Action.addOrder answers.now row.slug order
    return' true
  | .error initialError => do
    Action.addOrder answers.now row.slug (failedExit row price size answers.timeNs)
    Action.write (.setMarketState row.slug .exitError (some initialError))
    return' false

/-- The rungs in order while at least the market's minimum is left to sell. -/
def placeRungs (x : Exchange) (row : OrderRow) (minSize : ℚ) (answers : LadderAnswers) :
    ℚ → List (ExitTarget × ℚ) → Action Unit
  | _, [] => return' ()
  | available, (target, pending) :: rest =>
    if min pending available < minSize then placeRungs x row minSize answers available rest
    else do
      let size := min pending available
      let placed ← placeExitRung x row target.price size (answers.rung row target)
      let left := if placed then s.decimals.sub available size else available
      if left < minSize then return' () else placeRungs x row minSize answers left rest

/-- The rungs short of their share of the fill by the minimum or more. -/
def pendingTargets (db : Database) (row : OrderRow) (minSize : ℚ) : List (ExitTarget × ℚ) :=
  (s.plan.exitTargets.map fun target =>
    (target, s.decimals.sub (s.decimals.mul row.matchedSize target.fraction)
      (db.exitHandledSize s.decimals row.slug row.outcome target.price))).filter fun rung =>
        minSize ≤ rung.2

def placeLadder (x : Exchange) (nowTs : ℤ) (answers : LadderAnswers)
    (entry : OrderRow × MarketRow) : Action Unit :=
  let (row, market) := entry
  if market.endTs - s.cancelBeforeEndSeconds ≤ nowTs then return' ()
  else do
    let pending ← Action.query fun db => s.pendingTargets db row market.minSize
    if pending = [] then return' ()
    else do
      let balance ← answer (answers.balance row)
      let reserved ← Action.query fun db => db.activeExitReservedSize s.decimals row.slug row.outcome
      let available := max 0 (s.decimals.sub balance reserved)
      if available < market.minSize then return' ()
      else s.placeRungs x row market.minSize answers available pending

/-- `_place_missing_exits`; its callers check that there is an exchange. -/
def placeMissingExits (x : Exchange) (nowTs : ℤ) (answers : LadderAnswers) : Action Unit :=
  if s.plan.buyOnly then return' ()
  else do
    let entries ← Action.query Database.entryOrdersWithFills
    forEach entries (s.placeLadder x nowTs answers)

end Service

end EventQuant
