import EventQuant.Service.Exits

/-!
What the background workers report, written down: the reconciliation of the
tracked orders with the venue's list, the adoption of open orders nobody wrote
down, and the user streams. A fill or a settlement starts a pass over the
exits.
-/
namespace EventQuant

open Program Python

/-- `FRESH_ORDER_GRACE_SECONDS`. -/
def freshOrderGraceSeconds : ℤ := 60

structure TrackedOrderSnapshot where
  orderId : String
  slug : String
  size : ℚ
  deriving DecidableEq, Repr

/-- One order as the worker found it; `drainedTs` is the clock when the
service comes to it. -/
structure ReconciledOrder where
  snapshot : TrackedOrderSnapshot
  raw : Option Value
  error : Option String
  drainedTs : ℤ

structure ReconciliationUpdate where
  orders : List ReconciledOrder
  batchError : Option String
  openRows : List Value

/-- A message of a user stream. -/
inductive StreamUpdate
  | state (healthy recovered : Bool)
  | trade (status : String) (orderIds : List String)
  | order (update : UserOrderUpdate)
  deriving DecidableEq, Repr

namespace Service

variable (s : Service)

/-- What a reconciled order's row is to say: the larger fill, and a final
status for good. -/
def reconciledStatus (row : OrderRow) (snapshotSize : ℚ) (status : String) (matched : ℚ) :
    String :=
  let status := if status = "matched" ∧ snapshotSize ≤ matched then "filled" else status
  if row.status ∈ terminalStates ∧ status ∉ terminalStates then row.status else status

theorem reconciledStatus_terminal (row : OrderRow) (snapshotSize : ℚ) (status : String)
    (matched : ℚ) (h : row.status ∈ terminalStates) :
    reconciledStatus row snapshotSize status matched ∈ terminalStates := by
  unfold reconciledStatus
  simp only [h, true_and]
  generalize (if status = "matched" ∧ snapshotSize ≤ matched then "filled" else status) = reported
  by_cases hreported : reported ∈ terminalStates
  · rwa [if_neg (not_not.mpr hreported)]
  · rwa [if_pos hreported]

/-- `max(matched, previous_matched)`. A row keeps numbers only, so a fill without
end is left out: it is taken for one that cannot be compared. -/
def largerFill (matched : ℚ) : DecimalValue → Except Exn ℚ
  | .finite reported => .ok (max reported matched)
  | .infinite true => .ok matched
  | .infinite false | .nan _ => .error (.other "InvalidOperation" invalidOperation)

theorem largerFill_le {matched filled : ℚ} {reported : DecimalValue}
    (h : largerFill matched reported = .ok filled) : matched ≤ filled := by
  cases reported with
  | finite q => exact Except.ok.inj h ▸ le_max_right q matched
  | infinite negative =>
    cases negative with
    | false => cases h
    | true => exact (Except.ok.inj h).le
  | nan signaling => cases h

def drainReconciledOrder (result : ReconciledOrder) : Action Bool := do
  let row ← Action.query fun db => db.order result.snapshot.orderId
  match row, result.error, result.raw with
  | some row, none, some raw => do
    let (status, reported) ← answer
      ((normalizeOrder s.codec raw).mapError fun failure => .other "InvalidOperation" failure)
    if status = "terminal_unknown" ∧ row.status ∉ terminalStates ∧
        result.drainedTs - row.createdTs < freshOrderGraceSeconds then return' false
    else do
      let matched ← answer (largerFill row.matchedSize reported)
      Action.write (.updateOrder result.snapshot.orderId
        (reconciledStatus row result.snapshot.size status matched) matched)
      return' (decide (row.role = .entry ∧ row.matchedSize < matched))
  | _, _, _ => return' false

def adoptable (db : Database) (raw : Value) : Except Exn (Option (String × PlacedOrder)) :=
  let named := raw.firstOf ["id", "orderID", "orderId"] .null
  let orderId := named.str s.codec
  if !named.truthy ∨ (db.order orderId).isSome then .ok none
  else match db.marketForCondition (((raw.get "market").or (.string "")).str s.codec) s.runId with
    | none => .ok none
    | some market =>
      let assetId := ((raw.get "asset_id").or (.string "")).str s.codec
      let outcome :=
        if assetId = market.upTokenId then some "up"
        else if assetId = market.downTokenId then some "down"
        else none
      match outcome with
      | none => .ok none
      | some outcome =>
        let priced := if (raw.get "price").truthy then toDecimal s.codec (raw.get "price")
          else .ok (.finite s.plan.buyPrice)
        match priced with
        | .error failure => .error (.other "InvalidOperation" failure)
        | .ok price =>
          -- a price that is not a number is another than the plan's, or raises: neither is adopted
          if price ≠ .finite s.plan.buyPrice then .ok none
          else match normalizeOrder s.codec raw with
            | .error failure => .error (.other "InvalidOperation" failure)
            | .ok (status, _) =>
              if status ∈ terminalStates then .ok none
              else
                let side := if upper ((raw.get "side").str s.codec) = "SELL" then Side.sell else .buy
                match toNumber s.codec
                    (raw.firstOf ["original_size", "size"] (.string "0")) with
                | .error failure => .error (.other "InvalidOperation" failure)
                | .ok size =>
                  .ok (some (market.slug, ⟨orderId, outcome, assetId, s.plan.buyPrice, size, status, side,
                    if side = .sell then .exit else .entry,
                    ((raw.get "account").or (.string "")).str s.codec⟩))

/-- One row of `_adopt_unknown_open_orders`; an order that cannot be written
down is left out. -/
def adoptOpenOrder (nowTs : ℤ) (raw : Value) : Action Bool :=
  handle
    (do
      let found ← Action.query fun db => s.adoptable db raw
      let order ← answer found
      match order with
      | none => return' false
      | some (slug, order) => do
        Action.addOrder nowTs slug order
        return' true)
    fun _ => return' false

def drainReconciliationUpdate (nowTs : ℤ) (update : ReconciliationUpdate) : Action Bool :=
  if update.batchError.isSome then return' false
  else do
    let adopted ← collect update.openRows (s.adoptOpenOrder nowTs)
    let filled ← collect update.orders s.drainReconciledOrder
    return' (adopted.any id || filled.any id)

def exitsAfter (changed : Bool) (nowTs : ℤ) (answers : LadderAnswers) : Action Unit :=
  match s.exchange with
  | some x => if changed && !s.plan.buyOnly then s.placeMissingExits x nowTs answers else return' ()
  | none => return' ()

/-- `_drain_reconciliation_updates` of a service with a worker. -/
def drainReconciliationUpdates (updates : List ReconciliationUpdate) (nowTs : ℤ)
    (answers : LadderAnswers) : Action Unit := do
  let changed ← collect updates (s.drainReconciliationUpdate nowTs)
  s.exitsAfter (changed.any id) nowTs answers

def drainStreamOrder (update : UserOrderUpdate) : Action Bool := do
  let row ← Action.query fun db => db.order update.orderId
  match row with
  | none => return' false
  | some row => do
    Action.write (.updateOrder update.orderId update.status update.matchedSize)
    return' (decide (row.role = .entry ∧ row.matchedSize < update.matchedSize))

/-- One message of a stream: whether its socket came back, and whether the
exits have something new to sell. Only the primary's socket gates trading. -/
def drainStreamUpdate (gating : Bool) : StreamUpdate → Action (Bool × Bool)
  | .state healthy recovered => return' (healthy && recovered && gating, false)
  | .trade status orderIds => do
    let entries ← Action.query fun db =>
      orderIds.any fun orderId => (db.order orderId).any fun row => row.role = .entry
    return' (false, decide (status = "MINED" ∨ status = "CONFIRMED") && entries)
  | .order update => do
    let filled ← drainStreamOrder update
    return' (false, filled)

/-- `_drain_user_stream_updates` of a service with streams, each update with
whether its stream is the primary's; whether trading may resume. -/
def drainUserStreamUpdates (updates : List (Bool × StreamUpdate)) (nowTs : ℤ)
    (answers : LadderAnswers) : Action Bool := do
  let drained ← collect updates fun update => drainStreamUpdate update.1 update.2
  s.exitsAfter (drained.any fun d => d.2) nowTs answers
  return' (drained.any fun d => d.1)

end Service

end EventQuant
