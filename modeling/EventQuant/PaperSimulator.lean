import EventQuant.Library.Results
import EventQuant.PaperBooks
import EventQuant.Python.Reading

/-!
The paper simulator: one process after another over its books. Each turn of its
loop registers the markets that were activated, asks for the order books of the
markets that wait for one, and settles those that are over. What cannot be read
is written down as the market's error, and the market is asked for again.
-/
namespace EventQuant.Paper

open Program Python Results

/-- `SNAPSHOT_RETRY_SECONDS`. -/
def snapshotRetrySeconds : ℚ := 1 / 20

/-- `SETTLEMENT_POLL_SECONDS`. -/
def settlementPollSeconds : ℚ := 30

/-- `TRADE_PAGE_LIMIT`. -/
def tradePageLimit : ℕ := 10000

abbrev PaperAction (α : Type) := Program PaperDatabase PaperWrite Exn α

def typeName : Value → String
  | .null => "NoneType"
  | .bool _ => "bool"
  | .number text => if (int text).isSome then "int" else "float"
  | .string _ => "str"
  | .array _ => "list"
  | .object _ => "dict"

/-- `value.get` of what is no dictionary. -/
def noGet (value : Value) : Exn :=
  .other "AttributeError" ("'" ++ typeName value ++ "' object has no attribute 'get'")

def notIterable (value : Value) : Exn :=
  .other "TypeError" ("'" ++ typeName value ++ "' object is not iterable")

/-- `for item in value`. -/
def itemsOf (value : Value) : Except Exn (List Value) := value.iterate.mapError fun _ => notIterable value

section Reading

variable (codec : Codec)

/-- `Decimal(str(value))`. -/
def decimalOf (value : Value) : Except Exn ℚ := (toNumber codec value).mapError (.other "InvalidOperation")

def levelAtPrice (price total : ℚ) (level : Value) : Except Exn ℚ := do
  if level.isObject then
    let levelPrice ← decimalOf codec ((level.get "price").or (.string "0"))
    if levelPrice = price then
      let size ← decimalOf codec ((level.get "size").or (.string "0"))
      return total + size
    else return total
  else throw (noGet level)

def queueAtPrice (book : Value) (price : ℚ) : Except Exn ℚ := do
  let levels ← itemsOf ((book.get "bids").or (.array []))
  levels.foldlM (levelAtPrice codec price) 0

/-- The books of both outcomes out of the answer to `_books`. -/
def books (row : PaperRow) (payload : Value) : Except Exn (Value × Value) :=
  match payload with
  | .array items =>
    let byAsset := dict ((items.filter Value.isObject).map fun book =>
      (((book.get "asset_id").or (.string "")).str codec, book))
    match byAsset.lookup row.upTokenId, byAsset.lookup row.downTokenId with
    | some up, some down => .ok (up, down)
    | _, _ => .error (.other "ValueError" "CLOB books response is missing an outcome")
  | _ => .error (.other "ValueError" "CLOB books response is not a list")

/-- `int` of a text. -/
def readInt (text : String) : Except Exn ℤ :=
  match int text with
  | some n => .ok n
  | none =>
    if isDecimal text.toList then
      .error (.other "ValueError" ("Exceeds the limit (4300 digits) for integer string conversion: value has "
        ++ toString text.length ++ " digits; use sys.set_int_max_str_digits() to increase the limit"))
    else .error (.other "ValueError"
      ("invalid literal for int() with base 10: " ++ codec.repr (.string text)))

/-- A book's own time, if it names one in digits. -/
def sourceTimestamp (book : Value) : Except Exn (Option ℤ) :=
  let text := ((book.get "timestamp").or (.string "")).str codec
  if isDigits text.toList then (readInt codec text).map some else .ok none

/-- `max(source_timestamps, default=0)`. -/
def latest : Option ℤ → Option ℤ → ℤ
  | some up, some down => max up down
  | some ts, none | none, some ts => ts
  | none, none => 0

/-- What `_capture_pending_snapshots` makes of one market's books. -/
def readSnapshot (row : PaperRow) (payload : Value) : Except Exn (ℤ × ℚ × ℚ) := do
  let (upBook, downBook) ← books codec row payload
  let upTs ← sourceTimestamp codec upBook
  let downTs ← sourceTimestamp codec downBook
  let upQueueAhead ← queueAtPrice codec upBook row.buyPrice
  let downQueueAhead ← queueAtPrice codec downBook row.buyPrice
  return (latest upTs downTs, upQueueAhead, downQueueAhead)

/-- `json.loads`; what it says of a text that is none is left open. -/
def loadsText (malformed : String → String) : Value → Except Exn Value
  | .string text =>
    match codec.loads text with
    | some value => .ok value
    | none => .error (.other "JSONDecodeError" (malformed text))
  | value => .error (.other "TypeError"
      ("the JSON object must be str, bytes or bytearray, not " ++ typeName value))

def itemAt (payload : Value) (name : String) : Except Exn Value :=
  match payload with
  | .object fields =>
    match fields.lookup name with
    | some value => .ok value
    | none => .error (.other "KeyError" ("'" ++ name ++ "'"))
  | _ => .error (noGet payload)

/-- `ResolutionPending(slug)`. -/
def resolutionPending (slug : String) : Exn := .other "ResolutionPending" slug

/-- `except ResolutionPending`. -/
def isResolutionPending : Exn → Bool
  | .other kind _ => kind = "ResolutionPending"
  | .ambiguousPlacement .. => false

/-- `zip(outcomes, prices, strict=True)`. -/
def zipStrict (names : List Value) (prices : List ℚ) : Except Exn (List (Value × ℚ)) :=
  if prices.length < names.length then .error (.other "ValueError" "zip() argument 2 is shorter than argument 1")
  else if names.length < prices.length then .error (.other "ValueError" "zip() argument 2 is longer than argument 1")
  else .ok (names.zip prices)

/-- The outcome a closed market pays, out of the answer to `_winner`. -/
def winner (malformed : String → String) (slug : String) (payload : Value) : Except Exn String := do
  if payload.isObject then
    match payload.get "closed" with
    | .bool true =>
      let outcomes ← loadsText codec malformed (← itemAt payload "outcomes")
      let listed ← loadsText codec malformed (← itemAt payload "outcomePrices")
      let prices ← (← itemsOf listed).mapM (decimalOf codec)
      let pairs ← zipStrict (← itemsOf outcomes) prices
      match (pairs.filter fun pair => pair.2 = 1).map fun pair => lower (pair.1.str codec) with
      | [name] => return name
      | _ => throw (resolutionPending slug)
    | _ => throw (resolutionPending slug)
  else throw (noGet payload)

/-- `int(value)`; a number that is no integer is cut off. -/
def intOf : Value → Except Exn ℤ
  | .bool b => .ok (if b then 1 else 0)
  | .number text =>
    match decimal text with
    | some q => .ok (q.num.tdiv q.den)
    | none =>
      if text = "nan" then .error (.other "ValueError" "cannot convert float NaN to integer")
      else .error (.other "OverflowError" "cannot convert float infinity to integer")
  | .string text => readInt codec text
  | value => .error (.other "TypeError"
      ("int() argument must be a string, a bytes-like object or a real number, not '" ++
        typeName value ++ "'"))

def startTsOf (snapshotTsMs : ℤ) : ℤ := (snapshotTsMs + 999) / 1000

def keepsTrade (startTs : ℤ) (trade : Value) : Except Exn (Option Value) := do
  if trade.isObject then
    let ts ← intOf codec ((trade.get "timestamp").or (.number "0"))
    return if startTs ≤ ts then some trade else none
  else return none

/-- The trades since the snapshot, out of the answer to `_trades`. -/
def tradesSince (snapshotTsMs : ℤ) (payload : Value) : Except Exn (List Value) := do
  match payload with
  | .array items =>
    if tradePageLimit ≤ items.length then
      throw (.other "ValueError" "trade response reached the 10000-row audit limit")
    else
      let kept ← items.mapM (keepsTrade codec (startTsOf snapshotTsMs))
      return kept.filterMap id
  | _ => throw (.other "ValueError" "trade response is not a list")

/-- `Decimal(row[column])`. -/
def column : Option ℚ → Except Exn ℚ
  | some q => .ok q
  | none => .error (.other "TypeError" "conversion from NoneType to Decimal is not supported")

/-- `int(row["snapshot_ts_ms"])`. -/
def snapshotOf (row : PaperRow) : Except Exn ℤ :=
  match row.snapshotTsMs with
  | some ts => .ok ts
  | none => .error (.other "TypeError"
      "int() argument must be a string, a bytes-like object or a real number, not 'NoneType'")

/-- `calculate_result` of a row, with what it raises. -/
def resultOf (row : PaperRow) (name : String) (trades : List Value) : Except Exn PaperResult := do
  let upQueueAhead ← column row.upQueueAhead
  let downQueueAhead ← column row.downQueueAhead
  (calculateResult codec name trades row.upTokenId row.downTokenId row.buyPrice row.orderSize
    upQueueAhead downQueueAhead).mapError fun failure =>
      .other (if name = "up" ∨ name = "down" then "InvalidOperation" else "ValueError") failure

end Reading

/-- A strategy's simulator; its key is `strategy_key` of its plan. -/
structure PaperSimulator where
  key : String
  plan : AcceptedPlan
  codec : Codec
  malformed : String → String

/-- What a look for order books meets: the clock it expires markets at, and
each market's answer and the clock it came at. -/
structure CaptureAnswers where
  nowTs : ℤ
  payload : PaperRow → Except Exn Value
  snapshotTsMs : PaperRow → ℤ

/-- What a settlement round meets. -/
structure SettleAnswers where
  nowTs : ℤ
  market : PaperRow → Except Exn Value
  trades : PaperRow → Except Exn Value

namespace PaperSimulator

variable (sim : PaperSimulator)

/-- `_drain_activation_updates`; whether a market was registered. -/
def drainActivationUpdates (updates : List ActivationUpdate) : PaperAction Bool := do
  let registered ← collect updates fun update => do
    let known ← read fun db : PaperDatabase => (db.market sim.key update.market.slug).isSome
    commit (.register sim.key update sim.plan)
    return' (!known)
  return' (registered.any id)

def captureSnapshot (answers : CaptureAnswers) (row : PaperRow) : PaperAction Unit :=
  handle
    (do
      let snapshot ← answer ((answers.payload row).bind (readSnapshot sim.codec row))
      commit (.setSnapshot sim.key row.slug (answers.snapshotTsMs row) snapshot.1 snapshot.2.1
        snapshot.2.2))
    fun e => commit (.setError sim.key row.slug e.text)

/-- `_capture_pending_snapshots`; whether a market still waits for its book. -/
def capturePendingSnapshots (answers : CaptureAnswers) : PaperAction Bool := do
  commit (.expirePendingSnapshots sim.key answers.nowTs)
  let rows ← read fun db : PaperDatabase => db.pendingSnapshots sim.key
  forEach rows (sim.captureSnapshot answers)
  let left ← read fun db : PaperDatabase => db.pendingSnapshots sim.key
  return' !left.isEmpty

/-- What a market comes to, and how many trades it was read from. -/
def settlement (answers : SettleAnswers) (row : PaperRow) : Except Exn (PaperResult × ℕ) := do
  let name ← (answers.market row).bind (winner sim.codec sim.malformed row.slug)
  let snapshotTsMs ← snapshotOf row
  let trades ← (answers.trades row).bind (tradesSince sim.codec snapshotTsMs)
  let result ← resultOf sim.codec row name trades
  return (result, trades.length)

def settleMarket (answers : SettleAnswers) (row : PaperRow) : PaperAction Unit :=
  handle
    (do
      let settled ← answer (sim.settlement answers row)
      commit (.setResult sim.key row.slug settled.1 settled.2))
    fun e =>
      if isResolutionPending e then return' ()
      else commit (.setError sim.key row.slug e.text)

/-- `_settle_finished_markets`. -/
def settleFinishedMarkets (answers : SettleAnswers) : PaperAction Unit := do
  let rows ← read fun db : PaperDatabase => db.readyToSettle sim.key answers.nowTs
  forEach rows (sim.settleMarket answers)

end PaperSimulator

/-- What `run` goes by from one turn of its loop to the next; no time for a
retry is `inf`. -/
structure Timers where
  snapshotPending : Bool
  nextSnapshotRetry : Option ℚ
  nextSettlementPoll : ℚ
  nextHeartbeat : ℚ
  deriving DecidableEq, Repr

/-- What one turn of the loop meets: `capturedAt` is the clock after a look for
the books of markets just registered, `now` the one the rest goes by. -/
structure TurnAnswers where
  updates : List ActivationUpdate
  registered : CaptureAnswers
  capturedAt : ℚ
  now : ℚ
  retried : CaptureAnswers
  settled : SettleAnswers
  heartbeatTs : ℤ

def nextLook (pending : Bool) (clock : ℚ) : Option ℚ :=
  if pending then some (clock + snapshotRetrySeconds) else none

namespace PaperSimulator

variable (sim : PaperSimulator)

def firstLook (registered : Bool) (answers : TurnAnswers) (timers : Timers) : PaperAction Timers :=
  if registered then do
    let pending ← sim.capturePendingSnapshots answers.registered
    return' { timers with
      snapshotPending := pending
      nextSnapshotRetry := nextLook pending answers.capturedAt }
  else return' timers

def nextLookDue (answers : TurnAnswers) (timers : Timers) : PaperAction Timers :=
  if timers.snapshotPending ∧ timers.nextSnapshotRetry.any (· ≤ answers.now) then do
    let pending ← sim.capturePendingSnapshots answers.retried
    return' { timers with
      snapshotPending := pending
      nextSnapshotRetry := nextLook pending answers.now }
  else return' timers

def settleDue (answers : TurnAnswers) (timers : Timers) : PaperAction Timers :=
  if timers.nextSettlementPoll ≤ answers.now then do
    sim.settleFinishedMarkets answers.settled
    return' { timers with nextSettlementPoll := answers.now + settlementPollSeconds }
  else return' timers

def heartbeatDue (answers : TurnAnswers) (timers : Timers) : PaperAction Timers :=
  if timers.nextHeartbeat ≤ answers.now then do
    commit (.heartbeat answers.heartbeatTs)
    return' { timers with nextHeartbeat := answers.now + 10 }
  else return' timers

/-- One turn of the loop of `run`. -/
def turn (answers : TurnAnswers) (timers : Timers) : PaperAction Timers := do
  let registered ← sim.drainActivationUpdates answers.updates
  let timers ← sim.firstLook registered answers timers
  let timers ← sim.nextLookDue answers timers
  let timers ← sim.settleDue answers timers
  heartbeatDue answers timers

/-- How `run` begins. -/
def start (now : ℤ) : PaperAction Timers := do
  commit (.start sim.key sim.plan now)
  let rows ← read fun db : PaperDatabase => db.pendingSnapshots sim.key
  return' ⟨!rows.isEmpty, if rows.isEmpty then none else some 0, 0, 0⟩

end PaperSimulator

end EventQuant.Paper
