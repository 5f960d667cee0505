import EventQuant.Bot
import EventQuant.Discovery
import EventQuant.Library.Runs

/-!
The queue probe: one monitor a market, watching the market's book over one
connection after another until its opening has been recorded. The window is
kept by the connection that saw it open. Only a connection that returns hands
it back; the next one, after a loss, starts without. Reading and recording take
no time here: the clock moves while the monitor waits.
-/
namespace EventQuant

open Python Runs

/-- `TARGET_PRICE`. -/
def targetPrice : DecimalValue := .finite (1 / 100)

/-- `BOOK_WAIT_SECONDS`. -/
def bookWaitSeconds : ℚ := 12 * 3600

/-- `RECONNECT_DELAY_SECONDS`. -/
def reconnectDelaySeconds : ℚ := 5

/-- `SILENCE_SECONDS`. -/
def silenceSeconds : ℚ := 30

/-- `RESUBSCRIBE_SECONDS`. -/
def resubscribeSeconds : ℚ := 1800

inductive QueueOutcome
  | up
  | down
  deriving DecidableEq, Repr

/-- `queues`: the outcomes seen so far. -/
structure Queues where
  up : Option DecimalValue
  down : Option DecimalValue
  deriving DecidableEq, Repr

namespace Queues

def get (queues : Queues) : QueueOutcome → Option DecimalValue
  | .up => queues.up
  | .down => queues.down

/-- `queues[outcome] = size`. -/
def set (queues : Queues) (outcome : QueueOutcome) (size : DecimalValue) : Queues :=
  match outcome with
  | .up => { queues with up := some size }
  | .down => { queues with down := some size }

/-- One outcome's size, and whether it is another than before; `none` where
comparing the two raises. -/
def put (queues : Queues) (outcome : QueueOutcome) (size : DecimalValue) : Option (Bool × Queues) :=
  match queues.get outcome with
  | none => some (true, queues.set outcome size)
  | some before => (before.same size).map fun same => (!same, queues.set outcome size)

end Queues

/-- A row of the recording. -/
structure QueueRow where
  observedTs : ℚ
  sourceTsMs : Option ℕ
  slug : String
  marketDiscoveredTsMs : ℤ
  marketParametersDetectedTsMs : ℤ
  upQueueShares : DecimalValue
  downQueueShares : DecimalValue
  deriving DecidableEq, Repr

/-- What a connection has seen of the book: the end of the window, once it is
open, the queues and the rows recorded. -/
structure Book where
  openingDeadline : Option ℚ
  queues : Queues
  rows : List QueueRow
  deriving DecidableEq, Repr

section Messages

variable (codec : Codec) (update : ActivationUpdate)

/-- `token_outcomes.get`. -/
def outcomeOf (token : String) : Option QueueOutcome :=
  if token = update.market.downTokenId then some .down
  else if token = update.market.upTokenId then some .up
  else none

def textOf (event : Value) (name : String) : String := ((event.get name).or (.string "")).str codec

/-- `Decimal(str(level[name]))`. -/
def levelNumber (level : Value) (name : String) : Option DecimalValue :=
  (field name level).bind fun value => decimalValue (value.str codec)

/-- The size of one side at the target price; `none` where reading it raises. -/
def sizeAtTarget (event : Value) : Option DecimalValue :=
  match ((event.get "bids").or (.array [])).iterate with
  | .error _ => none
  | .ok levels => levels.foldlM (fun total level => do
      let price ← levelNumber codec level "price"
      if ← price.same targetPrice then total.add (← levelNumber codec level "size")
      else some total) (.finite 0)

/-- One of the `price_changes`. -/
def applyChange (seen : Bool × Queues) (change : Value) : Option (Bool × Queues) :=
  if ¬ change.isObject then none
  else
    match outcomeOf update (textOf codec change "asset_id") with
    | none => some seen
    | some outcome =>
      if upper (textOf codec change "side") ≠ "BUY" then some seen
      else do
        let price ← decimalValue (((change.get "price").or (.string "0")).str codec)
        if ← price.same targetPrice then
          let size ← decimalValue (((change.get "size").or (.string "0")).str codec)
          let (differs, queues) ← seen.2.put outcome size
          if differs then some (true, queues) else some seen
        else some seen

/-- `_update_queues`; `none` where it raises. -/
def updateQueues (event : Value) (queues : Queues) : Option (Bool × Queues) :=
  if textOf codec event "event_type" = "book" then
    match outcomeOf update (textOf codec event "asset_id") with
    | none => some (false, queues)
    | some outcome => (sizeAtTarget codec event).bind fun size => queues.put outcome size
  else if textOf codec event "event_type" = "price_change" then
    match ((event.get "price_changes").or (.array [])).iterate with
    | .error _ => none
    | .ok changes => changes.foldlM (applyChange codec update) (false, queues)
  else some (false, queues)

/-- `_timestamp_ms`: the venue's time, or none where the machine's is taken;
nothing where it raises. -/
def timestampMs (value : Value) : Option (Option ℕ) :=
  let text := (value.or (.string "")).str codec
  if isDecimal text.toList then (int text).map fun n => some n.toNat else some none

/-- `_record` of the two queues. -/
def recordRow (ts : ℚ) (event : Value) (up down : DecimalValue) : Option QueueRow :=
  (timestampMs codec (event.get "timestamp")).map fun sourceTsMs =>
    ⟨ts, sourceTsMs, update.market.slug, update.marketDiscoveredTsMs,
      update.marketParametersDetectedTsMs, up, down⟩

/-- The events of one message, read at a clock; whether none of them raised. -/
def Book.observe (window ts : ℚ) : List Value → Book → Book × Bool
  | [], book => (book, true)
  | event :: events, book =>
    if ¬ event.isObject then observe window ts events book
    else match updateQueues codec update event book.queues with
      | none => (book, false)
      | some (changed, queues) =>
        let book := { book with queues := queues }
        match changed, queues.up, queues.down with
        | true, some up, some down =>
          let book := { book with openingDeadline := some (book.openingDeadline.getD (ts + window)) }
          match recordRow codec update ts event up down with
          | none => (book, false)
          | some row => observe window ts events { book with rows := book.rows ++ [row] }
        | _, _, _ => observe window ts events book

end Messages

/-- How a connection's watcher leaves: it returned, what it raised is taken for
a lost socket, or it is not. -/
inductive Leaving
  | returned
  | lost
  | raised
  deriving DecidableEq, Repr

/-- Where the monitor is: opening a connection, waiting for a message, closing
a connection, waiting for the next one, or through. -/
inductive ProbePhase
  | connecting
  | watching (connectedAt lastMessageAt limit : ℚ)
  | closing (leaving : Leaving)
  | sleeping (wakes : ℚ)
  | done
  deriving DecidableEq, Repr

/-- The monitor of a market: its clock, its two deadlines, what the connection
has seen, and the clocks at which it opened a connection. -/
structure Probe where
  now : ℚ
  bookDeadline : ℚ
  openingDeadline : Option ℚ
  book : Book
  phase : ProbePhase
  connects : List ℚ
  deriving DecidableEq, Repr

/-- What the monitor meets, and when. `handled` says that an exception is a
`ConnectionClosed`, an `OSError` or a `TimeoutError`. -/
inductive ProbeEvent
  | opened (ts : ℚ)
  | refused (ts : ℚ) (handled : Bool)
  | received (ts : ℚ) (raw : String)
  | quiet
  | dropped (ts : ℚ) (handled : Bool)
  | closed (ts : ℚ)
  | woke
  deriving DecidableEq, Repr

namespace Probe

variable (codec : Codec) (update : ActivationUpdate) (window : ℚ)

/-- `_monitor_market` up to its first connection. -/
def start (ts : ℚ) : Probe :=
  ⟨ts, ts + bookWaitSeconds, none, ⟨none, ⟨none, none⟩, []⟩, .connecting, [ts]⟩

/-- `opening_deadline or book_deadline`. -/
def deadline (p : Probe) : ℚ :=
  match p.book.openingDeadline with
  | some ts => if ts = 0 then p.bookDeadline else ts
  | none => p.bookDeadline

/-- The top of the watcher's loop, up to the next message. -/
def look (connectedAt lastMessageAt : ℚ) (p : Probe) : Probe :=
  if p.deadline - p.now ≤ 0 then { p with phase := .closing .returned }
  else
    match p.book.openingDeadline with
    | some _ => { p with phase := .watching connectedAt lastMessageAt p.deadline }
    | none =>
      let silenceLeft := lastMessageAt + silenceSeconds - p.now
      let resubscribeLeft := connectedAt + resubscribeSeconds - p.now
      if silenceLeft ≤ 0 ∨ resubscribeLeft ≤ 0 then { p with phase := .closing .lost }
      else { p with
        phase := .watching connectedAt lastMessageAt
          (p.now + min (p.deadline - p.now) (min silenceLeft resubscribeLeft)) }

def leave (handled : Bool) : Leaving := if handled then .lost else .raised

def eventsOf : Value → List Value
  | .array events => events
  | payload => [payload]

def receive (ts : ℚ) (raw : String) (connectedAt : ℚ) (p : Probe) : Probe :=
  let p := { p with now := ts }
  if raw = "PONG" then p.look connectedAt ts
  else match codec.loads raw with
    | none => { p with phase := .closing .raised }
    | some payload =>
      let (book, read) := Book.observe codec update window ts (eventsOf payload) p.book
      if read then ({ p with book := book }).look connectedAt ts
      else { p with book := book, phase := .closing .raised }

def leaveConnection (ts : ℚ) (p : Probe) : Leaving → Probe
  | .returned =>
    { p with now := ts, openingDeadline := p.book.openingDeadline, phase := .done }
  | .raised => { p with now := ts, phase := .done }
  | .lost =>
    let remaining := p.bookDeadline - ts
    if remaining ≤ 0 then { p with now := ts, phase := .done }
    else { p with now := ts, phase := .sleeping (ts + min reconnectDelaySeconds (max 0 remaining)) }

/-- What each event does; an event that cannot come where the monitor is, or
then, changes nothing. -/
def next (p : Probe) (e : ProbeEvent) : Probe :=
  match e, p.phase with
  | .opened ts, .connecting =>
    if p.now ≤ ts then
      ({ p with now := ts, book := { p.book with openingDeadline := p.openingDeadline } }).look ts ts
    else p
  | .refused ts handled, .connecting =>
    if p.now ≤ ts then { p with now := ts, phase := .closing (leave handled) } else p
  | .received ts raw, .watching connectedAt _ limit =>
    if p.now ≤ ts ∧ ts ≤ limit then p.receive codec update window ts raw connectedAt else p
  | .quiet, .watching connectedAt lastMessageAt limit =>
    if p.now ≤ limit then ({ p with now := limit }).look connectedAt lastMessageAt else p
  | .dropped ts handled, .watching _ _ limit =>
    if p.now ≤ ts ∧ ts ≤ limit then { p with now := ts, phase := .closing (leave handled) } else p
  | .closed ts, .closing leaving => if p.now ≤ ts then p.leaveConnection ts leaving else p
  | .woke, .sleeping wakes =>
    { p with now := wakes, phase := .connecting, connects := p.connects ++ [wakes] }
  | _, _ => p

end Probe

end EventQuant
