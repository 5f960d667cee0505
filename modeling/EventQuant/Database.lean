import EventQuant.Library.Commits
import EventQuant.Library.Table
import EventQuant.Models
import EventQuant.OrderStatus

/-!
The bot's own books: one row for each market and for each order id. Every
write is a commit of its own, and the queries read the rows in the order the
database keeps them.
-/
namespace EventQuant

/-- Where a market's entry plan stands. -/
inductive MarketState
  | placing
  | placementPending
  | active
  | skipped
  | error
  | expired
  | exitError
  deriving DecidableEq, Repr

structure MarketRow where
  slug : String
  runId : ℕ
  conditionId : String
  endTs : ℤ
  upTokenId : String
  downTokenId : String
  minSize : ℚ
  tickSize : ℚ
  state : MarketState
  error : Option String
  deriving DecidableEq, Repr

structure OrderRow where
  orderId : String
  slug : String
  outcome : String
  tokenId : String
  side : Side
  role : Role
  account : String
  price : ℚ
  size : ℚ
  matchedSize : ℚ
  status : String
  createdTs : ℤ
  deriving DecidableEq, Repr

structure Database where
  markets : Table String MarketRow MarketRow.slug
  orders : Table String OrderRow OrderRow.orderId

inductive Write
  | prepareMarket (runId : ℕ) (market : Market) (state : MarketState)
  | setMarketState (slug : String) (state : MarketState) (error : Option String)
  | addOrder (now : ℤ) (slug : String) (order : PlacedOrder)
  | updateOrder (orderId : String) (status : String) (matchedSize : ℚ)
  | markOrders (orderIds : List String) (status : String)

namespace Database

def empty : Database := ⟨Table.empty, Table.empty⟩

def hasMarket (db : Database) (slug : String) : Bool := (db.markets.get? slug).isSome

def marketRow (runId : ℕ) (m : Market) (state : MarketState) : MarketRow :=
  ⟨m.slug, runId, m.conditionId, m.endTs, m.upTokenId, m.downTokenId, m.minSize, m.tickSize, state,
    none⟩

/-- `add_order` takes an order reported as matched for a full fill. -/
def initialMatched (order : PlacedOrder) : ℚ :=
  if order.status = "matched" ∨ order.status = "filled" then order.size else 0

def orderRow (now : ℤ) (slug : String) (order : PlacedOrder) : OrderRow :=
  ⟨order.orderId, slug, order.outcome, order.tokenId, order.side, order.role, order.account,
    order.price, order.size, initialMatched order, order.status, now⟩

/-- `UPDATE markets ... WHERE slug=?`. -/
def updateMarket (db : Database) (slug : String) (f : MarketRow → MarketRow)
    (hf : ∀ r, (f r).slug = r.slug) : Database :=
  { db with markets := db.markets.update (fun r => r.slug = slug) f hf }

/-- `UPDATE orders ... WHERE order_id IN (...)`. -/
def updateOrders (db : Database) (orderIds : List String) (f : OrderRow → OrderRow)
    (hf : ∀ r, (f r).orderId = r.orderId) : Database :=
  { db with orders := db.orders.update (fun r => r.orderId ∈ orderIds) f hf }

/-- What one write does. A new market is a new row; an order of an id that
has a row replaces it whole. -/
def apply (db : Database) : Write → Database
  | .prepareMarket runId m state =>
    if db.hasMarket m.slug then
      db.updateMarket m.slug (fun r => { marketRow runId m state with slug := r.slug }) fun _ => rfl
    else { db with markets := db.markets.put (marketRow runId m state) }
  | .setMarketState slug state error =>
    db.updateMarket slug (fun r => { r with state := state, error := error }) fun _ => rfl
  | .addOrder now slug order => { db with orders := db.orders.put (orderRow now slug order) }
  | .updateOrder orderId status matchedSize =>
    db.updateOrders [orderId] (fun r => { r with status := status, matchedSize := matchedSize })
      fun _ => rfl
  | .markOrders orderIds status =>
    db.updateOrders orderIds (fun r => { r with status := status }) fun _ => rfl

def order (db : Database) (orderId : String) : Option OrderRow := db.orders.get? orderId

def canStartEntryPlan (db : Database) (slug : String) : Bool :=
  match db.markets.get? slug with
  | none => true
  | some row =>
    decide (row.state = .placementPending) && !db.orders.rows.any (fun r => r.slug = slug)

/-- `JOIN markets m ON m.slug=o.slug`. -/
def withMarkets (db : Database) (orders : List OrderRow) : List (OrderRow × MarketRow) :=
  orders.filterMap fun r => (db.markets.get? r.slug).map fun m => (r, m)

/-- `ORDER BY created_ts`, which leaves what is of one age as it came. -/
def oldestFirst (orders : List OrderRow) : List OrderRow :=
  orders.insertionSort fun a b => a.createdTs ≤ b.createdTs

/-- `status IN (...)`, found through `idx_orders_status`: state by state, and of
one state in the order of the rows. -/
def byStatus (db : Database) (states : List String) : List OrderRow :=
  (states.insertionSort (· ≤ ·)).flatMap fun status => db.orders.rows.filter fun r => r.status = status

def trackedOpenOrders (db : Database) : List (OrderRow × MarketRow) :=
  db.withMarkets (oldestFirst (db.byStatus trackedStates))

/-- Market by market, ordered by the market's end and then by the order's age. -/
def dueOpenOrders (db : Database) (cutoffTs : ℚ) : List (OrderRow × MarketRow) :=
  let due := (db.markets.rows.filter fun m => (m.endTs : ℚ) ≤ cutoffTs).flatMap fun m =>
    (db.orders.rows.filter fun r => r.slug = m.slug ∧ r.status ∈ dueStates).map fun r => (r, m)
  due.insertionSort fun a b =>
    a.2.endTs < b.2.endTs ∨ a.2.endTs = b.2.endTs ∧ a.1.createdTs ≤ b.1.createdTs

def entryOrdersWithFills (db : Database) : List (OrderRow × MarketRow) :=
  db.withMarkets (oldestFirst (db.orders.rows.filter fun r => r.role = .entry ∧ 0 < r.matchedSize))

theorem order_iff {db : Database} {r : OrderRow} : db.order r.orderId = some r ↔ r ∈ db.orders.rows :=
  ⟨Table.get?_mem, Table.get?_of_mem⟩

theorem mem_withMarkets {db : Database} {orders : List OrderRow} {p : OrderRow × MarketRow} :
    p ∈ db.withMarkets orders ↔ p.1 ∈ orders ∧ db.markets.get? p.1.slug = some p.2 := by
  unfold withMarkets
  rw [List.mem_filterMap]
  constructor
  · rintro ⟨row, hrow, hpair⟩
    obtain ⟨market, hmarket, rfl⟩ := Option.map_eq_some_iff.mp hpair
    exact ⟨hrow, hmarket⟩
  · rintro ⟨hrow, hmarket⟩
    exact ⟨p.1, hrow, by rw [hmarket]; rfl⟩

@[simp] theorem mem_oldestFirst {orders : List OrderRow} {r : OrderRow} :
    r ∈ oldestFirst orders ↔ r ∈ orders := List.mem_insertionSort _

@[simp] theorem mem_byStatus {db : Database} {states : List String} {r : OrderRow} :
    r ∈ db.byStatus states ↔ r ∈ db.orders.rows ∧ r.status ∈ states := by
  unfold byStatus
  simp only [List.mem_flatMap, List.mem_insertionSort, List.mem_filter, decide_eq_true_eq]
  constructor
  · rintro ⟨status, hstatus, hr, rfl⟩
    exact ⟨hr, hstatus⟩
  · rintro ⟨hr, hstatus⟩
    exact ⟨r.status, hstatus, hr, rfl⟩

theorem mem_trackedOpenOrders {db : Database} {p : OrderRow × MarketRow} :
    p ∈ db.trackedOpenOrders ↔ db.order p.1.orderId = some p.1 ∧ p.1.status ∈ trackedStates ∧
      db.markets.get? p.1.slug = some p.2 := by
  unfold trackedOpenOrders
  rw [mem_withMarkets, mem_oldestFirst, mem_byStatus, order_iff, and_assoc]

theorem mem_dueOpenOrders {db : Database} {cutoffTs : ℚ} {p : OrderRow × MarketRow} :
    p ∈ db.dueOpenOrders cutoffTs ↔ db.order p.1.orderId = some p.1 ∧ p.1.status ∈ dueStates ∧
      db.markets.get? p.1.slug = some p.2 ∧ (p.2.endTs : ℚ) ≤ cutoffTs := by
  unfold dueOpenOrders
  simp only [List.mem_insertionSort, List.mem_flatMap, List.mem_filter, List.mem_map,
    decide_eq_true_eq, order_iff, Table.get?_eq_some_iff]
  constructor
  · rintro ⟨m, ⟨hm, hend⟩, r, ⟨hr, hslug, hstatus⟩, rfl⟩
    exact ⟨hr, hstatus, ⟨hm, hslug.symm⟩, hend⟩
  · rintro ⟨hr, hstatus, ⟨hm, hslug⟩, hend⟩
    exact ⟨p.2, ⟨hm, hend⟩, p.1, ⟨hr, hslug.symm, hstatus⟩, rfl⟩

theorem mem_entryOrdersWithFills {db : Database} {p : OrderRow × MarketRow} :
    p ∈ db.entryOrdersWithFills ↔ db.order p.1.orderId = some p.1 ∧
      (p.1.role = .entry ∧ 0 < p.1.matchedSize) ∧ db.markets.get? p.1.slug = some p.2 := by
  unfold entryOrdersWithFills
  rw [mem_withMarkets, mem_oldestFirst, List.mem_filter, order_iff, decide_eq_true_eq, and_assoc]

def marketForCondition (db : Database) (conditionId : String) (runId : ℕ) : Option MarketRow :=
  db.markets.rows.find? fun r => r.conditionId = conditionId ∧ r.runId = runId

def restingSize (d : Decimals) (r : OrderRow) : ℚ := max 0 (d.sub r.size r.matchedSize)

def activeReservedUsd (db : Database) (d : Decimals) : ℚ :=
  d.sum (((db.byStatus trackedStates).filter fun r => r.side = .buy).map fun r =>
    d.mul r.price (restingSize d r))

/-- `dayStart` is midnight of the day the query is asked on. -/
def dailyFilledCost (db : Database) (d : Decimals) (dayStart : ℤ) : ℚ :=
  d.sum ((db.orders.rows.filter fun r => dayStart ≤ r.createdTs ∧ r.role = .entry ∧ r.side = .buy).map
    fun r => d.mul r.price r.matchedSize)

/-- What a row adds to the total. A failed exit counts whole: it is not tried
again at that price. -/
def handled (d : Decimals) (total : ℚ) (r : OrderRow) : ℚ :=
  let total := d.add total r.matchedSize
  if r.status ∈ activeExitStates then d.add total (restingSize d r)
  else if r.status = "failed" then d.add total r.size
  else total

def exitHandledSize (db : Database) (d : Decimals) (slug outcome : String) (price : ℚ) : ℚ :=
  (db.orders.rows.filter fun r =>
    r.slug = slug ∧ r.outcome = outcome ∧ r.role = .exit ∧ r.price = price).foldl (handled d) 0

def activeExitReservedSize (db : Database) (d : Decimals) (slug outcome : String) : ℚ :=
  d.sum ((db.orders.rows.filter fun r =>
    r.slug = slug ∧ r.outcome = outcome ∧ r.role = .exit ∧ r.status ∈ activeExitStates).map
    (restingSize d))

instance : Store Database Write where
  apply := Database.apply

end Database

end EventQuant
