import EventQuant.Bot
import EventQuant.Paper

/-!
The paper simulation's own books: one row for each market of a strategy, from
its registration to its result. A market waits for its order book, then for its
end, and is settled; one whose book was not seen before the end is missed. Its
decimals are exact.
-/
namespace EventQuant.Paper

/-- `FINALIZATION_DELAY_SECONDS`. -/
def finalizationDelaySeconds : ℤ := 120

/-- A plan `validate` accepted, as the command line hands it on. -/
structure AcceptedPlan extends TradePlan where
  accepted : toTradePlan.validate .exact = .ok ()

namespace AcceptedPlan

variable (plan : AcceptedPlan)

theorem valid : plan.Valid := TradePlan.valid_of_validate plan.accepted

theorem buyPrice_pos : 0 < plan.buyPrice := plan.valid.price.1

theorem orderSize_pos : 0 < plan.orderSize .exact := div_pos plan.valid.usd plan.buyPrice_pos

end AcceptedPlan

inductive PaperStatus
  | snapshotPending
  | monitoring
  | settled
  | missed
  deriving DecidableEq, Repr

/-- A row of `paper_markets`. The columns `set_snapshot` writes are empty until
then, and so are those of `set_result`, which come with the number of trades. -/
structure PaperRow where
  strategyKey : String
  slug : String
  conditionId : String
  startTs : ℤ
  endTs : ℤ
  upTokenId : String
  downTokenId : String
  marketDiscoveredTsMs : ℤ
  marketParametersDetectedTsMs : ℤ
  snapshotTsMs : Option ℤ
  bookSourceTsMs : Option ℤ
  buyPrice : ℚ
  orderSize : ℚ
  upQueueAhead : Option ℚ
  downQueueAhead : Option ℚ
  status : PaperStatus
  result : Option (PaperResult × ℕ)
  error : Option String
  buyPrice_pos : 0 < buyPrice
  orderSize_pos : 0 < orderSize

/-- `PRIMARY KEY(strategy_key, slug)`. -/
def PaperRow.key (row : PaperRow) : String × String := (row.strategyKey, row.slug)

/-- The row of `paper_state`. -/
structure PaperState where
  strategyKey : String
  buyPrice : ℚ
  usdPerSide : ℚ
  orderSize : ℚ
  startedTs : ℤ
  heartbeatTs : ℤ
  deriving DecidableEq, Repr

structure PaperDatabase where
  state : Option PaperState
  markets : Table (String × String) PaperRow PaperRow.key

/-- One committed statement. -/
inductive PaperWrite
  | start (key : String) (plan : AcceptedPlan) (now : ℤ)
  | heartbeat (now : ℤ)
  | register (key : String) (update : ActivationUpdate) (plan : AcceptedPlan)
  | expirePendingSnapshots (key : String) (nowTs : ℤ)
  | setSnapshot (key slug : String) (snapshotTsMs bookSourceTsMs : ℤ)
      (upQueueAhead downQueueAhead : ℚ)
  | setError (key slug error : String)
  | setResult (key slug : String) (result : PaperResult) (tradeCount : ℕ)

namespace PaperDatabase

def empty : PaperDatabase := ⟨none, Table.empty⟩

def market (db : PaperDatabase) (key slug : String) : Option PaperRow := db.markets.get? (key, slug)

def registeredRow (key : String) (update : ActivationUpdate) (plan : AcceptedPlan) : PaperRow where
  strategyKey := key
  slug := update.market.slug
  conditionId := update.market.conditionId
  startTs := update.market.startTs
  endTs := update.market.endTs
  upTokenId := update.market.upTokenId
  downTokenId := update.market.downTokenId
  marketDiscoveredTsMs := update.marketDiscoveredTsMs
  marketParametersDetectedTsMs := update.marketParametersDetectedTsMs
  snapshotTsMs := none
  bookSourceTsMs := none
  buyPrice := plan.buyPrice
  orderSize := plan.orderSize .exact
  upQueueAhead := none
  downQueueAhead := none
  status := .snapshotPending
  result := none
  error := none
  buyPrice_pos := plan.buyPrice_pos
  orderSize_pos := plan.orderSize_pos

def updateRows (db : PaperDatabase) (chosen : PaperRow → Bool) (f : PaperRow → PaperRow)
    (hf : ∀ r, (f r).key = r.key) : PaperDatabase :=
  { db with markets := db.markets.update chosen f hf }

/-- `WHERE strategy_key=? AND slug=?`. -/
def updateMarket (db : PaperDatabase) (key slug : String) (f : PaperRow → PaperRow)
    (hf : ∀ r, (f r).key = r.key) : PaperDatabase :=
  db.updateRows (fun r => r.key = (key, slug)) f hf

def start (db : PaperDatabase) (key : String) (plan : AcceptedPlan) (now : ℤ) : PaperDatabase :=
  { db with state := some ⟨key, plan.buyPrice, plan.usdPerSide, plan.orderSize .exact, now, now⟩ }

def heartbeat (db : PaperDatabase) (now : ℤ) : PaperDatabase :=
  { db with state := db.state.map fun state => { state with heartbeatTs := now } }

/-- `INSERT OR IGNORE`. -/
def register (db : PaperDatabase) (key : String) (update : ActivationUpdate) (plan : AcceptedPlan) :
    PaperDatabase :=
  if (db.market key update.market.slug).isSome then db
  else { db with markets := db.markets.put (registeredRow key update plan) }

def missedRow (r : PaperRow) : PaperRow :=
  { r with
    status := .missed
    error := some "public order book was not observed before market end" }

theorem missedRow_key (r : PaperRow) : (missedRow r).key = r.key := rfl

def expirePendingSnapshots (db : PaperDatabase) (key : String) (nowTs : ℤ) : PaperDatabase :=
  db.updateRows (fun r => r.strategyKey = key ∧ r.status = .snapshotPending ∧ r.endTs ≤ nowTs)
    missedRow missedRow_key

def capturedRow (snapshotTsMs bookSourceTsMs : ℤ) (upQueueAhead downQueueAhead : ℚ) (r : PaperRow) :
    PaperRow :=
  { r with
    snapshotTsMs := some snapshotTsMs
    bookSourceTsMs := some bookSourceTsMs
    upQueueAhead := some upQueueAhead
    downQueueAhead := some downQueueAhead
    status := .monitoring
    error := none }

theorem capturedRow_key (snapshotTsMs bookSourceTsMs : ℤ) (upQueueAhead downQueueAhead : ℚ)
    (r : PaperRow) :
    (capturedRow snapshotTsMs bookSourceTsMs upQueueAhead downQueueAhead r).key = r.key := rfl

def failedRow (error : String) (r : PaperRow) : PaperRow := { r with error := some error }

theorem failedRow_key (error : String) (r : PaperRow) : (failedRow error r).key = r.key := rfl

def settledRow (result : PaperResult) (tradeCount : ℕ) (r : PaperRow) : PaperRow :=
  { r with
    status := .settled
    result := some (result, tradeCount)
    error := none }

theorem settledRow_key (result : PaperResult) (tradeCount : ℕ) (r : PaperRow) :
    (settledRow result tradeCount r).key = r.key := rfl

def apply (db : PaperDatabase) : PaperWrite → PaperDatabase
  | .start key plan now => db.start key plan now
  | .heartbeat now => db.heartbeat now
  | .register key update plan => db.register key update plan
  | .expirePendingSnapshots key nowTs => db.expirePendingSnapshots key nowTs
  | .setSnapshot key slug snapshotTsMs bookSourceTsMs upQueueAhead downQueueAhead =>
    db.updateMarket key slug (capturedRow snapshotTsMs bookSourceTsMs upQueueAhead downQueueAhead)
      (capturedRow_key _ _ _ _)
  | .setError key slug error => db.updateMarket key slug (failedRow error) (failedRow_key error)
  | .setResult key slug result tradeCount =>
    db.updateMarket key slug (settledRow result tradeCount) (settledRow_key result tradeCount)

instance : Store PaperDatabase PaperWrite where
  apply := PaperDatabase.apply

def pendingSnapshots (db : PaperDatabase) (key : String) : List PaperRow :=
  (db.markets.rows.filter fun r => r.strategyKey = key ∧ r.status = .snapshotPending).insertionSort
    fun a b => a.marketParametersDetectedTsMs ≤ b.marketParametersDetectedTsMs

def readyToSettle (db : PaperDatabase) (key : String) (nowTs : ℤ) : List PaperRow :=
  (db.markets.rows.filter fun r => r.strategyKey = key ∧ r.status = .monitoring ∧
    r.endTs ≤ nowTs - finalizationDelaySeconds).insertionSort fun a b => a.endTs ≤ b.endTs

/-! ### What one statement does to a row -/

theorem market_updateMarket (db : PaperDatabase) (key slug : String) (f : PaperRow → PaperRow)
    (hf : ∀ r, (f r).key = r.key) (k s : String) :
    (db.updateMarket key slug f hf).market k s =
      if (k, s) = (key, slug) then (db.market k s).map f else db.market k s := by
  unfold market updateMarket updateRows
  rw [Table.get?_update]
  cases hrow : db.markets.get? (k, s) with
  | none => split <;> rfl
  | some r =>
    have hkey : r.key = (k, s) := Table.get?_key hrow
    by_cases hsame : (k, s) = (key, slug)
    · simp [hsame, hkey.trans hsame]
    · have hother : ¬ r.key = (key, slug) := fun h => hsame (hkey.symm.trans h)
      simp [hsame, hother]

theorem market_key {db : PaperDatabase} {k s : String} {r : PaperRow} (h : db.market k s = some r) :
    r.strategyKey = k ∧ r.slug = s := by
  have hkey : r.key = (k, s) := Table.get?_key h
  exact ⟨congrArg Prod.fst hkey, congrArg Prod.snd hkey⟩

theorem market_of_mem {db : PaperDatabase} {r : PaperRow} (h : r ∈ db.markets.rows) :
    db.market r.strategyKey r.slug = some r := Table.get?_of_mem h

theorem market_register (db : PaperDatabase) (key : String) (update : ActivationUpdate)
    (plan : AcceptedPlan) (k s : String) :
    (db.register key update plan).market k s =
      if db.market k s = none ∧ (k, s) = (key, update.market.slug) then
        some (registeredRow key update plan)
      else db.market k s := by
  unfold register
  by_cases hknown : (db.market key update.market.slug).isSome
  · rw [if_pos hknown, if_neg]
    rintro ⟨hnone, hsame⟩
    obtain ⟨rfl, rfl⟩ := Prod.mk.inj hsame
    rw [hnone] at hknown
    cases hknown
  · rw [if_neg hknown]
    unfold market
    rw [Table.get?_put]
    have hkey : (registeredRow key update plan).key = (key, update.market.slug) := rfl
    rw [hkey]
    by_cases hsame : (k, s) = (key, update.market.slug)
    · have hnone : db.markets.get? (k, s) = none := by
        rw [hsame]
        exact Option.not_isSome_iff_eq_none.mp hknown
      rw [if_pos hsame.symm, if_pos ⟨hnone, hsame⟩]
    · rw [if_neg fun h => hsame h.symm, if_neg fun h => hsame h.2]

theorem market_expirePendingSnapshots (db : PaperDatabase) (key : String) (nowTs : ℤ) (k s : String) :
    (db.expirePendingSnapshots key nowTs).market k s =
      (db.market k s).map fun r =>
        if k = key ∧ r.status = .snapshotPending ∧ r.endTs ≤ nowTs then missedRow r else r := by
  unfold expirePendingSnapshots market updateRows
  rw [Table.get?_update]
  cases hrow : db.markets.get? (k, s) with
  | none => rfl
  | some r =>
    have hmarket : db.market k s = some r := hrow
    have hkey := (market_key hmarket).1
    simp [hkey]

theorem mem_pendingSnapshots {db : PaperDatabase} {key : String} {r : PaperRow} :
    r ∈ db.pendingSnapshots key ↔
      db.market key r.slug = some r ∧ r.status = .snapshotPending := by
  unfold pendingSnapshots
  rw [List.mem_insertionSort, List.mem_filter, decide_eq_true_iff]
  constructor
  · rintro ⟨hmem, rfl, hstatus⟩
    exact ⟨market_of_mem hmem, hstatus⟩
  · rintro ⟨hrow, hstatus⟩
    exact ⟨Table.get?_mem hrow, (market_key hrow).1, hstatus⟩

theorem mem_readyToSettle {db : PaperDatabase} {key : String} {nowTs : ℤ} {r : PaperRow} :
    r ∈ db.readyToSettle key nowTs ↔ db.market key r.slug = some r ∧ r.status = .monitoring ∧
      r.endTs ≤ nowTs - finalizationDelaySeconds := by
  unfold readyToSettle
  rw [List.mem_insertionSort, List.mem_filter, decide_eq_true_iff]
  constructor
  · rintro ⟨hmem, rfl, hstatus, hover⟩
    exact ⟨market_of_mem hmem, hstatus, hover⟩
  · rintro ⟨hrow, hstatus, hover⟩
    exact ⟨Table.get?_mem hrow, (market_key hrow).1, hstatus, hover⟩

end PaperDatabase

end EventQuant.Paper
