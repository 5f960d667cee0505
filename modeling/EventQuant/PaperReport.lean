import EventQuant.Library.Tally
import EventQuant.PaperReserve
import EventQuant.PaperRuns

/-!
What `status` reports of the paper simulation's books. Its counts are each a
count of rows, so that those of one kind add up, and its money is that of the
settled rows: over any run the profit is what was paid out less what it cost,
and no more than the cost was ever lost.
-/
namespace EventQuant.Paper

open Runs Tally

/-- `fill_patterns`. -/
structure FillPatterns where
  neither : ℕ
  upOnly : ℕ
  downOnly : ℕ
  both : ℕ
  deriving DecidableEq, Repr

/-- The markets that ended above, below and at their cost. -/
structure Outcomes where
  profitable : ℕ
  losing : ℕ
  breakeven : ℕ
  deriving DecidableEq, Repr

/-- The figures of `status`; a rate or an average is there once there is a row
to take it of. -/
structure PaperReport where
  heartbeatAgeSeconds : ℤ
  markets : List (PaperStatus × ℕ)
  settled : ℕ
  fillPatterns : FillPatterns
  marketsWithFill : ℕ
  fillRate : Option ℚ
  outcomes : Outcomes
  profitableRate : Option ℚ
  grossCost : ℚ
  grossPayout : ℚ
  pnlBeforeRebates : ℚ
  averagePnl : Option ℚ
  roiOnFilledCost : Option ℚ
  activeOrderReserve : ℚ
  peakOrderReserve : ℚ
  latest : List PaperRow

namespace PaperRow

def toReserveRow (r : PaperRow) : ReserveRow where
  snapshotTsMs := r.snapshotTsMs
  endTs := r.endTs
  buyPrice := r.buyPrice
  orderSize := r.orderSize
  buyPrice_pos := r.buyPrice_pos
  orderSize_pos := r.orderSize_pos

end PaperRow

def FillPatterns.add (patterns : FillPatterns) (result : PaperResult) : FillPatterns :=
  if 0 < result.upFill ∧ 0 < result.downFill then { patterns with both := patterns.both + 1 }
  else if 0 < result.upFill then { patterns with upOnly := patterns.upOnly + 1 }
  else if 0 < result.downFill then { patterns with downOnly := patterns.downOnly + 1 }
  else { patterns with neither := patterns.neither + 1 }

def Outcomes.add (outcomes : Outcomes) (result : PaperResult) : Outcomes :=
  if 0 < result.pnlBeforeRebates then { outcomes with profitable := outcomes.profitable + 1 }
  else if result.pnlBeforeRebates < 0 then { outcomes with losing := outcomes.losing + 1 }
  else { outcomes with breakeven := outcomes.breakeven + 1 }

def rate (part : ℚ) (settled : ℕ) : Option ℚ := if settled ≠ 0 then some (part / settled) else none

namespace PaperDatabase

/-- `ORDER BY start_ts DESC`. -/
def rowsOf (db : PaperDatabase) (key : String) : List PaperRow :=
  (db.markets.rows.filter fun r => r.strategyKey = key).insertionSort fun a b => b.startTs ≤ a.startTs

def settledResults (rows : List PaperRow) : List PaperResult :=
  (rows.filter fun r => r.status = .settled).filterMap fun r => r.result.map Prod.fst

def reportOf (rows : List PaperRow) (heartbeatTs now : ℤ) : PaperReport :=
  let settled := settledResults rows
  let cost := (settled.map PaperResult.grossCost).sum
  let pnl := (settled.map PaperResult.pnlBeforeRebates).sum
  let patterns := settled.foldl FillPatterns.add ⟨0, 0, 0, 0⟩
  let outcomes := settled.foldl Outcomes.add ⟨0, 0, 0⟩
  let filledMarkets := settled.length - patterns.neither
  { heartbeatAgeSeconds := max 0 (now - heartbeatTs)
    markets := tally (rows.map PaperRow.status)
    settled := settled.length
    fillPatterns := patterns
    marketsWithFill := filledMarkets
    fillRate := rate filledMarkets settled.length
    outcomes := outcomes
    profitableRate := rate outcomes.profitable settled.length
    grossCost := cost
    grossPayout := (settled.map PaperResult.grossPayout).sum
    pnlBeforeRebates := pnl
    averagePnl := rate pnl settled.length
    roiOnFilledCost := if cost ≠ 0 then some (pnl / cost) else none
    activeOrderReserve := activeOrderReserve now (rows.map PaperRow.toReserveRow)
    peakOrderReserve := peakOrderReserve (rows.map PaperRow.toReserveRow)
    latest := rows.take 10 }

def status (db : PaperDatabase) (now : ℤ) : Option PaperReport :=
  db.state.map fun state => reportOf (db.rowsOf state.strategyKey) state.heartbeatTs now

end PaperDatabase

/-! ### What adds up -/

def PaperResult.unfilled (result : PaperResult) : Bool := ¬ 0 < result.upFill ∧ ¬ 0 < result.downFill

def FillPatterns.total (patterns : FillPatterns) : ℕ :=
  patterns.neither + patterns.upOnly + patterns.downOnly + patterns.both

def Outcomes.total (outcomes : Outcomes) : ℕ :=
  outcomes.profitable + outcomes.losing + outcomes.breakeven

/-- A settled row counts in one pattern. -/
theorem FillPatterns.total_add (patterns : FillPatterns) (result : PaperResult) :
    (patterns.add result).total = patterns.total + 1 := by
  unfold add total
  split_ifs <;> simp only <;> omega

theorem FillPatterns.neither_add (patterns : FillPatterns) (result : PaperResult) :
    (patterns.add result).neither = patterns.neither + if result.unfilled then 1 else 0 := by
  by_cases hup : 0 < result.upFill <;> by_cases hdown : 0 < result.downFill <;>
    simp [add, PaperResult.unfilled, hup, hdown]

/-- And in one outcome. -/
theorem Outcomes.total_add (outcomes : Outcomes) (result : PaperResult) :
    (outcomes.add result).total = outcomes.total + 1 := by
  unfold add total
  split_ifs <;> simp only <;> omega

theorem Outcomes.breakeven_add (outcomes : Outcomes) (result : PaperResult) :
    (outcomes.add result).breakeven =
      outcomes.breakeven + if decide (result.pnlBeforeRebates = 0) then 1 else 0 := by
  unfold add
  rcases lt_trichotomy result.pnlBeforeRebates 0 with hlt | heq | hgt
  · simp [not_lt.mpr hlt.le, hlt, hlt.ne]
  · simp [heq]
  · simp [hgt, hgt.ne']

/-- No more than those with a fill end above their cost. -/
theorem Outcomes.profitable_le {outcomes : Outcomes} {neither settled : ℕ}
    (htotal : outcomes.total = settled) (hneither : neither ≤ outcomes.breakeven) :
    outcomes.profitable ≤ settled - neither := by
  unfold total at htotal
  omega

section Folds

variable (results : List PaperResult)

theorem fillPatterns_total : (results.foldl FillPatterns.add ⟨0, 0, 0, 0⟩).total = results.length :=
  (foldl_length FillPatterns.total_add results ⟨0, 0, 0, 0⟩).trans (Nat.zero_add _)

theorem fillPatterns_neither : (results.foldl FillPatterns.add ⟨0, 0, 0, 0⟩).neither =
    results.countP PaperResult.unfilled :=
  (foldl_count FillPatterns.neither_add results ⟨0, 0, 0, 0⟩).trans (Nat.zero_add _)

theorem outcomes_total : (results.foldl Outcomes.add ⟨0, 0, 0⟩).total = results.length :=
  (foldl_length Outcomes.total_add results ⟨0, 0, 0⟩).trans (Nat.zero_add _)

theorem outcomes_breakeven : (results.foldl Outcomes.add ⟨0, 0, 0⟩).breakeven =
    results.countP fun r => r.pnlBeforeRebates = 0 :=
  (foldl_count Outcomes.breakeven_add results ⟨0, 0, 0⟩).trans (Nat.zero_add _)

end Folds

/-- The report adds up over the strategy's rows. -/
structure PaperReport.Adds (report : PaperReport) (rows : List PaperRow) : Prop where
  markets : ∀ status n, (status, n) ∈ report.markets ↔
    n = rows.countP (fun r => r.status = status) ∧ 0 < n
  settled : report.settled = rows.countP fun r => r.status = .settled
  patterns : report.fillPatterns.total = report.settled
  outcomes : report.outcomes.total = report.settled
  withFill : report.marketsWithFill + report.fillPatterns.neither = report.settled
  unfilled : report.fillPatterns.neither ≤ report.outcomes.breakeven
  fillRate : ∀ q, report.fillRate = some q → 0 ≤ q ∧ q ≤ 1
  profitableRate : ∀ q, report.profitableRate = some q → ∃ filled, report.fillRate = some filled ∧
    0 ≤ q ∧ q ≤ filled
  pnl : report.pnlBeforeRebates = report.grossPayout - report.grossCost
  payout : 0 ≤ report.grossPayout
  cost : 0 ≤ report.grossCost ∧ report.grossCost ≤
    ((rows.filter fun r => r.status = .settled).map fun r => r.toReserveRow.reserve).sum
  roi : ∀ q, report.roiOnFilledCost = some q → -1 ≤ q

namespace PaperResult.Consistent

variable {result : PaperResult} {buyPrice orderSize : ℚ} (h : result.Consistent buyPrice orderSize)

include h

theorem payout_nonneg : 0 ≤ result.grossPayout := by
  rw [h.payout]
  split
  · exact h.upFill.1
  · exact h.downFill.1

theorem cost_nonneg (hprice : 0 < buyPrice) : 0 ≤ result.grossCost := by
  rw [h.cost]
  exact mul_nonneg hprice.le (add_nonneg h.upFill.1 h.downFill.1)

theorem cost_le (hprice : 0 < buyPrice) : result.grossCost ≤ buyPrice * orderSize * 2 := by
  rw [h.cost, mul_assoc]
  refine mul_le_mul_of_nonneg_left ?_ hprice.le
  linarith [h.upFill.2, h.downFill.2]

/-- What was not filled cost nothing and pays nothing. -/
theorem pnl_of_unfilled (hunfilled : result.unfilled = true) : result.pnlBeforeRebates = 0 := by
  obtain ⟨hup, hdown⟩ : ¬ 0 < result.upFill ∧ ¬ 0 < result.downFill := by
    simpa [unfilled] using hunfilled
  have hup' : result.upFill = 0 := le_antisymm (not_lt.mp hup) h.upFill.1
  have hdown' : result.downFill = 0 := le_antisymm (not_lt.mp hdown) h.downFill.1
  rw [h.pnl, h.payout, h.cost, hup', hdown']
  simp

end PaperResult.Consistent

/-- The settled rows and their results, place by place. -/
theorem settledResults_forall₂ {rows : List PaperRow} (h : ∀ r ∈ rows, r.Proper) :
    List.Forall₂ (fun (r : PaperRow) result => result.Consistent r.buyPrice r.orderSize)
      (rows.filter fun r => r.status = .settled) (PaperDatabase.settledResults rows) := by
  have hresult : ∀ r ∈ rows.filter fun r => r.status = .settled,
      ∃ result tradeCount, r.result = some (result, tradeCount) ∧
        result.Consistent r.buyPrice r.orderSize := by
    intro r hr
    obtain ⟨hmem, hstatus⟩ := List.mem_filter.mp hr
    exact ((h r hmem).settled (by simpa using hstatus)).2
  have hread : (rows.filter fun r => r.status = .settled).mapM (fun r => r.result.map Prod.fst) =
      some (PaperDatabase.settledResults rows) := by
    refine Results.mapM_filterMap fun r hr => ?_
    obtain ⟨result, tradeCount, hsome, -⟩ := hresult r hr
    rw [hsome]
    rfl
  refine ((List.forall₂_and_left _ _).mpr ⟨hresult, Results.forall₂_of_mapM_some hread⟩).imp ?_
  rintro r result ⟨⟨result', tradeCount, hsome, hconsistent⟩, hmap⟩
  rw [hsome] at hmap
  exact Option.some.inj hmap ▸ hconsistent

section Sums

variable {rows : List PaperRow} {results : List PaperResult}
  (h : List.Forall₂ (fun (r : PaperRow) result => result.Consistent r.buyPrice r.orderSize) rows results)

include h

theorem sum_pnl : (results.map PaperResult.pnlBeforeRebates).sum =
    (results.map PaperResult.grossPayout).sum - (results.map PaperResult.grossCost).sum := by
  induction h with
  | nil => simp
  | @cons r result rows results hresult _ ih =>
    simp only [List.map_cons, List.sum_cons, ih, hresult.pnl]
    ring

theorem sum_payout_nonneg : 0 ≤ (results.map PaperResult.grossPayout).sum := by
  induction h with
  | nil => simp
  | @cons r result rows results hresult _ ih =>
    rw [List.map_cons, List.sum_cons]
    exact add_nonneg hresult.payout_nonneg ih

theorem sum_cost : 0 ≤ (results.map PaperResult.grossCost).sum ∧
    (results.map PaperResult.grossCost).sum ≤ (rows.map fun r => r.toReserveRow.reserve).sum := by
  induction h with
  | nil => simp
  | @cons r result rows results hresult _ ih =>
    rw [List.map_cons, List.sum_cons, List.map_cons, List.sum_cons]
    exact ⟨add_nonneg (hresult.cost_nonneg r.buyPrice_pos) ih.1,
      add_le_add (hresult.cost_le r.buyPrice_pos) ih.2⟩

theorem countP_unfilled_le : results.countP PaperResult.unfilled ≤
    results.countP fun result => result.pnlBeforeRebates = 0 := by
  induction h with
  | nil => exact le_rfl
  | @cons r result rows results hresult _ ih =>
    rw [List.countP_cons, List.countP_cons]
    refine add_le_add ih ?_
    by_cases hunfilled : result.unfilled = true
    · rw [if_pos hunfilled, if_pos (decide_eq_true (hresult.pnl_of_unfilled hunfilled))]
    · rw [if_neg hunfilled]
      exact Nat.zero_le _

end Sums

theorem rate_eq_some {part q : ℚ} {n : ℕ} (h : rate part n = some q) : n ≠ 0 ∧ q = part / n := by
  unfold rate at h
  split at h
  · rename_i hn
    exact ⟨hn, (Option.some.inj h).symm⟩
  · exact nomatch h

theorem reportOf_adds {rows : List PaperRow} (h : ∀ r ∈ rows, r.Proper) (heartbeatTs now : ℤ) :
    (PaperDatabase.reportOf rows heartbeatTs now).Adds rows := by
  have hpairs := settledResults_forall₂ h
  have hneither := fillPatterns_neither (PaperDatabase.settledResults rows)
  have hle := hneither.le.trans List.countP_le_length
  have hunfilled := countP_unfilled_le hpairs
  rw [← hneither, ← outcomes_breakeven] at hunfilled
  have htotal := outcomes_total (PaperDatabase.settledResults rows)
  constructor
  case markets =>
    intro status n
    refine mem_tally.trans ?_
    rw [List.count_eq_countP, List.countP_map]
    simp only [Function.comp_def, beq_eq_decide]
  case settled => exact hpairs.length_eq.symm.trans List.countP_eq_length_filter.symm
  case patterns => exact fillPatterns_total _
  case outcomes => exact htotal
  case withFill => exact Nat.sub_add_cancel hle
  case unfilled => exact hunfilled
  case fillRate =>
    intro q hq
    obtain ⟨hn, rfl⟩ := rate_eq_some hq
    refine ⟨by positivity, div_le_one_of_le₀ ?_ (Nat.cast_nonneg _)⟩
    exact_mod_cast Nat.sub_le _ _
  case profitableRate =>
    intro q hq
    obtain ⟨hn, rfl⟩ := rate_eq_some hq
    refine ⟨_, if_pos hn, by positivity, div_le_div_of_nonneg_right ?_ (Nat.cast_nonneg _)⟩
    have hprofitable := Outcomes.profitable_le htotal hunfilled
    exact_mod_cast hprofitable
  case pnl => exact sum_pnl hpairs
  case payout => exact sum_payout_nonneg hpairs
  case cost => exact sum_cost hpairs
  case roi =>
    intro q hq
    change (if _ ≠ (0 : ℚ) then some _ else none) = some q at hq
    split at hq
    · rename_i hcost
      obtain rfl := Option.some.inj hq
      have hpos := lt_of_le_of_ne (sum_cost hpairs).1 hcost.symm
      rw [le_div_iff₀ hpos, sum_pnl hpairs]
      linarith [sum_payout_nonneg hpairs]
    · exact nomatch hq

/-- Over every run the report adds up: each settled market counts once in each
figure, the profit is what was paid out less what it cost, the cost is within
what the settled markets held back, and no more than it was lost. -/
theorem status_adds {r : PaperRun} (h : Run PaperRun.Step PaperRun.init r) {now : ℤ}
    {report : PaperReport} (hreport : r.db.status now = some report) :
    ∃ state, r.db.state = some state ∧ report.Adds (r.db.rowsOf state.strategyKey) := by
  obtain ⟨state, hstate, rfl⟩ := Option.map_eq_some_iff.mp hreport
  refine ⟨state, hstate, reportOf_adds (fun row hrow => ?_) _ _⟩
  rw [PaperDatabase.rowsOf, List.mem_insertionSort, List.mem_filter] at hrow
  exact (PaperRun.rows_kept h .refl).2 _ _ row (PaperDatabase.market_of_mem hrow.1)

theorem status_adds_example : ∃ report,
    (exampleEvents.foldl PaperRun.advance PaperRun.init).db.status 1700000700 = some report ∧
      ∃ state, (exampleEvents.foldl PaperRun.advance PaperRun.init).db.state = some state ∧
        report.Adds ((exampleEvents.foldl PaperRun.advance PaperRun.init).db.rowsOf
          state.strategyKey) := by
  have hsome : ((exampleEvents.foldl PaperRun.advance PaperRun.init).db.state).isSome = true := by
    decide +kernel
  obtain ⟨state, hstate⟩ := Option.isSome_iff_exists.mp hsome
  have hreport : (exampleEvents.foldl PaperRun.advance PaperRun.init).db.status 1700000700 =
      some _ := congrArg (Option.map _) hstate
  exact ⟨_, hreport, status_adds (run_of_events _ exampleEvents) hreport⟩

end EventQuant.Paper
