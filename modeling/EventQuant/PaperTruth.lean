import EventQuant.PaperRuns

/-!
What the simulation settles against what the order would have had. The queue is
read from one answer and the trades from another, often by another process and
always minutes later; between them stand the row's own columns. Where each
answer is the market's own, every fill that was settled is at most the one the
order at the back of the captured queue was given.
-/
namespace EventQuant.Paper

open Program Python Results Runs Store

/-- What was in front of an order that joined both levels of a market at an
instant, and what happened at each of them from then on. -/
structure MarketTruth where
  upAhead : List ℚ≥0
  downAhead : List ℚ≥0
  upHistory : List MarketEvent
  downHistory : List MarketEvent

namespace PaperRow

def size (r : PaperRow) : ℚ≥0 := ⟨r.orderSize, r.orderSize_pos.le⟩

def upFilled (r : PaperRow) (m : MarketTruth) : ℚ≥0 :=
  filled r.upTokenId r.downTokenId r.buyPrice m.upAhead r.size m.upHistory

def downFilled (r : PaperRow) (m : MarketTruth) : ℚ≥0 :=
  filled r.downTokenId r.upTokenId r.buyPrice m.downAhead r.size m.downHistory

/-- The trades are those of both levels' histories. -/
structure Listed (codec : Codec) (r : PaperRow) (m : MarketTruth) (trades : List Value) : Prop where
  up : Reported codec trades m.upHistory
  down : Reported codec trades m.downHistory
  upLevel : LevelHistory r.upTokenId r.downTokenId r.buyPrice m.upAhead r.size m.upHistory
  downLevel : LevelHistory r.downTokenId r.upTokenId r.buyPrice m.downAhead r.size m.downHistory

end PaperRow

/-- What there is to know: the truth of a row's market from an instant on. -/
abbrev Truth := PaperRow → ℤ → MarketTruth

section Honest

variable (truth : Truth) (sim : PaperSimulator)

def HonestLook (look : CaptureAnswers) : Prop :=
  ∀ row source up down, (look.payload row).bind (readSnapshot sim.codec row) = .ok (source, up, down) →
    up = (truth row (look.snapshotTsMs row)).upAhead.sum ∧
      down = (truth row (look.snapshotTsMs row)).downAhead.sum

def HonestSettlement (answers : SettleAnswers) : Prop :=
  ∀ row ts trades, row.snapshotTsMs = some ts →
    (answers.trades row).bind (tradesSince sim.codec ts) = .ok trades →
    row.Listed sim.codec (truth row ts) trades

end Honest

/-- The truth of a market does not depend on what was written of it since it
was registered. -/
def Truth.Fixed (truth : Truth) : Prop :=
  ∀ r r' : PaperRow, r.registration = r'.registration → truth r = truth r'

/-- The captured queues are the true ones, and the settled fills within what
the order had. -/
structure PaperRow.Honest (truth : Truth) (r : PaperRow) : Prop where
  captured : r.status = .monitoring → ∀ ts, r.snapshotTsMs = some ts →
    r.upQueueAhead = some ((truth r ts).upAhead.sum : ℚ≥0) ∧
      r.downQueueAhead = some ((truth r ts).downAhead.sum : ℚ≥0)
  settled : r.status = .settled → ∃ ts result tradeCount, r.snapshotTsMs = some ts ∧
    r.result = some (result, tradeCount) ∧ result.upFill ≤ r.upFilled (truth r ts) ∧
      result.downFill ≤ r.downFilled (truth r ts)

section Rows

variable {truth : Truth} {sim : PaperSimulator}

/-- A settlement of a row whose queues are the true ones. -/
theorem settlement_honest {answers : SettleAnswers} {row : PaperRow} {result : PaperResult}
    {tradeCount : ℕ} (hanswers : HonestSettlement truth sim answers)
    (hqueues : ∀ ts, row.snapshotTsMs = some ts →
      row.upQueueAhead = some ((truth row ts).upAhead.sum : ℚ≥0) ∧
        row.downQueueAhead = some ((truth row ts).downAhead.sum : ℚ≥0))
    (h : sim.settlement answers row = .ok (result, tradeCount)) :
    ∃ ts, row.snapshotTsMs = some ts ∧ result.upFill ≤ row.upFilled (truth row ts) ∧
      result.downFill ≤ row.downFilled (truth row ts) := by
  obtain ⟨name, trades, ts, up, down, hts, htrades, hup, hdown, hresult, -⟩ := settlement_ok h
  obtain ⟨hup', hdown'⟩ := hqueues ts hts
  obtain rfl := Option.some.inj (hup.symm.trans hup')
  obtain rfl := Option.some.inj (hdown.symm.trans hdown')
  have hlisted := hanswers row ts trades hts htrades
  exact ⟨ts, hts, calculateResult_fills_le hresult hlisted.upLevel hlisted.downLevel hlisted.up
    hlisted.down⟩

theorem honest_invariant (hfixed : truth.Fixed) :
    RowInvariant (PaperRow.Honest truth) sim (HonestLook truth sim) (HonestSettlement truth sim) where
  registered update := ⟨fun h => (nomatch h), fun h => (nomatch h)⟩
  missed r hr hstatus := ⟨fun h => (nomatch h), fun h => (nomatch h)⟩
  failed r error hr hstatus := by
    have htruth : truth (PaperDatabase.failedRow error r) = truth r := hfixed _ _ rfl
    refine ⟨fun h ts hts => ?_, fun h => ?_⟩
    · rw [htruth]
      exact hr.captured h ts hts
    · have hsettled : r.status = .settled := h
      rcases hstatus with hstatus | hstatus <;> rw [hsettled] at hstatus <;> cases hstatus
  captured r look source up down hr hstatus hlook hkey hread := by
    have htruth : truth (PaperDatabase.capturedRow (look.snapshotTsMs r) source up down r) = truth r :=
      hfixed _ _ rfl
    refine ⟨fun _ ts hts => ?_, fun h => (nomatch h)⟩
    obtain rfl : look.snapshotTsMs r = ts := Option.some.inj hts
    obtain ⟨rfl, rfl⟩ := hlook r source up down hread
    rw [htruth]
    exact ⟨rfl, rfl⟩
  settled r answers result tradeCount hr hstatus hanswers hkey _ hsettled := by
    have htruth : truth (PaperDatabase.settledRow result tradeCount r) = truth r := hfixed _ _ rfl
    refine ⟨fun h => (nomatch h), fun _ => ?_⟩
    obtain ⟨ts, hts, hup, hdown⟩ := settlement_honest hanswers (hr.captured hstatus) hsettled
    rw [htruth]
    exact ⟨ts, result, tradeCount, hts, rfl, hup, hdown⟩

end Rows

namespace PaperRun

/-- Over every run that is answered with the truth, each settled fill is at most
what the order that joined when the queue was captured was given. -/
theorem settled_within_filled {truth : Truth} (hfixed : truth.Fixed) {r : PaperRun}
    (h : Run (Guarded (fun r (e : PaperEvent) =>
      e.Meets (HonestLook truth) (HonestSettlement truth) r) advance) init r)
    {row : PaperRow} (hrow : row ∈ r.db.markets.rows) (hsettled : row.status = .settled) :
    ∃ ts result tradeCount, row.snapshotTsMs = some ts ∧ row.result = some (result, tradeCount) ∧
      result.upFill ≤ row.upFilled (truth row ts) ∧
      result.downFill ≤ row.downFilled (truth row ts) :=
  (rows_run (fun _ => honest_invariant hfixed) h _ _ row (PaperDatabase.market_of_mem hrow)).settled
    hsettled

end PaperRun

section Example

def shares (n : ℕ) : ℚ≥0 := ⟨n, Nat.cast_nonneg n⟩

def exampleTruth : Truth := fun _ _ =>
  ⟨[shares 40, shares 10], [], exampleHistory, (tradesOf exampleHistory).map .trade⟩

theorem exampleRow_iff {r : PaperRow} : exampleRow r = true ↔
    r.upTokenId = "up" ∧ r.downTokenId = "down" ∧ r.buyPrice = 1/100 ∧ r.orderSize = 100 := by
  simp [exampleRow]

theorem exampleLook_honest : HonestLook exampleTruth exampleSimulator exampleLook := by
  intro row source up down hread
  by_cases hrow : exampleRow row = true
  · obtain ⟨hup, hdown, hprice, -⟩ := exampleRow_iff.mp hrow
    have hbooks : readSnapshot exampleSimulator.codec row exampleBooks = .ok (1700000000900, 50, 0) := by
      simp only [readSnapshot, books, hup, hdown, hprice]
      decide +kernel
    simp only [exampleLook, if_pos hrow, Except.bind, hbooks] at hread
    obtain ⟨rfl, rfl⟩ := Prod.mk.inj (Prod.mk.inj (Except.ok.inj hread)).2
    simp only [exampleTruth]
    decide +kernel
  · simp [exampleLook, hrow, Except.bind] at hread

/-- The trade before the snapshot is left out. -/
theorem exampleTrades_read {trades : List Value}
    (h : tradesSince exampleSimulator.codec 1700000001200 exampleTrades = .ok trades) :
    trades.mapM (readTrade exampleSimulator.codec) =
      .ok [⟨"down", "BUY", 99/100, 70⟩, ⟨"down", "BUY", 98/100, 500⟩, ⟨"up", "SELL", 1/100, 60⟩] := by
  have hread : ((tradesSince exampleSimulator.codec 1700000001200 exampleTrades).toOption.map
      fun trades => trades.mapM (readTrade exampleSimulator.codec)) =
      some (.ok [⟨"down", "BUY", 99/100, 70⟩, ⟨"down", "BUY", 98/100, 500⟩,
        ⟨"up", "SELL", 1/100, 60⟩]) := by
    decide +kernel
  rw [h] at hread
  exact Option.some.inj hread

theorem exampleSettlement_honest (nowTs : ℤ) :
    HonestSettlement exampleTruth exampleSimulator { exampleSettlement with nowTs } := by
  intro row ts trades hts htrades
  by_cases hrow : exampleRow row = true ∧ row.snapshotTsMs = some 1700000001200
  · obtain ⟨hup, hdown, hprice, hsize⟩ := exampleRow_iff.mp hrow.1
    obtain rfl : 1700000001200 = ts := Option.some.inj (hrow.2.symm.trans hts)
    simp only [exampleSettlement, if_pos hrow, Except.bind] at htrades
    have hread := exampleTrades_read htrades
    have hshares : row.size = 100 := NNRat.ext hsize
    refine ⟨⟨_, hread, ?_⟩, ⟨_, hread, ?_⟩, ?_, ?_⟩
    · simp only [exampleTruth]
      decide +kernel
    · simp only [exampleTruth]
      decide +kernel
    · simp only [exampleTruth, hup, hdown, hprice, hshares]
      exact ⟨by decide +kernel, by decide +kernel⟩
    · simp only [exampleTruth, hup, hdown, hprice, hshares]
      exact ⟨by decide +kernel, by decide +kernel⟩
  · simp [exampleSettlement, hrow, Except.bind] at htrades

def PaperEvent.HonestTo (truth : Truth) (sim : PaperSimulator) : PaperEvent → Prop
  | .started sim' _ => sim' = sim
  | .turned answers | .broken answers _ _ _ => HonestLook truth sim answers.registered ∧
    HonestLook truth sim answers.retried ∧ HonestSettlement truth sim answers.settled

theorem sim_ran {sim : PaperSimulator} {action : PaperAction Timers} {db : PaperDatabase} :
    ∀ running ∈ (PaperRun.ran sim action db).process, running.1 = sim := by
  intro running hprocess
  unfold PaperRun.ran at hprocess
  cases hresult : action.result db with
  | error e => rw [hresult] at hprocess; exact nomatch hprocess
  | ok timers =>
    rw [hresult] at hprocess
    obtain rfl := Option.some.inj hprocess
    rfl

theorem meets_of_honestTo {truth : Truth} {sim : PaperSimulator} {events : List PaperEvent}
    (h : ∀ e ∈ events, e.HonestTo truth sim) {r : PaperRun}
    (hr : ∀ running ∈ r.process, running.1 = sim) :
    Meets (fun r (e : PaperEvent) => e.Meets (HonestLook truth) (HonestSettlement truth) r)
      PaperRun.advance r events := by
  induction events generalizing r with
  | nil => trivial
  | cons e events ih =>
    have he := h e List.mem_cons_self
    refine ⟨?_, ih (fun e' he' => h e' (List.mem_cons_of_mem _ he')) ?_⟩
    · cases e with
      | started sim' now => trivial
      | turned answers =>
        intro running hrunning
        rw [hr running hrunning]
        exact he
      | broken answers done updates drained =>
        intro running hrunning
        rw [hr running hrunning]
        exact he
    · cases hprocess : r.process with
      | none =>
        cases e with
        | started sim' now =>
          obtain rfl : sim' = sim := he
          rw [PaperRun.advance_started hprocess]
          exact sim_ran
        | turned answers => simp [PaperRun.advance, hprocess]
        | broken answers done updates drained => simp [PaperRun.process_broken]
      | some running =>
        have hsim := hr running hprocess
        cases e with
        | started sim' now => simpa [PaperRun.advance, hprocess] using hsim
        | turned answers =>
          simp only [PaperRun.advance, hprocess]
          exact hsim ▸ sim_ran
        | broken answers done updates drained => simp [PaperRun.process_broken]

theorem exampleEvents_honest : ∀ e ∈ exampleEvents, e.HonestTo exampleTruth exampleSimulator := by
  have hmissing : HonestLook exampleTruth exampleSimulator exampleRegistering.registered := by
    intro row source up down hread
    exact nomatch hread
  have hfirst : HonestSettlement exampleTruth exampleSimulator exampleRegistering.settled :=
    exampleSettlement_honest 1700000001
  have hlast : HonestSettlement exampleTruth exampleSimulator exampleSettling.settled :=
    exampleSettlement_honest 1700000600
  simp only [exampleEvents, List.forall_mem_cons]
  refine ⟨rfl, ⟨hmissing, exampleLook_honest, hfirst⟩, ⟨hmissing, exampleLook_honest, hlast⟩, rfl,
    ⟨hmissing, exampleLook_honest, hlast⟩, fun e he => absurd he List.not_mem_nil⟩

namespace PaperRun

/-- Eighty shares were settled, where the order had ninety. -/
theorem settled_within_filled_example :
    ∃ row ∈ (exampleEvents.foldl advance init).db.markets.rows, row.status = .settled ∧
      ∃ ts result tradeCount, row.snapshotTsMs = some ts ∧ row.result = some (result, tradeCount) ∧
        result.upFill ≤ row.upFilled (exampleTruth row ts) ∧
        result.downFill ≤ row.downFilled (exampleTruth row ts) := by
  have hsettled : (exampleEvents.foldl advance init).db.markets.rows.any
      (fun row => decide (row.status = .settled)) = true := by
    decide +kernel
  obtain ⟨row, hrow, hstatus⟩ := List.any_eq_true.mp hsettled
  rw [decide_eq_true_iff] at hstatus
  have hrun := run_of_meets (meets_of_honestTo exampleEvents_honest (r := init) fun _ h => nomatch h)
  have hfixed : exampleTruth.Fixed := fun _ _ _ => rfl
  exact ⟨row, hrow, hstatus, settled_within_filled hfixed hrun hrow hstatus⟩

end PaperRun

end Example

end EventQuant.Paper
