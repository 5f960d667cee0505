import EventQuant.Library.Runs
import EventQuant.PaperTurns

/-!
The paper simulation over whole runs: processes of any strategies one after the
other over the same books, each of them broken off anywhere. A row is registered
once, its queue is captured once and it is settled or missed once, and nothing
is written to it after that. No market is forgotten by the loop. Where the venue
answers with the market's own books and trades, no fill that was settled is more
than the order would have had.
-/
namespace EventQuant.Paper

open Program Python Results Runs Store

def PaperStatus.Leads : PaperStatus → PaperStatus → Prop
  | .snapshotPending, _ => True
  | .monitoring, after => after = .monitoring ∨ after = .settled
  | .settled, after => after = .settled
  | .missed, after => after = .missed

theorem PaperStatus.Leads.refl (status : PaperStatus) : status.Leads status := by
  cases status <;> simp [Leads]

theorem PaperStatus.Leads.trans {a b c : PaperStatus} (h : a.Leads b) (h' : b.Leads c) :
    a.Leads c := by
  cases a <;> cases b <;> simp_all [Leads]

namespace PaperRow

def registration (r : PaperRow) :
    (String × String × String) × (ℤ × ℤ) × (String × String) × (ℤ × ℤ) × (ℚ × ℚ) :=
  ((r.strategyKey, r.slug, r.conditionId), (r.startTs, r.endTs), (r.upTokenId, r.downTokenId),
    (r.marketDiscoveredTsMs, r.marketParametersDetectedTsMs), (r.buyPrice, r.orderSize))

def snapshot (r : PaperRow) : Option ℤ × Option ℤ × Option ℚ × Option ℚ :=
  (r.snapshotTsMs, r.bookSourceTsMs, r.upQueueAhead, r.downQueueAhead)

/-- What a row keeps for good: what it was registered with, the queue once it
was captured, and everything once it is settled or missed. -/
structure Keeps (before after : PaperRow) : Prop where
  registration : after.registration = before.registration
  forward : before.status.Leads after.status
  snapshot : before.status ≠ .snapshotPending → after.snapshot = before.snapshot
  final : before.status = .settled ∨ before.status = .missed → after = before

theorem Keeps.refl (r : PaperRow) : r.Keeps r :=
  ⟨rfl, .refl _, fun _ => rfl, fun _ => rfl⟩

theorem Keeps.trans {r₁ r₂ r₃ : PaperRow} (h : r₁.Keeps r₂) (h' : r₂.Keeps r₃) : r₁.Keeps r₃ where
  registration := h'.registration.trans h.registration
  forward := h.forward.trans h'.forward
  snapshot hcaptured := by
    have hlater : r₂.status ≠ .snapshotPending := by
      intro hpending
      have hforward := h.forward
      rw [hpending] at hforward
      cases hstatus : r₁.status <;> simp_all [PaperStatus.Leads]
    exact (h'.snapshot hlater).trans (h.snapshot hcaptured)
  final hfinal := by
    obtain rfl := h.final hfinal
    exact h'.final hfinal

end PaperRow

def PaperDatabase.Keeps (before after : PaperDatabase) : Prop :=
  ∀ key slug row, before.market key slug = some row →
    ∃ row', after.market key slug = some row' ∧ row.Keeps row'

theorem PaperDatabase.Keeps.refl (db : PaperDatabase) : db.Keeps db :=
  fun _ _ row hrow => ⟨row, hrow, .refl row⟩

theorem PaperDatabase.Keeps.trans (db₁ db₂ db₃ : PaperDatabase) (h : db₁.Keeps db₂)
    (h' : db₂.Keeps db₃) : db₁.Keeps db₃ := by
  intro key slug row hrow
  obtain ⟨row', hrow', hkeeps⟩ := h key slug row hrow
  obtain ⟨row'', hrow'', hkeeps'⟩ := h' key slug row' hrow'
  exact ⟨row'', hrow'', hkeeps.trans hkeeps'⟩

section From

variable {sim : PaperSimulator} {looks : CaptureAnswers → Prop} {settlements : SettleAnswers → Prop}

theorem keeps_updateMarket {db : PaperDatabase} {key slug : String} {f : PaperRow → PaperRow}
    {hf : ∀ r, (f r).key = r.key}
    (hkeeps : ∀ row, db.market key slug = some row → row.Keeps (f row)) :
    db.Keeps (db.updateMarket key slug f hf) := by
  intro k s row hrow
  rw [PaperDatabase.market_updateMarket]
  split
  · rename_i hsame
    obtain ⟨rfl, rfl⟩ := Prod.mk.inj hsame
    exact ⟨f row, by rw [hrow]; rfl, hkeeps row hrow⟩
  · exact ⟨row, hrow, .refl row⟩

/-- What a process writes keeps what is kept. -/
theorem PaperWrite.From.keeps {db : PaperDatabase} {w : PaperWrite} (h : w.From sim looks settlements db) :
    db.Keeps (apply db w) := by
  cases w with
  | start key plan now => exact fun _ _ row hrow => ⟨row, hrow, .refl row⟩
  | heartbeat now => exact fun _ _ row hrow => ⟨row, hrow, .refl row⟩
  | register key update plan =>
    intro k s row hrow
    change ∃ row', (db.register key update plan).market k s = some row' ∧ row.Keeps row'
    rw [PaperDatabase.market_register, if_neg fun hnew => by simp [hrow] at hnew]
    exact ⟨row, hrow, .refl row⟩
  | expirePendingSnapshots key nowTs =>
    intro k s row hrow
    change ∃ row', (db.expirePendingSnapshots key nowTs).market k s = some row' ∧ row.Keeps row'
    rw [PaperDatabase.market_expirePendingSnapshots, hrow, Option.map_some]
    refine ⟨_, rfl, ?_⟩
    split
    · rename_i hover
      refine ⟨rfl, by rw [hover.2.1]; trivial, fun hcaptured => absurd hover.2.1 hcaptured, ?_⟩
      rintro (hfinal | hfinal) <;> rw [hover.2.1] at hfinal <;> cases hfinal
    · exact .refl row
  | setSnapshot key slug snapshotTsMs bookSourceTsMs upQueueAhead downQueueAhead =>
    obtain ⟨-, row, -, -, hrow, hstatus, -⟩ := h
    refine keeps_updateMarket fun row' hrow' => ?_
    obtain rfl : row = row' := Option.some.inj (hrow.symm.trans hrow')
    refine ⟨rfl, by rw [hstatus]; trivial, fun hcaptured => absurd hstatus hcaptured, ?_⟩
    rintro (hfinal | hfinal) <;> rw [hstatus] at hfinal <;> cases hfinal
  | setError key slug error =>
    obtain ⟨-, row, hrow, hstatus⟩ := h
    refine keeps_updateMarket fun row' hrow' => ?_
    obtain rfl : row = row' := Option.some.inj (hrow.symm.trans hrow')
    refine ⟨rfl, .refl _, fun _ => rfl, fun hfinal => ?_⟩
    rcases hstatus with hstatus | hstatus <;> rw [hstatus] at hfinal <;>
      rcases hfinal with hfinal | hfinal <;> cases hfinal
  | setResult key slug result tradeCount =>
    obtain ⟨-, row, -, -, hrow, hstatus, -⟩ := h
    refine keeps_updateMarket fun row' hrow' => ?_
    obtain rfl : row = row' := Option.some.inj (hrow.symm.trans hrow')
    refine ⟨rfl, by rw [hstatus]; exact .inr rfl, fun _ => rfl, ?_⟩
    rintro (hfinal | hfinal) <;> rw [hstatus] at hfinal <;> cases hfinal

end From

/-! ### What a row says in each status -/

/-- A result's fills are the order's at most, and its money is theirs. -/
structure PaperResult.Consistent (result : PaperResult) (buyPrice orderSize : ℚ) : Prop where
  winner : result.winnerOutcome = "up" ∨ result.winnerOutcome = "down"
  upFill : 0 ≤ result.upFill ∧ result.upFill ≤ orderSize
  downFill : 0 ≤ result.downFill ∧ result.downFill ≤ orderSize
  cost : result.grossCost = buyPrice * (result.upFill + result.downFill)
  payout : result.grossPayout =
    if result.winnerOutcome = "up" then result.upFill else result.downFill
  pnl : result.pnlBeforeRebates = result.grossPayout - result.grossCost

theorem calculateResult_consistent {codec : Codec} {name up down : String} {trades : List Value}
    {buyPrice orderSize upQueueAhead downQueueAhead : ℚ} (hsize : 0 ≤ orderSize) {result : PaperResult}
    (h : calculateResult codec name trades up down buyPrice orderSize upQueueAhead downQueueAhead =
      .ok result) : result.Consistent buyPrice orderSize := by
  unfold calculateResult at h
  by_cases hwinner : lower name ≠ "up" ∧ lower name ≠ "down"
  · rw [if_pos hwinner] at h
    exact nomatch h
  · rw [if_neg hwinner] at h
    cases hup : executionEvidence codec trades up down buyPrice with
    | error e => rw [hup] at h; exact nomatch h
    | ok upEvidence =>
      cases hdown : executionEvidence codec trades down up buyPrice with
      | error e => rw [hup, hdown] at h; exact nomatch h
      | ok downEvidence =>
        rw [hup, hdown] at h
        obtain rfl := Except.ok.inj h
        refine ⟨?_, ⟨fifoFill_nonneg hsize _, fifoFill_le_orderSize _ _ _⟩,
          ⟨fifoFill_nonneg hsize _, fifoFill_le_orderSize _ _ _⟩, rfl, rfl, rfl⟩
        change lower name = "up" ∨ lower name = "down"
        by_contra hneither
        exact hwinner (not_or.mp hneither)

section Settlement

variable {sim : PaperSimulator} {answers : SettleAnswers} {row : PaperRow} {result : PaperResult}
  {tradeCount : ℕ}

theorem column_ok {value : Option ℚ} {q : ℚ} (h : column value = .ok q) : value = some q := by
  cases value with
  | none => exact nomatch h
  | some q' => exact congrArg some (Except.ok.inj h)

theorem snapshotOf_ok {row : PaperRow} {ts : ℤ} (h : snapshotOf row = .ok ts) :
    row.snapshotTsMs = some ts := by
  unfold snapshotOf at h
  split at h
  · rename_i hcolumn
    rw [hcolumn, Except.ok.inj h]
  · exact nomatch h

/-- What was settled was calculated from the row's own columns and the trades
that were listed. -/
theorem settlement_ok (h : sim.settlement answers row = .ok (result, tradeCount)) :
    ∃ name trades ts up down, row.snapshotTsMs = some ts ∧
      (answers.trades row).bind (tradesSince sim.codec ts) = .ok trades ∧
      row.upQueueAhead = some up ∧ row.downQueueAhead = some down ∧
      calculateResult sim.codec name trades row.upTokenId row.downTokenId row.buyPrice row.orderSize
        up down = .ok result ∧ tradeCount = trades.length := by
  unfold PaperSimulator.settlement at h
  obtain ⟨name, -, h⟩ := bind_ok h
  obtain ⟨ts, hts, h⟩ := bind_ok h
  obtain ⟨trades, htrades, h⟩ := bind_ok h
  obtain ⟨result', hresult, h⟩ := bind_ok h
  obtain ⟨rfl, rfl⟩ := Prod.mk.inj (Except.ok.inj h)
  obtain ⟨up, hup, hresult⟩ := bind_ok hresult
  obtain ⟨down, hdown, hresult⟩ := bind_ok hresult
  refine ⟨name, trades, ts, up, down, snapshotOf_ok hts, htrades, column_ok hup, column_ok hdown, ?_, rfl⟩
  cases hcalculated : calculateResult sim.codec name trades row.upTokenId row.downTokenId
    row.buyPrice row.orderSize up down with
  | error e => rw [hcalculated] at hresult; exact nomatch hresult
  | ok result => rw [hcalculated] at hresult; exact congrArg Except.ok (Except.ok.inj hresult)

end Settlement

/-- A row's columns are filled as its status says. -/
structure PaperRow.Proper (r : PaperRow) : Prop where
  before : r.status = .snapshotPending ∨ r.status = .missed →
    r.snapshot = (none, none, none, none) ∧ r.result = none
  monitoring : r.status = .monitoring → r.result = none
  captured : r.status = .monitoring ∨ r.status = .settled → ∃ ts source up down,
    r.snapshot = (some ts, some source, some up, some down)
  settled : r.status = .settled → r.error = none ∧ ∃ result tradeCount,
    r.result = some (result, tradeCount) ∧ result.Consistent r.buyPrice r.orderSize

def PaperDatabase.Proper (db : PaperDatabase) : Prop :=
  ∀ key slug row, db.market key slug = some row → row.Proper

section Writes

variable {sim : PaperSimulator} {looks : CaptureAnswers → Prop} {settlements : SettleAnswers → Prop}

/-- The rule for what holds of every row: a row is registered with it, keeps it
when it is missed or its error is written, and has it once it is captured or
settled as a process does. -/
structure RowInvariant (inv : PaperRow → Prop) (sim : PaperSimulator) (looks : CaptureAnswers → Prop)
    (settlements : SettleAnswers → Prop) : Prop where
  registered : ∀ update, inv (PaperDatabase.registeredRow sim.key update sim.plan)
  missed : ∀ r, inv r → r.status = .snapshotPending → inv (PaperDatabase.missedRow r)
  failed : ∀ r error, inv r → r.status = .snapshotPending ∨ r.status = .monitoring →
    inv (PaperDatabase.failedRow error r)
  captured : ∀ r look source up down, inv r → r.status = .snapshotPending → looks look →
    r.strategyKey = sim.key →
    (look.payload r).bind (readSnapshot sim.codec r) = .ok (source, up, down) →
    inv (PaperDatabase.capturedRow (look.snapshotTsMs r) source up down r)
  settled : ∀ r answers result tradeCount, inv r → r.status = .monitoring → settlements answers →
    r.strategyKey = sim.key → r.endTs ≤ answers.nowTs - finalizationDelaySeconds →
    sim.settlement answers r = .ok (result, tradeCount) →
    inv (PaperDatabase.settledRow result tradeCount r)

theorem rows_updateMarket {inv : PaperRow → Prop} {db : PaperDatabase} {key slug : String}
    {f : PaperRow → PaperRow} {hf : ∀ r, (f r).key = r.key}
    (h : ∀ k s row, db.market k s = some row → inv row)
    (hrow : ∀ row, db.market key slug = some row → inv (f row)) :
    ∀ k s row, (db.updateMarket key slug f hf).market k s = some row → inv row := by
  intro k s row hafter
  rw [PaperDatabase.market_updateMarket] at hafter
  split at hafter
  · rename_i hsame
    obtain ⟨rfl, rfl⟩ := Prod.mk.inj hsame
    obtain ⟨before, hbefore, rfl⟩ := Option.map_eq_some_iff.mp hafter
    exact hrow before hbefore
  · exact h k s row hafter

theorem RowInvariant.apply {inv : PaperRow → Prop} (hinv : RowInvariant inv sim looks settlements)
    {db : PaperDatabase} {w : PaperWrite} (hw : w.From sim looks settlements db)
    (h : ∀ k s row, db.market k s = some row → inv row) :
    ∀ k s row, (apply db w).market k s = some row → inv row := by
  cases w with
  | start key plan now => exact h
  | heartbeat now => exact h
  | register key update plan =>
    obtain ⟨rfl, rfl⟩ := hw
    intro k s row hafter
    change (db.register sim.key update sim.plan).market k s = some row at hafter
    rw [PaperDatabase.market_register] at hafter
    split at hafter
    · exact Option.some.inj hafter ▸ hinv.registered update
    · exact h k s row hafter
  | expirePendingSnapshots key nowTs =>
    intro k s row hafter
    change (db.expirePendingSnapshots key nowTs).market k s = some row at hafter
    rw [PaperDatabase.market_expirePendingSnapshots] at hafter
    obtain ⟨before, hbefore, rfl⟩ := Option.map_eq_some_iff.mp hafter
    split
    · rename_i hover
      exact hinv.missed before (h k s before hbefore) hover.2.1
    · exact h k s before hbefore
  | setSnapshot key slug snapshotTsMs bookSourceTsMs upQueueAhead downQueueAhead =>
    obtain ⟨rfl, row, look, hlook, hrow, hstatus, rfl, hread⟩ := hw
    refine rows_updateMarket h fun row' hrow' => ?_
    obtain rfl : row = row' := Option.some.inj (hrow.symm.trans hrow')
    exact hinv.captured row look _ _ _ (h _ _ row hrow) hstatus hlook
      (PaperDatabase.market_key hrow).1 hread
  | setError key slug error =>
    obtain ⟨rfl, row, hrow, hstatus⟩ := hw
    refine rows_updateMarket h fun row' hrow' => ?_
    obtain rfl : row = row' := Option.some.inj (hrow.symm.trans hrow')
    exact hinv.failed row error (h _ _ row hrow) hstatus
  | setResult key slug result tradeCount =>
    obtain ⟨rfl, row, answers, hanswers, hrow, hstatus, hover, hsettled⟩ := hw
    refine rows_updateMarket h fun row' hrow' => ?_
    obtain rfl : row = row' := Option.some.inj (hrow.symm.trans hrow')
    exact hinv.settled row answers result tradeCount (h _ _ row hrow) hstatus hanswers
      (PaperDatabase.market_key hrow).1 hover hsettled

theorem proper_invariant : RowInvariant PaperRow.Proper sim looks settlements where
  registered update := by
    refine ⟨fun _ => ⟨rfl, rfl⟩, fun _ => rfl, fun h => ?_, fun h => (nomatch h)⟩
    rcases h with h | h <;> cases h
  missed r hr hstatus := by
    refine ⟨fun _ => hr.before (.inl hstatus), fun h => (nomatch h), fun h => ?_, fun h => (nomatch h)⟩
    rcases h with h | h <;> cases h
  failed r error hr hstatus := by
    refine ⟨hr.before, hr.monitoring, hr.captured, fun h => ?_⟩
    have hsettled : r.status = .settled := h
    rcases hstatus with hstatus | hstatus <;> rw [hsettled] at hstatus <;> cases hstatus
  captured r look source up down hr hstatus _ _ _ := by
    refine ⟨fun h => ?_, fun _ => (hr.before (.inl hstatus)).2, fun _ => ⟨_, _, _, _, rfl⟩,
      fun h => (nomatch h)⟩
    rcases h with h | h <;> cases h
  settled r answers result tradeCount hr hstatus _ _ _ hsettled := by
    obtain ⟨name, trades, ts, up, down, -, -, -, -, hresult, -⟩ := settlement_ok hsettled
    have hconsistent := calculateResult_consistent r.orderSize_pos.le hresult
    refine ⟨fun h => ?_, fun h => (nomatch h), fun _ => hr.captured (.inl hstatus),
      fun _ => ⟨rfl, result, tradeCount, rfl, hconsistent⟩⟩
    rcases h with h | h <;> cases h

end Writes

/-! ### Runs -/

/-- The books and the process at work on them, if one is. -/
structure PaperRun where
  db : PaperDatabase
  process : Option (PaperSimulator × Timers)

/-- What happens: a process begins, which only one at a time can; a turn of its
loop ends; or the process ends after so many of a turn's commits, and after so
many of those that register what was activated last. -/
inductive PaperEvent
  | started (sim : PaperSimulator) (now : ℤ)
  | turned (answers : TurnAnswers)
  | broken (answers : TurnAnswers) (done : ℕ) (updates : List ActivationUpdate) (drained : ℕ)

namespace PaperRun

def init : PaperRun := ⟨.empty, none⟩

/-- What a program leaves, and its process with the timers it returned. -/
def ran (sim : PaperSimulator) (action : PaperAction Timers) (db : PaperDatabase) : PaperRun where
  db := action.after db
  process :=
    match action.result db with
    | .ok timers => some (sim, timers)
    | .error _ => none

def advance (r : PaperRun) : PaperEvent → PaperRun
  | .started sim now =>
    match r.process with
    | none => ran sim (sim.start now) r.db
    | some _ => r
  | .turned answers =>
    match r.process with
    | none => r
    | some (sim, timers) => ran sim (sim.turn answers timers) r.db
  | .broken answers done updates drained =>
    match r.process with
    | none => r
    | some (sim, timers) =>
      let db := settle r.db (((sim.turn answers timers).commits r.db).take done)
      ⟨settle db (((sim.drainActivationUpdates updates).commits db).take drained), none⟩

abbrev Step (r r' : PaperRun) : Prop := ∃ e, r.advance e = r'

end PaperRun

def PaperEvent.Meets (looks : PaperSimulator → CaptureAnswers → Prop)
    (settlements : PaperSimulator → SettleAnswers → Prop) (r : PaperRun) : PaperEvent → Prop
  | .started _ _ => True
  | .turned answers | .broken answers _ _ _ => ∀ running ∈ r.process,
    looks running.1 answers.registered ∧ looks running.1 answers.retried ∧
      settlements running.1 answers.settled

namespace PaperRun

def Tells (r : PaperRun) : Prop := ∀ running ∈ r.process, running.2.Tell running.1.key r.db

theorem tells_init : init.Tells := fun _ h => nomatch h

theorem tells_ran {ok : PaperDatabase → PaperWrite → Prop} {sim : PaperSimulator}
    {action : PaperAction Timers} {db : PaperDatabase} {post : Timers → PaperDatabase → Prop}
    (h : Safe ok action (fun timers t => timers.Tell sim.key t ∧ post timers t)
      (fun _ _ => False) db) : (ran sim action db).Tells := by
  intro running hprocess
  unfold ran at hprocess
  cases hresult : action.result db with
  | error e => exact (h.raised e hresult).elim
  | ok timers =>
    rw [hresult] at hprocess
    obtain rfl := Option.some.inj hprocess
    exact (h.returned _ hresult).1

variable {looks : PaperSimulator → CaptureAnswers → Prop}
  {settlements : PaperSimulator → SettleAnswers → Prop} {r : PaperRun}

/-- The step lemma: a reflexive and transitive relation that every write of a
process stays inside relates the books before an event and after it. -/
theorem advance_relates (rel : PaperDatabase → PaperDatabase → Prop) (hrefl : ∀ db, rel db db)
    (htrans : ∀ db₁ db₂ db₃, rel db₁ db₂ → rel db₂ db₃ → rel db₁ db₃)
    (hwrite : ∀ sim db w, PaperWrite.From sim (looks sim) (settlements sim) db w →
      rel db (apply db w))
    (htells : r.Tells) {e : PaperEvent} (he : e.Meets looks settlements r) :
    rel r.db (r.advance e).db ∧ (r.advance e).Tells := by
  cases e with
  | started sim now =>
    unfold advance
    cases hprocess : r.process with
    | none =>
      have hsafe := PaperSimulator.start_safe sim (looks sim) (settlements sim) now r.db
      exact ⟨hsafe.each.relates rel hrefl htrans (hwrite sim), tells_ran hsafe⟩
    | some running => exact ⟨hrefl _, htells⟩
  | turned answers =>
    unfold advance
    cases hprocess : r.process with
    | none => exact ⟨hrefl _, htells⟩
    | some running =>
      obtain ⟨hfirst, hagain, hsettled⟩ := he running hprocess
      have hsafe := PaperSimulator.turn_safe hfirst hagain hsettled (htells running hprocess)
      exact ⟨hsafe.each.relates rel hrefl htrans (hwrite running.1), tells_ran hsafe⟩
  | broken answers done updates drained =>
    unfold advance
    cases hprocess : r.process with
    | none => exact ⟨hrefl _, htells⟩
    | some running =>
      obtain ⟨hfirst, hagain, hsettled⟩ := he running hprocess
      have hsafe := PaperSimulator.turn_safe hfirst hagain hsettled (htells running hprocess)
      have hturn := (hsafe.each.take done).relates rel hrefl htrans (hwrite running.1)
      have hdrain := PaperSimulator.drainActivationUpdates_safe running.1 (looks running.1)
        (settlements running.1) updates
        (settle r.db (((running.1.turn answers running.2).commits r.db).take done))
      refine ⟨htrans _ _ _ hturn ?_, fun _ h => nomatch h⟩
      exact (hdrain.each.take drained).relates rel hrefl htrans (hwrite running.1)

/-- Whatever a process meets. -/
theorem meets_any (r : PaperRun) (e : PaperEvent) :
    e.Meets (fun _ _ => True) (fun _ _ => True) r := by
  cases e <;> simp [PaperEvent.Meets]

theorem tells_run (h : Run Step init r) : r.Tells := by
  refine run_preserves Tells (fun r r' hstep htells => ?_) h tells_init
  obtain ⟨e, rfl⟩ := hstep
  exact (advance_relates (fun _ _ => True) (fun _ => trivial) (fun _ _ _ _ _ => trivial)
    (fun _ _ _ _ => trivial) htells (meets_any r e)).2

/-- Rows keep their invariant over any run whose events meet its conditions. -/
theorem rows_run {inv : PaperRow → Prop}
    (hinv : ∀ sim, RowInvariant inv sim (looks sim) (settlements sim))
    (h : Run (Guarded (fun r (e : PaperEvent) => e.Meets looks settlements r) advance) init r) :
    ∀ k s row, r.db.market k s = some row → inv row := by
  have hboth : r.Tells ∧ ∀ k s row, r.db.market k s = some row → inv row := by
    refine run_preserves (fun r => r.Tells ∧ ∀ k s row, r.db.market k s = some row → inv row)
      (fun r r' hstep hr => ?_) h ⟨tells_init, fun _ _ _ hrow => nomatch hrow⟩
    obtain ⟨e, he, rfl⟩ := hstep
    obtain ⟨hrows, htells⟩ := advance_relates
      (fun db t => (∀ k s row, db.market k s = some row → inv row) →
        ∀ k s row, t.market k s = some row → inv row) (fun _ h => h) (fun _ _ _ h h' => h' ∘ h)
      (fun sim db w hw hdb => (hinv sim).apply hw hdb) hr.1 he
    exact ⟨htells, hrows hr.2⟩
  exact hboth.2

end PaperRun

/-! ### A run -/

def examplePlan : AcceptedPlan := ⟨⟨1/100, [], 1⟩, by decide +kernel⟩

def exampleSimulator : PaperSimulator where
  key := "dual-hold:price=0.01:size=100:fifo-v1"
  plan := examplePlan
  codec := ⟨fun text =>
    if text = "[\"Up\", \"Down\"]" then some (.array [.string "Up", .string "Down"])
    else if text = "[\"1\", \"0\"]" then some (.array [.string "1", .string "0"])
    else none, fun _ => "", fun _ => ""⟩
  malformed _ := "Expecting value: line 1 column 1 (char 0)"

def exampleActivation : ActivationUpdate :=
  ⟨⟨"btc-updown-5m-1700000100", "0xc1", 1700000100, 1700000400, "up", "down", 5, 1/100⟩,
    1700000000000, 1700000000500⟩

def exampleRow (r : PaperRow) : Bool :=
  r.upTokenId = "up" ∧ r.downTokenId = "down" ∧ r.buyPrice = 1/100 ∧ r.orderSize = 100

def notFound : Exn := .other "HTTPError" "404 Client Error"

def exampleBooks : Value :=
  .array [.object [("asset_id", .string "up"), ("timestamp", .string "1700000000900"),
      ("bids", .array [.object [("price", .string "0.01"), ("size", .string "40")],
        .object [("price", .string "0.02"), ("size", .string "300")],
        .object [("price", .string "0.010"), ("size", .string "10")]])],
    .object [("asset_id", .string "down"), ("bids", .array [])]]

def exampleTrades : Value :=
  .array [.object [("asset", .string "down"), ("side", .string "BUY"), ("price", .string "0.99"),
      ("size", .string "70"), ("timestamp", .number "1700000300")],
    .object [("asset", .string "down"), ("side", .string "BUY"), ("price", .string "0.98"),
      ("size", .string "500"), ("timestamp", .number "1700000200")],
    .object [("asset", .string "up"), ("side", .string "SELL"), ("price", .string "0.01"),
      ("size", .string "60"), ("timestamp", .number "1700000200")],
    .object [("asset", .string "up"), ("side", .string "SELL"), ("price", .string "0.01"),
      ("size", .string "9"), ("timestamp", .number "1699999999")]]

def exampleLook : CaptureAnswers where
  nowTs := 1700000001
  payload r := if exampleRow r then .ok exampleBooks else .error notFound
  snapshotTsMs _ := 1700000001200

def exampleSettlement : SettleAnswers where
  nowTs := 1700000600
  market r := if exampleRow r then
      .ok (.object [("closed", .bool true), ("outcomes", .string "[\"Up\", \"Down\"]"),
        ("outcomePrices", .string "[\"1\", \"0\"]")])
    else .error notFound
  trades r := if exampleRow r ∧ r.snapshotTsMs = some 1700000001200 then .ok exampleTrades
    else .error notFound

def exampleRegistering : TurnAnswers where
  updates := [exampleActivation]
  registered := { exampleLook with payload := fun _ => .error notFound }
  capturedAt := 10
  now := 10
  retried := exampleLook
  settled := { exampleSettlement with nowTs := 1700000001 }
  heartbeatTs := 1700000001

def exampleSettling : TurnAnswers := { exampleRegistering with
  updates := []
  now := 600
  settled := exampleSettlement }

/-- A process registers a market and is killed; the next one captures its queue
and settles it. -/
def exampleEvents : List PaperEvent :=
  [.started exampleSimulator 1700000000, .turned exampleRegistering, .broken exampleSettling 0 [] 0,
    .started exampleSimulator 1700000590, .turned exampleSettling]

namespace PaperRun

variable {r : PaperRun}

/-- Over every run of processes, broken off anywhere: what a row was registered
with stays, its status only goes on, its queue is captured once, it is settled
or missed once, and its columns are filled as its status says. -/
theorem rows_kept {r' : PaperRun} (h : Run Step init r) (h' : Run Step r r') :
    r.db.Keeps r'.db ∧ r'.db.Proper := by
  have htells := tells_run h
  constructor
  · refine run_relates (fun r r' => r.db.Keeps r'.db) Tells (fun r => .refl r.db)
      (fun _ _ _ => PaperDatabase.Keeps.trans _ _ _) ?_ ?_ h' htells
    · rintro u v ⟨e, rfl⟩ hu
      exact (advance_relates (fun _ _ => True) (fun _ => trivial) (fun _ _ _ _ _ => trivial)
        (fun _ _ _ _ => trivial) hu (meets_any u e)).2
    · rintro u v ⟨e, rfl⟩ hu
      exact (advance_relates PaperDatabase.Keeps .refl .trans (fun _ _ _ => PaperWrite.From.keeps) hu
        (meets_any u e)).1
  · have hrun : Run (Guarded (fun r (e : PaperEvent) =>
        e.Meets (fun _ _ => True) (fun _ _ => True) r) advance) init r' :=
      Relation.ReflTransGen.mono (fun u v ⟨e, he⟩ => ⟨e, meets_any u e, he⟩) _ _ (h.trans h')
    exact rows_run (fun _ => proper_invariant) hrun

/-- From the killed process on, which had registered a market. -/
theorem rows_kept_example :
    ((exampleEvents.take 3).foldl advance init).db.Keeps
        ((exampleEvents.drop 3).foldl advance ((exampleEvents.take 3).foldl advance init)).db ∧
      ((exampleEvents.drop 3).foldl advance ((exampleEvents.take 3).foldl advance init)).db.Proper :=
  rows_kept (run_of_events init (exampleEvents.take 3)) (run_of_events _ (exampleEvents.drop 3))

end PaperRun

/-! ### What a turn leaves waiting -/

namespace PaperSimulator

variable {sim : PaperSimulator}

/-- A market that waits after a look has what went wrong with it. -/
theorem afterLook_waits {look : CaptureAnswers} {r : PaperRow} (hkey : r.strategyKey = sim.key)
    (h : (sim.afterLook look r).status = .snapshotPending) :
    look.nowTs < r.endTs ∧ ∃ e, (look.payload r).bind (readSnapshot sim.codec r) = .error e ∧
      sim.afterLook look r = PaperDatabase.failedRow e.text r := by
  unfold afterLook at h ⊢
  by_cases hstatus : r.status = .snapshotPending
  · rw [if_pos ⟨hkey, hstatus⟩] at h ⊢
    by_cases hover : r.endTs ≤ look.nowTs
    · rw [if_pos hover] at h
      exact nomatch h
    · rw [if_neg hover] at h ⊢
      refine ⟨not_le.mp hover, ?_⟩
      unfold lookedRow at h ⊢
      cases hread : (look.payload r).bind (readSnapshot sim.codec r) with
      | ok snapshot => rw [hread] at h; exact nomatch h
      | error e => exact ⟨e, rfl, rfl⟩
  · rw [if_neg fun hboth => hstatus hboth.2] at h
    exact absurd h hstatus

theorem afterLook_key (look : CaptureAnswers) (r : PaperRow) :
    (sim.afterLook look r).strategyKey = r.strategyKey := by
  unfold afterLook lookedRow
  split
  · split
    · rfl
    · split <;> rfl
  · rfl

/-- A settlement leaves a market that waits alone. -/
theorem afterSettlement_waits {answers : SettleAnswers} {r : PaperRow}
    (h : (sim.afterSettlement answers r).status = .snapshotPending) :
    sim.afterSettlement answers r = r := by
  have hstatus := (afterSettlement_pending answers r).mp h
  unfold afterSettlement
  rw [if_neg fun hover => by simp [hstatus] at hover]

/-- A market that is over and not settled has no resolution yet, or what went
wrong with it. -/
theorem afterSettlement_open {answers : SettleAnswers} {r : PaperRow}
    (hkey : r.strategyKey = sim.key) (h : (sim.afterSettlement answers r).status = .monitoring)
    (hover : (sim.afterSettlement answers r).endTs ≤ answers.nowTs - finalizationDelaySeconds) :
    ∃ e, sim.settlement answers r = .error e ∧ sim.afterSettlement answers r =
      if isResolutionPending e then r else PaperDatabase.failedRow e.text r := by
  unfold afterSettlement at h hover ⊢
  by_cases hready : r.strategyKey = sim.key ∧ r.status = .monitoring ∧
      r.endTs ≤ answers.nowTs - finalizationDelaySeconds
  · rw [if_pos hready] at h ⊢
    unfold resolvedRow at h ⊢
    cases hsettled : sim.settlement answers r with
    | ok settled => rw [hsettled] at h; exact nomatch h
    | error e => exact ⟨e, rfl, rfl⟩
  · rw [if_neg hready] at h hover
    exact absurd ⟨hkey, h, hover⟩ hready

variable {answers : TurnAnswers} {registered again settled : Bool} {r : PaperRow}

theorem afterTurn_waits (hkey : r.strategyKey = sim.key)
    (hlooked : registered = true ∨ again = true)
    (h : (sim.afterTurn answers registered again settled r).status = .snapshotPending) :
    ∃ look ∈ [answers.registered, answers.retried], ∃ before e, look.nowTs < before.endTs ∧
      (look.payload before).bind (readSnapshot sim.codec before) = .error e ∧
      sim.afterTurn answers registered again settled r = PaperDatabase.failedRow e.text before := by
  have hsettled : sim.afterTurn answers registered again settled r =
      sim.afterTurn answers registered again false r := by
    cases settled with
    | false => rfl
    | true => exact afterSettlement_waits h
  rw [hsettled] at h ⊢
  cases again with
  | true =>
    have hkey' : (if registered then sim.afterLook answers.registered r else r).strategyKey = sim.key := by
      cases registered with
      | false => exact hkey
      | true => exact (afterLook_key answers.registered r).trans hkey
    obtain ⟨hbefore, e, hread, hrow⟩ := afterLook_waits hkey' h
    exact ⟨answers.retried, by simp, _, e, hbefore, hread, hrow⟩
  | false =>
    obtain rfl : registered = true := hlooked.resolve_right (by simp)
    obtain ⟨hbefore, e, hread, hrow⟩ := afterLook_waits hkey h
    exact ⟨answers.registered, by simp, r, e, hbefore, hread, hrow⟩

theorem afterTurn_open (hkey : r.strategyKey = sim.key)
    (h : (sim.afterTurn answers registered again true r).status = .monitoring)
    (hover : (sim.afterTurn answers registered again true r).endTs ≤
      answers.settled.nowTs - finalizationDelaySeconds) :
    ∃ before e, sim.settlement answers.settled before = .error e ∧
      sim.afterTurn answers registered again true r =
        if isResolutionPending e then before else PaperDatabase.failedRow e.text before := by
  have hkey' : (sim.afterTurn answers registered again false r).strategyKey = sim.key := by
    cases again <;> cases registered <;> simp [afterTurn, afterLook_key, hkey]
  exact ⟨_, afterSettlement_open hkey' h hover⟩

end PaperSimulator

namespace PaperRun

/-- The loop forgets no market, in any run: it knows whether one waits for its
book; a turn at which a look is due, or that registered a market, leaves each
that still waits with what went wrong at a look before its end; a turn at which
a settlement is due leaves each that is over settled, as it was where it has no
resolution yet, or with what went wrong; and what was activated is registered. -/
theorem no_market_forgotten {r : PaperRun} (h : Run Step init r) {sim : PaperSimulator}
    {timers : Timers} (hprocess : r.process = some (sim, timers)) (answers : TurnAnswers) :
    timers.Tell sim.key r.db ∧ ∃ timers' t, (r.advance (.turned answers)) = ⟨t, some (sim, timers')⟩ ∧
      (∀ update ∈ answers.updates, (t.market sim.key update.market.slug).isSome = true) ∧
      (timers.nextSnapshotRetry.any (· ≤ answers.now) = true ∨
          (∃ slug, r.db.market sim.key slug = none ∧ (t.market sim.key slug).isSome = true) →
        ∀ slug row, t.market sim.key slug = some row → row.status = .snapshotPending →
          ∃ look ∈ [answers.registered, answers.retried], look.nowTs < row.endTs ∧
            ∃ before e, (look.payload before).bind (readSnapshot sim.codec before) = .error e ∧
              row = PaperDatabase.failedRow e.text before) ∧
      (timers.nextSettlementPoll ≤ answers.now →
        ∀ slug row, t.market sim.key slug = some row → row.status = .monitoring →
          row.endTs ≤ answers.settled.nowTs - finalizationDelaySeconds →
          ∃ before e, sim.settlement answers.settled before = .error e ∧
            row = if isResolutionPending e then before else PaperDatabase.failedRow e.text before) := by
  have htell := tells_run h _ hprocess
  have hsafe : Safe (PaperWrite.From sim (fun _ => True) fun _ => True) (sim.turn answers timers) _ _
      r.db := PaperSimulator.turn_safe trivial trivial trivial htell
  refine ⟨htell, ?_⟩
  obtain ⟨timers', hresult⟩ : ∃ timers', (sim.turn answers timers).result r.db = .ok timers' := by
    cases hresult : (sim.turn answers timers).result r.db with
    | error e => exact (hsafe.raised e hresult).elim
    | ok timers' => exact ⟨timers', rfl⟩
  obtain ⟨-, db', registered, again, hregisters, hnone, hdue, hrows⟩ := hsafe.returned _ hresult
  refine ⟨timers', (sim.turn answers timers).after r.db, ?_, fun update hupdate => ?_, ?_, ?_⟩
  · unfold advance ran
    rw [hprocess]
    simp only [hresult]
  · rw [hrows, Option.isSome_map]
    exact hregisters.registered update hupdate
  · intro hlooked slug row hrow hstatus
    have hlook : registered = true ∨ again = true := by
      rcases hlooked with hretry | ⟨slug', hbefore, hafter⟩
      · exact hdue hretry
      · refine .inl (Bool.not_eq_false _ ▸ fun hfalse => ?_)
        rw [hrows, Option.isSome_map, hnone hfalse, hbefore] at hafter
        cases hafter
    rw [hrows] at hrow
    obtain ⟨before, hbefore, rfl⟩ := Option.map_eq_some_iff.mp hrow
    obtain ⟨look, hmem, row, e, hover, hread, hrow⟩ :=
      PaperSimulator.afterTurn_waits (PaperDatabase.market_key hbefore).1 hlook hstatus
    exact ⟨look, hmem, by rw [hrow]; exact hover, row, e, hread, hrow⟩
  · intro hpoll slug row hrow hstatus hover
    rw [hrows] at hrow
    obtain ⟨before, hbefore, rfl⟩ := Option.map_eq_some_iff.mp hrow
    rw [decide_eq_true hpoll] at hstatus hover ⊢
    exact PaperSimulator.afterTurn_open (PaperDatabase.market_key hbefore).1 hstatus hover

theorem process_broken (r : PaperRun) (answers : TurnAnswers) (done : ℕ)
    (updates : List ActivationUpdate) (drained : ℕ) :
    (r.advance (.broken answers done updates drained)).process = none := by
  unfold advance
  cases hprocess : r.process with
  | none => exact hprocess
  | some running => rfl

theorem advance_started {r : PaperRun} (h : r.process = none) (sim : PaperSimulator) (now : ℤ) :
    r.advance (.started sim now) = ran sim (sim.start now) r.db := by
  unfold advance
  rw [h]

/-- The turn that registers the market, with neither its books nor a resolution
there yet. -/
theorem no_market_forgotten_example : ∃ timers timers' t,
    ((exampleEvents.take 1).foldl advance init).process = some (exampleSimulator, timers) ∧
      timers.Tell exampleSimulator.key ((exampleEvents.take 1).foldl advance init).db ∧
      ((exampleEvents.take 1).foldl advance init).advance (.turned exampleRegistering) =
        ⟨t, some (exampleSimulator, timers')⟩ ∧
      (t.market exampleSimulator.key exampleActivation.market.slug).isSome = true ∧
      (∀ slug row, t.market exampleSimulator.key slug = some row → row.status = .snapshotPending →
        ∃ look ∈ [exampleRegistering.registered, exampleRegistering.retried], look.nowTs < row.endTs ∧
          ∃ before e, (look.payload before).bind (readSnapshot exampleSimulator.codec before) =
              .error e ∧ row = PaperDatabase.failedRow e.text before) ∧
      ∀ slug row, t.market exampleSimulator.key slug = some row → row.status = .monitoring →
        row.endTs ≤ exampleRegistering.settled.nowTs - finalizationDelaySeconds →
        ∃ before e, exampleSimulator.settlement exampleRegistering.settled before = .error e ∧
          row = if isResolutionPending e then before else PaperDatabase.failedRow e.text before := by
  have hstarted : (exampleEvents.take 1).foldl advance init =
      ran exampleSimulator (exampleSimulator.start 1700000000) init.db :=
    advance_started (r := init) rfl exampleSimulator 1700000000
  have hpoll : ((exampleEvents.take 1).foldl advance init).process.all fun running =>
      decide (running.2.nextSettlementPoll ≤ exampleRegistering.now) := by
    decide +kernel
  have hunknown : ((exampleEvents.take 1).foldl advance init).db.market exampleSimulator.key
      exampleActivation.market.slug = none := by
    decide +kernel
  obtain ⟨timers, hprocess⟩ : ∃ timers, ((exampleEvents.take 1).foldl advance init).process =
      some (exampleSimulator, timers) := ⟨_, by rw [hstarted]; rfl⟩
  rw [hprocess] at hpoll
  obtain ⟨htell, timers', t, hturned, hregistered, hwaits, hover⟩ := no_market_forgotten
    (run_of_events init (exampleEvents.take 1)) hprocess exampleRegistering
  have hnew := hregistered exampleActivation List.mem_cons_self
  exact ⟨timers, timers', t, hprocess, htell, hturned, hnew, hwaits (.inr ⟨_, hunknown, hnew⟩),
    hover (of_decide_eq_true hpoll)⟩

end PaperRun

end EventQuant.Paper
