import EventQuant.OrderLedger
import EventQuant.Service.Calls

/-!
The order ledger over whole runs: any interleaving of the calls that write
order rows, each cut short anywhere, and restarts between them. The drains of
the reconciliation and the cancels set no row back by their own guards; a user
stream's report and an order written down are taken as they come.
-/
namespace EventQuant

open Program Store Runs

/-- A call that got to its first `done` commits, or a new process on the
database. -/
inductive LedgerEvent
  | call (c : ServiceCall) (done : ℕ)
  | restart

def LedgerEvent.next (s : Service) (b : Bot) : LedgerEvent → Bot
  | call c done => settle b ((c.effects s b).take done)
  | restart => Bot.boot b.database

def StreamUpdate.Fresh (db : Database) : StreamUpdate → Prop
  | .order update => db.FreshReport update.orderId update.status update.matchedSize
  | _ => True

def FreshUpdates : Bot → List (Bool × StreamUpdate) → Prop
  | _, [] => True
  | b, (gating, update) :: rest =>
    update.Fresh b.database ∧ FreshUpdates ((Service.drainStreamUpdate gating update).after b) rest

/-- No order event of a stream is behind the row it falls on, and no order is
written down under an id whose row stands for more. -/
def LedgerEvent.Fresh (s : Service) (b : Bot) : LedgerEvent → Prop
  | call c _ =>
    Each (fun b e => e.FreshAdds b) b (c.effects s b) ∧
      match c with
      | .drainUserStreamUpdates updates _ _ => FreshUpdates b updates
      | _ => True
  | restart => True

def Effect.Guarded (b : Bot) (e : Effect) : Prop := e.FreshAdds b → e.Fresh b

theorem Effect.Plain.guarded {e : Effect} (h : e.Plain) (b : Bot) : e.Guarded b := by
  intro hadds
  cases e with
  | write w =>
    cases w with
    | updateOrder orderId status matchedSize => exact absurd h id
    | markOrders orderIds status => exact absurd h id
    | addOrder now slug order => exact hadds
    | _ => trivial
  | _ => trivial

/-- The guarded effects of a call whose orders set no row back. -/
theorem guarded_fresh {b : Bot} {effects : List Effect}
    (hguarded : Each (fun b e => Effect.Guarded b e) b effects)
    (hadds : Each (fun b e => e.FreshAdds b) b effects) :
    Each (fun b e => e.Fresh b) b effects := by
  induction effects generalizing b with
  | nil => trivial
  | cons e effects ih => exact ⟨hguarded.1 hadds.1, ih hguarded.2 hadds.2⟩

abbrev Action.Guarded {α : Type} (a : Action α) (b : Bot) : Prop :=
  Each (fun b e => Effect.Guarded b e) b (a.commits b)

theorem emits_guarded {α : Type} {a : Action α} (h : Emits Effect.Plain a) (b : Bot) :
    a.Guarded b := h.each (fun _ => Effect.Plain.guarded) b

namespace Service

variable (s : Service)

theorem exitsAfter_guarded (changed : Bool) (nowTs : ℤ) (answers : LadderAnswers) (b : Bot) :
    (s.exitsAfter changed nowTs answers).Guarded b := by
  unfold exitsAfter
  split
  · split
    · exact emits_guarded ((s.placeMissingExits_exits _ nowTs answers).mono fun _ => Effect.OfExits.plain) b
    · trivial
  · trivial

/-- The larger fill is kept, and so is a final status. -/
theorem drainReconciledOrder_guarded (result : ReconciledOrder) (b : Bot) :
    (s.drainReconciledOrder result).Guarded b := by
  unfold drainReconciledOrder Action.query
  refine each_andThen trivial fun row hrow => ?_
  simp only [result_read, Except.ok.injEq] at hrow
  simp only [after_read]
  split
  · rename_i row _ raw
    refine each_andThen trivial fun reported _ => ?_
    simp only [after_answer]
    split
    · trivial
    · refine each_andThen trivial fun matched hmatched => ?_
      simp only [after_answer]
      rw [result_answer] at hmatched
      refine each_andThen ⟨fun _ => ?_, trivial⟩ fun _ _ => trivial
      intro row' hrow'
      rw [hrow', Option.some.injEq] at hrow
      subst hrow
      exact ⟨largerFill_le hmatched, fun hterminal =>
        reconciledStatus_terminal row' _ _ _ hterminal⟩
  · trivial

theorem adoptOpenOrder_guarded (nowTs : ℤ) (raw : Python.Value) (b : Bot) :
    (s.adoptOpenOrder nowTs raw).Guarded b := by
  have hadopt : Emits Effect.Plain (s.adoptOpenOrder nowTs raw) := by
    unfold adoptOpenOrder Action.query
    refine emits_handle ?_ fun _ => emits_return false
    refine emits_andThen (emits_read _) fun found => emits_andThen (emits_answer _) fun order => ?_
    split
    · exact emits_return false
    · exact emits_andThen (addOrder_emits trivial) fun _ => emits_return true
  exact emits_guarded hadopt b

theorem drainReconciliationUpdates_guarded (updates : List ReconciliationUpdate) (nowTs : ℤ)
    (answers : LadderAnswers) (b : Bot) :
    (s.drainReconciliationUpdates updates nowTs answers).Guarded b := by
  refine each_andThen (each_collect updates (fun update _ t => ?_) b)
    fun _ _ => s.exitsAfter_guarded _ nowTs answers _
  unfold drainReconciliationUpdate
  split
  · trivial
  · refine each_andThen (each_collect _ (fun raw _ => s.adoptOpenOrder_guarded nowTs raw) t) fun _ _ => ?_
    exact each_andThen (each_collect _ (fun result _ => s.drainReconciledOrder_guarded result) _) fun _ _ => trivial

theorem drainStreamUpdate_guarded (gating : Bool) (update : StreamUpdate) (b : Bot)
    (hfresh : update.Fresh b.database) : (drainStreamUpdate gating update).Guarded b := by
  cases update with
  | state healthy recovered => trivial
  | trade status orderIds =>
    unfold drainStreamUpdate Action.query
    exact each_andThen trivial fun _ _ => trivial
  | order update =>
    refine each_andThen ?_ fun _ _ => trivial
    unfold drainStreamOrder Action.query
    refine each_andThen trivial fun row _ => ?_
    split
    · trivial
    · exact each_andThen ⟨fun _ => hfresh, trivial⟩ fun _ _ => trivial

theorem drainUserStreamUpdates_guarded (updates : List (Bool × StreamUpdate)) (nowTs : ℤ)
    (answers : LadderAnswers) (b : Bot) (hfresh : FreshUpdates b updates) :
    (s.drainUserStreamUpdates updates nowTs answers).Guarded b := by
  refine each_andThen ?_ fun _ _ => ?_
  · induction updates generalizing b with
    | nil => trivial
    | cons update updates ih =>
      refine each_andThen (drainStreamUpdate_guarded update.1 update.2 b hfresh.1) fun _ _ => ?_
      exact each_andThen (ih _ hfresh.2) fun _ _ => trivial
  · exact each_andThen (s.exitsAfter_guarded _ nowTs answers _) fun _ _ => trivial

/-- What a cancel leaves on a row is final, and what it announces falls on
rows that are not. -/
theorem cancelAndMark_guarded (rows : List (OrderRow × MarketRow)) (answers : CancelAnswers)
    (b : Bot) (hrows : ∀ p ∈ rows, b.database.order p.1.orderId = some p.1 ∧
      p.1.status ∉ terminalStates) : (s.cancelAndMark rows answers).Guarded b := by
  have hmark : ∀ (ids : List String) (status : String) (t : Bot),
      (status ∈ terminalStates ∨ ∀ id ∈ ids, ∀ row, t.database.order id = some row →
        row.status ∉ terminalStates) → (markOrders ids status).Guarded t := by
    intro ids status t hstatus
    unfold markOrders
    split
    · trivial
    · refine ⟨fun _ id hid row hrow hterminal => ?_, trivial⟩
      rcases hstatus with hstatus | hopen
      · exact hstatus
      · exact absurd hterminal (hopen id hid row hrow)
  have hopen : ∀ id ∈ rows.map (fun row => row.1.orderId), ∀ row,
      b.database.order id = some row → row.status ∉ terminalStates := by
    intro id hid row hrow
    obtain ⟨p, hp, rfl⟩ := List.mem_map.mp hid
    rw [(hrows p hp).1, Option.some.injEq] at hrow
    exact hrow ▸ (hrows p hp).2
  unfold cancelAndMark
  simp only
  split
  · trivial
  · split
    · exact hmark _ _ b (.inr hopen)
    · rename_i x _
      refine each_andThen (hmark _ _ b (.inr hopen)) fun _ _ => ?_
      have hcancel : Emits Effect.Plain (handle
          ((s.cancelRows x rows answers).andThen fun ids => return' (some ids))
          fun _ => return' none) := by
        refine emits_handle (emits_andThen ?_ fun _ => emits_return _) fun _ => emits_return _
        exact (s.cancelRows_cancels x rows answers).mono fun _ => Effect.Cancels.plain
      refine each_andThen (emits_guarded hcancel _) fun cancelled _ => ?_
      split
      · trivial
      · refine each_andThen (hmark _ "cancelled" _ (.inl (by decide))) fun _ _ => ?_
        exact hmark _ "terminal_unknown" _ (.inl (by decide))

theorem cancelDueOrders_guarded (nowTs : ℚ) (answers : CancelAnswers) (b : Bot) :
    (s.cancelDueOrders nowTs answers).Guarded b := by
  unfold cancelDueOrders Action.query
  split
  · trivial
  · refine each_andThen trivial fun due hdue => ?_
    simp only [result_read, Except.ok.injEq] at hdue
    subst hdue
    refine s.cancelAndMark_guarded _ answers b fun p hp => ?_
    obtain ⟨hrow, hdue, -⟩ := Database.mem_dueOpenOrders.mp hp
    exact ⟨hrow, fun hterminal => terminal_not_tracked _ hterminal (due_tracked _ hdue)⟩

theorem cancelTrackedOrders_guarded (answers : CancelAnswers) (b : Bot) :
    (s.cancelTrackedOrders answers).Guarded b := by
  unfold cancelTrackedOrders Action.query
  refine each_andThen trivial fun tracked htracked => ?_
  simp only [result_read, Except.ok.injEq] at htracked
  subst htracked
  refine s.cancelAndMark_guarded _ answers b fun p hp => ?_
  obtain ⟨hrow, htracked, -⟩ := Database.mem_trackedOpenOrders.mp hp
  exact ⟨hrow, fun hterminal => terminal_not_tracked _ hterminal htracked⟩

end Service

/-- One event that meets the condition keeps the ledger. -/
theorem LedgerEvent.keeps_next (s : Service) (b : Bot) (e : LedgerEvent) (h : e.Fresh s b) :
    b.Keeps (e.next s b) := by
  cases e with
  | restart => exact Database.Keeps.refl b.database
  | call c done =>
    have hguarded : Each (fun b e => Effect.Guarded b e) b (c.effects s b) := by
      cases c with
      | considerMarket market nowTs trigger orderbookReady answers =>
        exact emits_guarded ((s.considerMarket_ofTurn market nowTs trigger orderbookReady answers).mono
          fun _ => Effect.OfTurn.plain) b
      | drainReconciliationUpdates updates nowTs answers =>
        exact s.drainReconciliationUpdates_guarded updates nowTs answers b
      | drainUserStreamUpdates updates nowTs answers =>
        exact s.drainUserStreamUpdates_guarded updates nowTs answers b h.2
      | cancelDueOrders nowTs answers => exact s.cancelDueOrders_guarded nowTs answers b
      | cancelTrackedOrders answers => exact s.cancelTrackedOrders_guarded answers b
    exact Bot.keeps_settle (guarded_fresh hguarded h.1) done

/-- In every run whose events meet the condition, an order id that has a row
never loses matched size and never leaves a final status. -/
theorem order_ledger_kept (s : Service) (b b' : Bot)
    (hrun : Run (Guarded (LedgerEvent.Fresh s) (LedgerEvent.next s)) b b') (orderId : String)
    (row : OrderRow) (hrow : b.database.order orderId = some row) :
    ∃ row', b'.database.order orderId = some row' ∧ row.matchedSize ≤ row'.matchedSize ∧
      (row.status ∈ terminalStates → row'.status ∈ terminalStates) := by
  have hkeeps : b.Keeps b' :=
    guarded_run_relates Bot.Keeps (fun b => Database.Keeps.refl b.database)
      (fun _ _ _ => Database.Keeps.trans _ _ _) (LedgerEvent.keeps_next s) hrun
  obtain ⟨row', hrow', hrow''⟩ := hkeeps orderId row hrow
  exact ⟨row', hrow', hrow''.matched, hrow''.terminal⟩

def upRow (status : String) (matchedSize : ℚ) : OrderRow :=
  ⟨"0xa1", "btc-updown-5m-0", "up", "up-token", .buy, .entry, "", 1 / 10, 10, matchedSize, status, 0⟩

def upBooks (status : String) (matchedSize : ℚ) : Bot :=
  Bot.boot ⟨Table.empty, Table.empty.put (upRow status matchedSize)⟩

def upEvent (matchedSize : ℚ) : LedgerEvent :=
  .call (.drainUserStreamUpdates [(true, .order
    (UserOrderPayload.normalize ⟨"0xa1", "UPDATE", "LIVE", matchedSize, 10⟩))] 0
      ⟨fun _ => .ok 0, fun _ _ => ⟨.ok .null, .ok [], 0, 0⟩⟩) 1

theorem order_ledger_kept_filled : ∃ row',
    ((upEvent 10).next pairService (upBooks "live" 0)).database.order "0xa1" = some row' ∧
      0 ≤ row'.matchedSize ∧ ("live" ∈ terminalStates → row'.status ∈ terminalStates) := by
  have hfresh : (upEvent 10).Fresh pairService (upBooks "live" 0) := by
    refine ⟨⟨trivial, trivial⟩, ?_, trivial⟩
    intro row hrow
    obtain rfl : upRow "live" 0 = row := Option.some.inj hrow
    exact ⟨by decide +kernel, fun _ => by decide⟩
  exact order_ledger_kept pairService _ _ (.single ⟨upEvent 10, hfresh, rfl⟩) "0xa1"
    (upRow "live" 0) rfl

/-- A report from before the fill sets the filled row back. -/
theorem order_ledger_kept_stale : ∃ row',
    ((upEvent 0).next pairService (upBooks "filled" 10)).database.order "0xa1" = some row' ∧
      row'.matchedSize < 10 ∧ row'.status ∉ terminalStates := by
  refine ⟨upRow "live" 0, ?_, ?_⟩
  · rfl
  · decide +kernel

end EventQuant
