import EventQuant.Service.Cancels
import EventQuant.Service.Drains
import EventQuant.Service.PlacementEffects

/-!
The calls a tick of the service is made of: a market's turn, the drains and
the cancels. Only a turn signs, sends or retries an entry; the other calls
write orders down and cancel them, and never reopen a market.
-/
namespace EventQuant

open Program Store

/-- The calls of the service. The loops over discovered and over activated
markets are made of turns. -/
inductive ServiceCall
  | considerMarket (market : Market) (nowTs : ℤ) (trigger : Trigger) (orderbookReady : Bool)
      (answers : PlacementAnswers)
  | drainReconciliationUpdates (updates : List ReconciliationUpdate) (nowTs : ℤ)
      (answers : LadderAnswers)
  | drainUserStreamUpdates (updates : List (Bool × StreamUpdate)) (nowTs : ℤ)
      (answers : LadderAnswers)
  | cancelDueOrders (nowTs : ℚ) (answers : CancelAnswers)
  | cancelTrackedOrders (answers : CancelAnswers)

namespace ServiceCall

def effects (s : Service) (b : Bot) : ServiceCall → List Effect
  | considerMarket market nowTs trigger orderbookReady answers =>
    (s.considerMarket market nowTs trigger orderbookReady answers).commits b
  | drainReconciliationUpdates updates nowTs answers =>
    (s.drainReconciliationUpdates updates nowTs answers).commits b
  | drainUserStreamUpdates updates nowTs answers =>
    (s.drainUserStreamUpdates updates nowTs answers).commits b
  | cancelDueOrders nowTs answers => (s.cancelDueOrders nowTs answers).commits b
  | cancelTrackedOrders answers => (s.cancelTrackedOrders answers).commits b

def Returns (s : Service) (b : Bot) : ServiceCall → Prop
  | considerMarket market nowTs trigger orderbookReady answers =>
    ∃ v, (s.considerMarket market nowTs trigger orderbookReady answers).result b = .ok v
  | drainReconciliationUpdates updates nowTs answers =>
    ∃ v, (s.drainReconciliationUpdates updates nowTs answers).result b = .ok v
  | drainUserStreamUpdates updates nowTs answers =>
    ∃ v, (s.drainUserStreamUpdates updates nowTs answers).result b = .ok v
  | cancelDueOrders nowTs answers => ∃ v, (s.cancelDueOrders nowTs answers).result b = .ok v
  | cancelTrackedOrders answers => ∃ v, (s.cancelTrackedOrders answers).result b = .ok v

def after (s : Service) (b : Bot) (c : ServiceCall) : Bot := settle b (c.effects s b)

end ServiceCall

def Effect.OfExits : Effect → Prop
  | .submitExit _ _ _ => True
  | .write (.addOrder _ _ _) => True
  | .write (.setMarketState _ state _) => state = .exitError
  | _ => False

def Effect.Quiet : Effect → Prop
  | .submitExit _ _ _ => True
  | .cancel _ _ => True
  | .write (.prepareMarket _ _ _) => False
  | .write (.setMarketState _ state _) => state ≠ .placementPending
  | .write _ => True
  | _ => False

theorem Effect.OfExits.plain {e : Effect} (h : e.OfExits) : e.Plain := by
  cases e with
  | write w => cases w <;> first | exact absurd h id | trivial
  | _ => trivial

theorem Effect.OfExits.quiet {e : Effect} (h : e.OfExits) : e.Quiet := by
  cases e with
  | write w =>
    cases w with
    | setMarketState slug state error =>
      obtain rfl : state = .exitError := h
      exact nofun
    | addOrder now slug order => trivial
    | _ => exact absurd h id
  | submitExit tokenId price size => trivial
  | _ => exact absurd h id

theorem Effect.Cancels.plain {e : Effect} (h : e.Cancels) : e.Plain := by
  cases e with
  | cancel account orderIds => trivial
  | _ => exact absurd h id

namespace Service

variable (s : Service)

section Exits

variable (x : Exchange)

def RungOrder (row : OrderRow) (price size : ℚ) (answers : ExitAnswers) (order : PlacedOrder) :
    Prop :=
  exitOrder x row price size answers = .ok order ∨
    order = failedExit row price size answers.timeNs

/-- The effects of a pass over the ladder, for whatever allows its submissions,
and its orders and failures for the entries it is made of. -/
structure AllowsLadder (allowed : Effect → Prop) (of : OrderRow → Prop) (answers : LadderAnswers) :
    Prop where
  submits : ∀ tokenId price size, allowed (.submitExit tokenId price size)
  adds : ∀ row, of row → ∀ target size order,
    RungOrder x row target.price size (answers.rung row target) order →
      ∀ now, allowed (.write (.addOrder now row.slug order))
  fails : ∀ row, of row → ∀ error, allowed (.write (.setMarketState row.slug .exitError error))

variable {x} {allowed : Effect → Prop} {of : OrderRow → Prop}

theorem AllowsLadder.placeExitRung {answers : LadderAnswers} (h : AllowsLadder x allowed of answers)
    {row : OrderRow} (hrow : of row) (target : ExitTarget) (size : ℚ) :
    Emits allowed (placeExitRung x row target.price size (answers.rung row target)) := by
  unfold Service.placeExitRung
  refine emits_andThen (emits_commit (h.submits _ _ _)) fun _ => ?_
  split
  · rename_i order horder
    refine emits_andThen (addOrder_emits (h.adds row hrow target size order (.inl horder) _)) fun _ => ?_
    exact emits_return _
  · refine emits_andThen (addOrder_emits (h.adds row hrow target size _ (.inr rfl) _)) fun _ => ?_
    exact emits_andThen (emits_commit (h.fails row hrow _)) fun _ => emits_return _

theorem AllowsLadder.placeRungs {answers : LadderAnswers} (h : AllowsLadder x allowed of answers)
    {row : OrderRow} (hrow : of row) (minSize available : ℚ) (rungs : List (ExitTarget × ℚ)) :
    Emits allowed (s.placeRungs x row minSize answers available rungs) := by
  induction rungs generalizing available with
  | nil => exact emits_return ()
  | cons rung rungs ih =>
    unfold Service.placeRungs
    split
    · exact ih available
    · refine emits_andThen (h.placeExitRung hrow rung.1 _) fun placed => ?_
      simp only
      generalize (if placed = true then s.decimals.sub available (min rung.2 available) else available) = left
      split
      · exact emits_return ()
      · exact ih left

/-- A pass commits what is allowed for the filled entries it begins with. -/
theorem AllowsLadder.placeMissingExits {answers : LadderAnswers}
    (h : AllowsLadder x allowed of answers) (nowTs : ℤ) {b : Bot}
    (hrows : ∀ entry ∈ b.database.entryOrdersWithFills, of entry.1) :
    ∀ e ∈ (s.placeMissingExits x nowTs answers).commits b, allowed e := by
  have hladder : ∀ entry : OrderRow × MarketRow, of entry.1 →
      Emits allowed (s.placeLadder x nowTs answers entry) := by
    rintro ⟨row, market⟩ hrow
    unfold placeLadder Action.query
    simp only [bind_eq]
    split
    · exact emits_return ()
    · refine emits_andThen (emits_read _) fun pending => ?_
      split
      · exact emits_return ()
      · refine emits_andThen (emits_answer _) fun balance => ?_
        refine emits_andThen (emits_read _) fun reserved => ?_
        split
        · exact emits_return ()
        · exact h.placeRungs s hrow _ _ pending
  unfold Service.placeMissingExits Action.query
  simp only [bind_eq]
  split
  · exact fun e he => absurd he List.not_mem_nil
  · rw [commits_andThen_ok (result_read b _), commits_read, List.nil_append, after_read]
    exact emits_forEach _ (fun entry hentry => hladder entry (hrows entry hentry)) b

variable (x)

theorem placeMissingExits_exits (nowTs : ℤ) (answers : LadderAnswers) :
    Emits Effect.OfExits (s.placeMissingExits x nowTs answers) := by
  have hladder : AllowsLadder x Effect.OfExits (fun _ => True) answers :=
    ⟨fun _ _ _ => trivial, fun _ _ _ _ _ _ _ => trivial, fun _ _ _ => rfl⟩
  exact fun _ => hladder.placeMissingExits s nowTs fun _ _ => trivial

end Exits

theorem cancelRows_cancels (x : Exchange) (rows : List (OrderRow × MarketRow))
    (answers : CancelAnswers) : Emits Effect.Cancels (s.cancelRows x rows answers) := by
  have hgroups : ∀ f groups, Emits Effect.Cancels (cancelGroups f answers groups) := by
    intro f groups
    fun_induction cancelGroups f answers groups with
    | case1 => exact emits_return _
    | case2 account orderIds rest ih =>
      refine emits_andThen (emits_answer _) fun m => emits_andThen (emits_commit trivial) fun _ => ?_
      refine emits_andThen (emits_answer _) fun _ => emits_andThen (emits_answer _) fun _ => ?_
      exact emits_andThen ih fun _ => emits_return _
  unfold cancelRows
  split
  · refine emits_andThen (emits_commit trivial) fun _ => emits_andThen (emits_answer _) fun _ => ?_
    exact emits_answer _
  · exact hgroups _ _

/-- Cancelling rows sends cancels and marks orders. -/
theorem cancelAndMark_emits {allowed : Effect → Prop}
    (hcancels : ∀ account orderIds, allowed (.cancel account orderIds))
    (hmarks : ∀ orderIds status, allowed (.write (.markOrders orderIds status)))
    (rows : List (OrderRow × MarketRow)) (answers : CancelAnswers) :
    Emits allowed (s.cancelAndMark rows answers) := by
  have hmark : ∀ ids status, Emits allowed (markOrders ids status) := by
    intro ids status
    unfold markOrders
    split
    · exact emits_return _
    · exact emits_commit (hmarks ids status)
  have hcancel : ∀ e : Effect, e.Cancels → allowed e := by
    intro e he
    cases e with
    | cancel account orderIds => exact hcancels account orderIds
    | _ => exact absurd he id
  unfold cancelAndMark
  simp only
  split
  · exact emits_return _
  · split
    · exact hmark _ _
    · rename_i x _
      refine emits_andThen (hmark _ _) fun _ => ?_
      have hrows := (s.cancelRows_cancels x rows answers).mono hcancel
      refine emits_andThen (emits_handle (emits_andThen hrows fun _ => emits_return _)
        fun _ => emits_return _) fun cancelled => ?_
      split
      · exact emits_return _
      · exact emits_andThen (hmark _ _) fun _ => hmark _ _

theorem cancelDueOrders_emits {allowed : Effect → Prop}
    (hcancels : ∀ account orderIds, allowed (.cancel account orderIds))
    (hmarks : ∀ orderIds status, allowed (.write (.markOrders orderIds status)))
    (nowTs : ℚ) (answers : CancelAnswers) : Emits allowed (s.cancelDueOrders nowTs answers) := by
  unfold cancelDueOrders Action.query
  split
  · exact emits_return _
  · exact emits_andThen (emits_read _) fun due => s.cancelAndMark_emits hcancels hmarks due answers

/-- A report over an order's row is all a reconciled order writes. -/
theorem drainReconciledOrder_emits {allowed : Effect → Prop}
    (hreports : ∀ orderId status matched, allowed (.write (.updateOrder orderId status matched)))
    (result : ReconciledOrder) : Emits allowed (s.drainReconciledOrder result) := by
  unfold drainReconciledOrder Action.query
  refine emits_andThen (emits_read _) fun row => ?_
  split
  · refine emits_andThen (emits_answer _) fun reported => ?_
    simp only
    split_ifs
    · exact emits_return _
    · refine emits_andThen (emits_answer _) fun matched => ?_
      exact emits_andThen (emits_commit (hreports _ _ _)) fun _ => emits_return _
  · exact emits_return _

theorem drainStreamUpdate_emits {allowed : Effect → Prop}
    (hreports : ∀ orderId status matched, allowed (.write (.updateOrder orderId status matched)))
    (gating : Bool) (update : StreamUpdate) : Emits allowed (drainStreamUpdate gating update) := by
  unfold drainStreamUpdate Action.query
  split
  · exact emits_return _
  · exact emits_andThen (emits_read _) fun _ => emits_return _
  · refine emits_andThen ?_ fun _ => emits_return _
    unfold drainStreamOrder Action.query
    refine emits_andThen (emits_read _) fun row => ?_
    split
    · exact emits_return _
    · exact emits_andThen (emits_commit (hreports _ _ _)) fun _ => emits_return _

theorem exitsAfter_quiet (changed : Bool) (nowTs : ℤ) (answers : LadderAnswers) :
    Emits Effect.Quiet (s.exitsAfter changed nowTs answers) := by
  unfold exitsAfter
  split
  · split
    · exact (s.placeMissingExits_exits _ nowTs answers).mono fun _ => Effect.OfExits.quiet
    · exact emits_return _
  · exact emits_return _

theorem drainReconciliationUpdates_quiet (updates : List ReconciliationUpdate) (nowTs : ℤ)
    (answers : LadderAnswers) :
    Emits Effect.Quiet (s.drainReconciliationUpdates updates nowTs answers) := by
  have hadopt : ∀ raw, Emits Effect.Quiet (s.adoptOpenOrder nowTs raw) := by
    intro raw
    unfold adoptOpenOrder Action.query
    refine emits_handle ?_ fun _ => emits_return false
    refine emits_andThen (emits_read _) fun found => emits_andThen (emits_answer _) fun order => ?_
    split
    · exact emits_return false
    · exact emits_andThen (addOrder_emits trivial) fun _ => emits_return true
  refine emits_andThen (emits_collect _ fun update _ => ?_) fun _ => s.exitsAfter_quiet _ nowTs answers
  unfold drainReconciliationUpdate
  split
  · exact emits_return _
  · refine emits_andThen (emits_collect _ fun raw _ => hadopt raw) fun _ => ?_
    refine emits_andThen (emits_collect _ fun result _ => ?_) fun _ => emits_return _
    exact s.drainReconciledOrder_emits (fun _ _ _ => trivial) result

theorem drainUserStreamUpdates_quiet (updates : List (Bool × StreamUpdate)) (nowTs : ℤ)
    (answers : LadderAnswers) :
    Emits Effect.Quiet (s.drainUserStreamUpdates updates nowTs answers) := by
  refine emits_andThen (emits_collect _ fun update _ => ?_) fun _ =>
    emits_andThen (s.exitsAfter_quiet _ nowTs answers) fun _ => emits_return _
  exact drainStreamUpdate_emits (fun _ _ _ => trivial) update.1 update.2

theorem cancelDueOrders_quiet (nowTs : ℚ) (answers : CancelAnswers) :
    Emits Effect.Quiet (s.cancelDueOrders nowTs answers) :=
  s.cancelDueOrders_emits (fun _ _ => trivial) (fun _ _ => trivial) nowTs answers

theorem cancelTrackedOrders_quiet (answers : CancelAnswers) :
    Emits Effect.Quiet (s.cancelTrackedOrders answers) := by
  unfold cancelTrackedOrders Action.query
  exact emits_andThen (emits_read _) fun tracked =>
    s.cancelAndMark_emits (fun _ _ => trivial) (fun _ _ => trivial) tracked answers

end Service

/-- What a call does: the turn of its market, or quiet effects. -/
theorem ServiceCall.effects_cases (s : Service) (b : Bot) (c : ServiceCall) :
    (∃ market nowTs trigger orderbookReady answers,
      c = .considerMarket market nowTs trigger orderbookReady answers) ∨
    ∀ e ∈ c.effects s b, e.Quiet := by
  cases c with
  | considerMarket market nowTs trigger orderbookReady answers =>
    exact .inl ⟨market, nowTs, trigger, orderbookReady, answers, rfl⟩
  | drainReconciliationUpdates updates nowTs answers =>
    exact .inr (s.drainReconciliationUpdates_quiet updates nowTs answers b)
  | drainUserStreamUpdates updates nowTs answers =>
    exact .inr (s.drainUserStreamUpdates_quiet updates nowTs answers b)
  | cancelDueOrders nowTs answers => exact .inr (s.cancelDueOrders_quiet nowTs answers b)
  | cancelTrackedOrders answers => exact .inr (s.cancelTrackedOrders_quiet answers b)

end EventQuant
