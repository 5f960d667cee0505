import EventQuant.Service.DeadlineCancel

/-!
A whole run of the service and how it ends. A stop that comes during a knock is
held until the tick is over, so that the knock's orders are written down; any
other stop cuts the tick where it is. On the way out the workers are drained
one last time and, after a stop, everything the books say is open is cancelled.
-/
namespace EventQuant

open Program Store Runs

/-- The run's row in `runs`. -/
inductive RunStatus
  | running
  | failed
  | stopped
  deriving DecidableEq, Repr

/-- The steps of the `finally`, in order. -/
inductive Closing
  | activation
  | reconciliation
  | streams
  | cancelling
  | recording
  deriving DecidableEq, Repr

/-- In the loop; on the way out, after a stop or a failure; and past it, to its
end or cut short. -/
inductive RunPhase
  | ticking
  | closing (stopped : Bool) (stage : Closing)
  | past (stopped closed : Bool)
  deriving DecidableEq, Repr

/-- `interrupted` is the knock library's flag for a stop it held back. -/
structure ServiceRun where
  bot : Bot
  interrupted : Bool
  status : RunStatus
  phase : RunPhase

/-- What the steps of the way out find and are answered. -/
structure ClosingAnswers where
  activations : List ActivationUpdate
  reconciliations : List ReconciliationUpdate
  streamUpdates : List (Bool × StreamUpdate)
  nowTs : ℤ
  ladder : LadderAnswers
  cancels : CancelAnswers

/-- A call of a tick, one with a stop during its knock, one that a stop elsewhere
cuts after so many commits; an update queued; a failure outside the calls; the
end of a tick; the next step out, and one that is cut. -/
inductive RunEvent
  | call (c : ServiceCall)
  | stopInKnock (market : Market) (nowTs : ℤ) (trigger : Trigger) (orderbookReady : Bool)
      (answers : PlacementAnswers)
  | stop (c : ServiceCall) (done : ℕ)
  | activate (update : ActivationUpdate)
  | raise
  | endTick
  | close (answers : ClosingAnswers)
  | cut (answers : ClosingAnswers) (done : ℕ)

def ServiceCall.returns (s : Service) (b : Bot) : ServiceCall → Bool
  | considerMarket market nowTs trigger orderbookReady answers =>
    ((s.considerMarket market nowTs trigger orderbookReady answers).result b).isOk
  | drainReconciliationUpdates updates nowTs answers =>
    ((s.drainReconciliationUpdates updates nowTs answers).result b).isOk
  | drainUserStreamUpdates updates nowTs answers =>
    ((s.drainUserStreamUpdates updates nowTs answers).result b).isOk
  | cancelDueOrders nowTs answers => ((s.cancelDueOrders nowTs answers).result b).isOk
  | cancelTrackedOrders answers => ((s.cancelTrackedOrders answers).result b).isOk

namespace Closing

def call (stopped : Bool) (answers : ClosingAnswers) : Closing → Option ServiceCall
  | .reconciliation =>
    some (.drainReconciliationUpdates answers.reconciliations answers.nowTs answers.ladder)
  | .streams => some (.drainUserStreamUpdates answers.streamUpdates answers.nowTs answers.ladder)
  | .cancelling => if stopped then some (.cancelTrackedOrders answers.cancels) else none
  | .activation | .recording => none

def next : Closing → Option Closing
  | .activation => some .reconciliation
  | .reconciliation => some .streams
  | .streams => some .cancelling
  | .cancelling => some .recording
  | .recording => none

end Closing

namespace ServiceRun

variable (s : Service)

/-- `start_run` and the workers' starts. -/
def begin (b : Bot) : ServiceRun := ⟨b, false, .running, .ticking⟩

def call (c : ServiceCall) (w : ServiceRun) : ServiceRun :=
  if c.returns s w.bot then { w with bot := c.after s w.bot }
  else
    { w with
      bot := c.after s w.bot
      status := .failed
      phase := .closing false .activation }

def close (answers : ClosingAnswers) (stopped : Bool) (stage : Closing) (w : ServiceRun) : ServiceRun :=
  match stage with
  | .activation =>
    { w with
      bot := settle w.bot (answers.activations.map .enqueue)
      phase := .closing stopped .reconciliation }
  | .recording =>
    { w with
      status := if w.status = .running then .stopped else w.status
      phase := .past stopped true }
  | stage =>
    let phase := (stage.next.map fun later => RunPhase.closing stopped later).getD (.past stopped true)
    match stage.call stopped answers with
    | none => { w with phase := phase }
    | some c =>
      { w with
        bot := c.after s w.bot
        phase := if c.returns s w.bot then phase else .past stopped false }

def next (w : ServiceRun) (e : RunEvent) : ServiceRun :=
  match e, w.phase with
  | .call c, .ticking => w.call s c
  | .stopInKnock market nowTs trigger orderbookReady answers, .ticking =>
    { w.call s (.considerMarket market nowTs trigger orderbookReady answers) with interrupted := true }
  | .stop c done, .ticking =>
    { w with
      bot := settle w.bot ((c.effects s w.bot).take done)
      phase := .closing true .activation }
  | .activate update, .ticking => { w with bot := w.bot.apply (.enqueue update) }
  | .raise, .ticking =>
    { w with
      status := .failed
      phase := .closing false .activation }
  | .endTick, .ticking =>
    if w.interrupted then
      { w with
        interrupted := false
        phase := .closing true .activation }
    else w
  | .close answers, .closing stopped stage => w.close s answers stopped stage
  | .cut answers done, .closing stopped stage =>
    { w with
      bot := settle w.bot
        (((stage.call stopped answers).elim [] fun c => c.effects s w.bot).take done)
      phase := .past stopped false }
  | _, _ => w

end ServiceRun

def Effect.Marks : Effect → Prop
  | .cancel _ _ => True
  | .write (.markOrders _ _) => True
  | _ => False

/-- Marks change statuses alone: no market, and no order's market. -/
theorem marks_settle {commits : List Effect} (h : ∀ e ∈ commits, e.Marks) (b : Bot) :
    (settle b commits).database.markets = b.database.markets ∧
      ∀ orderId, ((settle b commits).database.order orderId).map OrderRow.slug =
        (b.database.order orderId).map OrderRow.slug := by
  induction commits generalizing b with
  | nil => exact ⟨rfl, fun _ => rfl⟩
  | cons e commits ih =>
    obtain ⟨hmarkets, hslugs⟩ := ih (fun e' he' => h e' (.tail _ he')) (Store.apply b e)
    have hone : (Store.apply b e).database.markets = b.database.markets ∧
        ∀ orderId, ((Store.apply b e).database.order orderId).map OrderRow.slug =
          (b.database.order orderId).map OrderRow.slug := by
      cases e with
      | cancel account orderIds => exact ⟨rfl, fun _ => rfl⟩
      | write w =>
        cases w with
        | markOrders orderIds status =>
          refine ⟨rfl, fun orderId => ?_⟩
          change ((b.database.apply (.markOrders orderIds status)).order orderId).map _ = _
          rw [Database.apply, Database.order_updateOrders, Option.map_map]
          congr 1
          funext row
          simp only [Function.comp_apply]
          split <;> rfl
        | _ => exact absurd (h _ (.head _)) id
      | _ => exact absurd (h _ (.head _)) id
    rw [settle_cons]
    exact ⟨hmarkets.trans hone.1, fun orderId => (hslugs orderId).trans (hone.2 orderId)⟩

namespace Service

variable (s : Service)

/-- What the books still say is open was cancelled: its row says so, and the one
account of a run without a fleet was asked to. Of a dry run nothing is left. -/
def Swept (b : Bot) : Prop :=
  ∀ p ∈ b.database.trackedOpenOrders, s.live = true ∧ p.1.status = "cancel_requested" ∧
    (s.fleet = none → b.Requested p.1.orderId)

/-- Without a fleet the one account is asked about every row. -/
theorem asked_solo {rows : List (OrderRow × MarketRow)} (hrows : rows ≠ []) (hsolo : s.fleet = none)
    (answers : CancelAnswers) :
    .cancel s.solo.account (rows.map fun row => row.1.orderId) ∈ s.asked answers rows := by
  have howners : s.owners rows = _ := s.owners_eq answers
  rw [s.owners_solo hsolo hrows] at howners
  have hrequest : .cancel s.solo.account (rows.map fun row => row.1.orderId) ∈
      s.requests rows [s.solo.account] := by
    rw [requests, List.map_singleton, s.ownedIds_solo hsolo]
    exact List.mem_singleton.mpr rfl
  unfold asked
  cases hfailure : s.fromFailure answers rows with
  | nil =>
    rw [hfailure, List.append_nil] at howners
    rw [← howners]
    exact List.mem_append_left _ hrequest
  | cons account later =>
    rw [hfailure] at howners
    cases hbefore : s.beforeFailure answers rows with
    | nil =>
      rw [hbefore] at howners
      obtain rfl := (List.cons.inj howners).1
      refine List.mem_append_right _ ?_
      simpa only [known, hsolo, if_true] using hrequest
    | cons first before =>
      rw [hbefore] at howners
      have hlength := congrArg List.length howners
      simp at hlength

/-- A cancelled order that the books still say is open is one of the rows, with
its cancel requested. -/
theorem recordedStatus_tracked {answers : CancelAnswers} {rows : List (OrderRow × MarketRow)}
    {orderId old : String}
    (hold : old ∈ trackedStates → orderId ∈ rows.map fun row => row.1.orderId)
    (h : s.recordedStatus answers rows orderId old ∈ trackedStates) :
    (orderId ∈ rows.map fun row => row.1.orderId) ∧
      s.recordedStatus answers rows orderId old = "cancel_requested" := by
  have hid : orderId ∈ rows.map fun row => row.1.orderId := by
    by_contra hmem
    refine hmem (hold ?_)
    unfold recordedStatus at h
    split_ifs at h
    · exact absurd h (by decide)
    · exact absurd h (by decide)
    · exact h
    · exact h
  refine ⟨hid, ?_⟩
  unfold recordedStatus at h ⊢
  simp only [if_pos hid] at h ⊢
  split_ifs at h ⊢
  · exact absurd h (by decide)
  · exact absurd h (by decide)
  · rfl
  · rfl

/-- The sweep leaves nothing it found as it was. -/
theorem cancelTrackedOrders_swept (answers : CancelAnswers) (b : Bot) :
    s.Swept ((s.cancelTrackedOrders answers).after b) := by
  have hcommits : (s.cancelTrackedOrders answers).commits b =
      (s.cancelAndMark b.database.trackedOpenOrders answers).commits b := rfl
  intro p hp
  rw [after, hcommits, ← after] at hp ⊢
  obtain ⟨horder, htracked, hmarket⟩ := Database.mem_trackedOpenOrders.mp hp
  have hmarks : Emits Effect.Marks (s.cancelAndMark b.database.trackedOpenOrders answers) :=
    s.cancelAndMark_emits (fun _ _ => trivial) (fun _ _ => trivial) _ answers
  obtain ⟨hmarkets, hslugs⟩ := marks_settle (hmarks b) b
  have hslug := (hslugs p.1.orderId).symm.trans (congrArg (Option.map OrderRow.slug) horder)
  obtain ⟨row, hrow, hsame⟩ := Option.map_eq_some_iff.mp hslug
  have hfound : row.status ∈ trackedStates → p.1.orderId ∈
      b.database.trackedOpenOrders.map fun row => row.1.orderId := by
    intro hstatus
    have hid := Table.get?_key hrow
    refine List.mem_map.mpr ⟨(row, p.2), Database.mem_trackedOpenOrders.mpr ⟨?_, hstatus, ?_⟩, hid⟩
    · change b.database.order row.orderId = some row
      rw [hid]
      exact hrow
    · change b.database.markets.get? row.slug = some p.2
      rw [hsame, ← hmarkets]
      exact hmarket
  have hstatus : ∀ f : String → String,
      (((s.cancelAndMark b.database.trackedOpenOrders answers).after b).database.order
        p.1.orderId).map OrderRow.status = ((b.database.order p.1.orderId).map OrderRow.status).map f →
      p.1.status = f row.status := by
    intro f hf
    rw [horder, hrow] at hf
    exact Option.some.inj hf
  by_cases hrows : b.database.trackedOpenOrders = []
  · have hnone : (s.cancelAndMark b.database.trackedOpenOrders answers).after b = b := by
      rw [hrows]
      rfl
    rw [hnone, hrows] at hp
    exact absurd hp List.not_mem_nil
  · cases hlive : s.live with
    | false =>
      have hids : (b.database.trackedOpenOrders.map fun row => row.1.orderId) ≠ [] := by simpa using hrows
      have hx : s.exchange = none := by simp [exchange, hlive]
      have hmarked := hstatus _ (by
        unfold cancelAndMark
        simp only [if_neg hids, hx]
        exact order_after_markOrders _ "simulated_closed" p.1.orderId b)
      rw [hmarked] at htracked
      split_ifs at htracked with hmem
      · exact absurd htracked (by decide)
      · exact absurd (hfound htracked) hmem
    | true =>
      have hx : s.exchange = some ((s.fleet.map fun f => f.primary.exchange).getD s.solo) := by
        simp [exchange, hlive]
      obtain ⟨hasked, hrecorded⟩ := s.cancelAndMark_run answers hx hrows b
      have hmarked := hstatus _ (hrecorded p.1.orderId)
      rw [hmarked] at htracked
      obtain ⟨hid, hrequested⟩ := s.recordedStatus_tracked hfound htracked
      refine ⟨rfl, hmarked.trans hrequested, fun hsolo => ?_⟩
      refine (requested_settle b _ p.1.orderId).mpr (.inr ⟨s.solo.account, _, ?_, hid⟩)
      exact (hasked _ _).mpr (s.asked_solo hrows hsolo answers)

end Service

namespace ServiceRun

variable (s : Service)

/-- The run's row says how it ended, and a stopped run that came to the end of
its way out left nothing open behind. -/
def Kept (w : ServiceRun) : Prop :=
  match w.phase with
  | .ticking => w.status = .running
  | .closing stopped stage => w.status = (if stopped then .running else .failed) ∧
      (stopped = true → stage = .recording → s.Swept w.bot)
  | .past stopped closed =>
      w.status = (if stopped then if closed then .stopped else .running else .failed) ∧
        (stopped = true → closed = true → s.Swept w.bot)

variable {s}

theorem Kept.call {w : ServiceRun} (h : w.status = .running) (hphase : w.phase = .ticking)
    (c : ServiceCall) : Kept s (w.call s c) := by
  unfold ServiceRun.call
  split_ifs
  · unfold Kept
    rw [hphase]
    exact h
  · exact ⟨rfl, fun hstopped => nomatch hstopped⟩

theorem Kept.close {w : ServiceRun} {stopped : Bool} {stage : Closing}
    (hstatus : w.status = (if stopped then .running else .failed))
    (hswept : stopped = true → stage = .recording → s.Swept w.bot) (answers : ClosingAnswers) :
    Kept s (w.close s answers stopped stage) := by
  cases stage with
  | activation => exact ⟨hstatus, fun _ hstage => nomatch hstage⟩
  | recording =>
    refine ⟨?_, fun hstopped _ => hswept hstopped rfl⟩
    unfold ServiceRun.close
    cases stopped <;> simp [hstatus]
  | reconciliation =>
    unfold ServiceRun.close
    simp only [Closing.call, Closing.next, Option.map_some, Option.getD_some]
    split_ifs
    · exact ⟨hstatus, fun _ hstage => nomatch hstage⟩
    · exact ⟨hstatus, fun _ hclosed => nomatch hclosed⟩
  | streams =>
    unfold ServiceRun.close
    simp only [Closing.call, Closing.next, Option.map_some, Option.getD_some]
    split_ifs
    · exact ⟨hstatus, fun _ hstage => nomatch hstage⟩
    · exact ⟨hstatus, fun _ hclosed => nomatch hclosed⟩
  | cancelling =>
    unfold ServiceRun.close
    cases stopped with
    | false => exact ⟨hstatus, fun hstopped => nomatch hstopped⟩
    | true =>
      simp only [Closing.call, Closing.next, Option.map_some, Option.getD_some, if_true]
      split_ifs
      · exact ⟨hstatus, fun _ _ => s.cancelTrackedOrders_swept answers.cancels w.bot⟩
      · exact ⟨hstatus, fun _ hclosed => nomatch hclosed⟩

theorem Kept.next {w : ServiceRun} (h : Kept s w) (e : RunEvent) : Kept s (w.next s e) := by
  have hkept := h
  unfold Kept at h
  cases hphase : w.phase with
  | ticking =>
    rw [hphase] at h
    cases e with
    | call c =>
      simp only [ServiceRun.next, hphase]
      exact Kept.call h hphase c
    | stopInKnock market nowTs trigger orderbookReady answers =>
      simp only [ServiceRun.next, hphase]
      exact Kept.call h hphase (.considerMarket market nowTs trigger orderbookReady answers)
    | stop c done =>
      simp only [ServiceRun.next, hphase]
      exact ⟨h, fun _ hstage => nomatch hstage⟩
    | activate update =>
      simp only [ServiceRun.next, hphase]
      unfold Kept
      simp only
      exact h
    | raise =>
      simp only [ServiceRun.next, hphase]
      exact ⟨rfl, fun hstopped => nomatch hstopped⟩
    | endTick =>
      simp only [ServiceRun.next, hphase]
      split_ifs
      · exact ⟨h, fun _ hstage => nomatch hstage⟩
      · exact hkept
    | close | cut =>
      simp only [ServiceRun.next, hphase]
      exact hkept
  | closing stopped stage =>
    rw [hphase] at h
    cases e with
    | close answers =>
      simp only [ServiceRun.next, hphase]
      exact Kept.close h.1 h.2 answers
    | cut answers done =>
      simp only [ServiceRun.next, hphase]
      exact ⟨h.1, fun _ hclosed => nomatch hclosed⟩
    | call | stopInKnock | stop | activate | raise | endTick =>
      simp only [ServiceRun.next, hphase]
      exact hkept
  | past stopped closed =>
    cases e <;>
    · simp only [ServiceRun.next, hphase]
      exact hkept

/-- In every run of the service, stopped during a knock, stopped anywhere else or
failed: its row says running until it is on the way out, and failed from a
failure on; and where a stopped run comes to the end of its way out, its row
says stopped and whatever order the books still say is open was cancelled. -/
theorem stopped_run_cancels {b : Bot} {w : ServiceRun}
    (hrun : Run (fun w v => ∃ e, ServiceRun.next s w e = v) (begin b) w) :
    (w.phase = .ticking → w.status = .running) ∧
      (∀ stage, w.phase = .closing false stage → w.status = .failed) ∧
      (∀ closed, w.phase = .past false closed → w.status = .failed) ∧
      (w.phase = .past true true → w.status = .stopped ∧ s.Swept w.bot) := by
  have hkept : Kept s w := by
    refine run_preserves (Kept s) ?_ hrun rfl
    rintro u v ⟨e, rfl⟩ hu
    exact hu.next e
  unfold Kept at hkept
  refine ⟨fun hphase => ?_, fun stage hphase => ?_, fun closed hphase => ?_, fun hphase => ?_⟩
  · rw [hphase] at hkept
    exact hkept
  · rw [hphase] at hkept
    exact hkept.1
  · rw [hphase] at hkept
    exact hkept.1
  · rw [hphase] at hkept
    exact ⟨hkept.1, hkept.2 rfl rfl⟩

def unanswered : ClosingAnswers :=
  ⟨[], [], [], 0, ⟨fun _ => .ok 0, fun _ _ => ⟨.ok .null, .ok [], 0, 0⟩⟩,
    fun _ => .error (.other "PolyApiException" "timeout")⟩

theorem stopped_run_cancels_example :
    ∃ w, w = (.stop (.cancelDueOrders 0 unanswered.cancels) 0 :: List.replicate 5 (.close unanswered)).foldl
        (ServiceRun.next pairService) (begin (openBooks [("primary", "0xa1")])) ∧
      w.phase = .past true true ∧
      (w.bot.database.trackedOpenOrders.map fun p => p.1.status) = ["cancel_requested"] ∧
      w.status = .stopped ∧ pairService.Swept w.bot := by
  have hrun : Run (fun w v => ∃ e, ServiceRun.next pairService w e = v)
      (begin (openBooks [("primary", "0xa1")]))
      ((.stop (.cancelDueOrders 0 unanswered.cancels) 0 :: List.replicate 5 (.close unanswered)).foldl
        (ServiceRun.next pairService) (begin (openBooks [("primary", "0xa1")]))) := run_of_events _ _
  refine ⟨_, rfl, by decide +kernel, by decide +kernel, ?_⟩
  exact (stopped_run_cancels hrun).2.2.2 (by decide +kernel)

end ServiceRun

end EventQuant
