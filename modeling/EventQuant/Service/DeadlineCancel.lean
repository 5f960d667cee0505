import EventQuant.Service.CancelIsolation
import EventQuant.Service.HealthGate
import EventQuant.Service.TurnOrders

/-!
The cancel before a market's end. Only a tick's sweep asks for it, and only of
the orders that are in the books as it reads the clock; a placement holds the
loop, and the sweep with it, for as long as its knock goes on. Each sweep is
recorded with what it read, found and was answered, and each placement with the
orders its fleet gave up.
-/
namespace EventQuant

open Program Store Runs

def Bot.Requested (b : Bot) (orderId : String) : Prop := ∃ request ∈ b.cancels, orderId ∈ request.2

instance (b : Bot) (orderId : String) : Decidable (b.Requested orderId) :=
  inferInstanceAs (Decidable (∃ request ∈ b.cancels, orderId ∈ request.2))

theorem mem_cancels_settle (b : Bot) (commits : List Effect) (request : String × List String) :
    request ∈ (settle b commits).cancels ↔
      request ∈ b.cancels ∨ .cancel request.1 request.2 ∈ commits := by
  induction commits generalizing b with
  | nil => simp
  | cons e commits ih =>
    rw [settle_cons, ih, List.mem_cons]
    cases e with
    | cancel account orderIds =>
      have happly : request ∈ (b.apply (.cancel account orderIds)).cancels ↔
          request ∈ b.cancels ∨ request = (account, orderIds) := by
        simp [Bot.apply]
      have heq : Effect.cancel request.1 request.2 = .cancel account orderIds ↔
          request = (account, orderIds) := by
        rw [Effect.cancel.injEq, Prod.ext_iff]
      show request ∈ (b.apply (.cancel account orderIds)).cancels ∨ _ ↔ _
      rw [happly, heq, or_assoc]
    | _ => simp [Store.apply, Bot.apply]

theorem requested_settle (b : Bot) (commits : List Effect) (orderId : String) :
    (settle b commits).Requested orderId ↔ b.Requested orderId ∨
      ∃ account orderIds, .cancel account orderIds ∈ commits ∧ orderId ∈ orderIds := by
  constructor
  · rintro ⟨request, hrequest, hmem⟩
    rcases (mem_cancels_settle b commits request).mp hrequest with hold | hnew
    · exact .inl ⟨request, hold, hmem⟩
    · exact .inr ⟨request.1, request.2, hnew, hmem⟩
  · rintro (⟨request, hold, hmem⟩ | ⟨account, orderIds, hnew, hmem⟩)
    · exact ⟨request, (mem_cancels_settle b commits request).mpr (.inl hold), hmem⟩
    · exact ⟨(account, orderIds), (mem_cancels_settle b commits _).mpr (.inr hnew), hmem⟩

/-- A sweep: the clock it read, the books it found and what it was answered. -/
structure DeadlineSweep where
  reading : ℚ
  books : Database
  answers : CancelAnswers

namespace DeadlineSweep

variable (s : Service) (sweep : DeadlineSweep)

def due : List (OrderRow × MarketRow) :=
  sweep.books.dueOpenOrders (sweep.reading + s.cancelBeforeEndSeconds)

def Reaches (account : String) : Prop :=
  account ∈ s.beforeFailure sweep.answers (sweep.due s) ∨
    (s.fromFailure sweep.answers (sweep.due s)).head? = some account ∧ s.known account = true

instance (account : String) : Decidable (sweep.Reaches s account) :=
  inferInstanceAs (Decidable (_ ∨ _))

/-- It found the order open, no earlier than the margin before its market's end,
and came to the order's account. -/
def InTime (orderId : String) : Prop :=
  ∃ row ∈ sweep.books.withMarkets sweep.books.orders.rows, row.1.orderId = orderId ∧
    row.1.status ∈ dueStates ∧ row.2.endTs - s.cancelBeforeEndSeconds ≤ sweep.reading ∧
      sweep.Reaches s (s.owner row.1)

instance (orderId : String) : Decidable (sweep.InTime s orderId) :=
  inferInstanceAs (Decidable (∃ row ∈ _, _))

theorem mem_due (row : OrderRow × MarketRow) : row ∈ sweep.due s ↔
    row ∈ sweep.books.withMarkets sweep.books.orders.rows ∧ row.1.status ∈ dueStates ∧
      row.2.endTs - s.cancelBeforeEndSeconds ≤ sweep.reading := by
  unfold due
  rw [Database.mem_dueOpenOrders, Database.mem_withMarkets, Database.order_iff, sub_le_iff_le_add]
  tauto

theorem mem_asked {account : String} {orderIds : List String} :
    .cancel account orderIds ∈ s.asked sweep.answers (sweep.due s) ↔
      orderIds = s.ownedIds (sweep.due s) account ∧ sweep.Reaches s account := by
  have hrequests : ∀ accounts, .cancel account orderIds ∈ s.requests (sweep.due s) accounts ↔
      orderIds = s.ownedIds (sweep.due s) account ∧ account ∈ accounts := by
    intro accounts
    simp only [Service.requests, List.mem_map, Effect.cancel.injEq]
    constructor
    · rintro ⟨other, hother, rfl, rfl⟩
      exact ⟨rfl, hother⟩
    · rintro ⟨rfl, haccount⟩
      exact ⟨account, haccount, rfl, rfl⟩
  unfold Service.asked Reaches
  rw [List.mem_append, hrequests, and_or_left]
  refine or_congr Iff.rfl ?_
  cases s.fromFailure sweep.answers (sweep.due s) with
  | nil => simp
  | cons first later =>
    change (_ ∈ if s.known first = true then _ else []) ↔ _
    by_cases hknown : s.known first = true
    · rw [if_pos hknown, hrequests, List.mem_singleton, List.head?_cons, Option.some.injEq]
      refine and_congr_right fun _ => ⟨?_, fun h => h.1.symm⟩
      rintro rfl
      exact ⟨rfl, hknown⟩
    · rw [if_neg hknown]
      refine iff_of_false List.not_mem_nil ?_
      rintro ⟨_, hfirst, haccount⟩
      obtain rfl := Option.some.inj hfirst
      exact hknown haccount

/-- What the sweep asks for is what it found due, of the accounts it came to. -/
theorem inTime_iff (orderId : String) : sweep.InTime s orderId ↔ ∃ account orderIds,
    .cancel account orderIds ∈ s.asked sweep.answers (sweep.due s) ∧ orderId ∈ orderIds := by
  constructor
  · rintro ⟨row, hrow, rfl, hopen, hreading, hreached⟩
    refine ⟨s.owner row.1, s.ownedIds (sweep.due s) (s.owner row.1), ?_, ?_⟩
    · exact (sweep.mem_asked s).mpr ⟨rfl, hreached⟩
    · have hdue := (sweep.mem_due s row).mpr ⟨hrow, hopen, hreading⟩
      exact List.mem_map.mpr ⟨row, List.mem_filter.mpr ⟨hdue, by simp⟩, rfl⟩
  · rintro ⟨account, orderIds, hasked, hmem⟩
    obtain ⟨rfl, hreached⟩ := (sweep.mem_asked s).mp hasked
    obtain ⟨row, hrow, rfl⟩ := List.mem_map.mp hmem
    obtain ⟨hdue, howner⟩ := List.mem_filter.mp hrow
    obtain ⟨hrow, hopen, hreading⟩ := (sweep.mem_due s row).mp hdue
    have haccount : s.owner row.1 = account := by simpa using howner
    exact ⟨row, hrow, rfl, hopen, hreading, haccount ▸ hreached⟩

/-- A sweep adds the requests it has the time for, and no others. -/
theorem requested_after (hlive : s.live = true) (hmargin : 0 < s.cancelBeforeEndSeconds) (b : Bot)
    (reading : ℚ) (answers : CancelAnswers) (orderId : String) :
    ((s.cancelDueOrders reading answers).after b).Requested orderId ↔
      b.Requested orderId ∨ InTime s ⟨reading, b.database, answers⟩ orderId := by
  obtain ⟨x, hx⟩ : ∃ x, s.exchange = some x := by
    unfold Service.exchange
    rw [if_pos hlive]
    exact ⟨_, rfl⟩
  set sweep : DeadlineSweep := ⟨reading, b.database, answers⟩ with hsweep
  have hcommits : (s.cancelDueOrders reading answers).commits b =
      (s.cancelAndMark (sweep.due s) answers).commits b := by
    unfold Service.cancelDueOrders Action.query
    rw [if_neg (by omega)]
    exact commits_andThen_ok (result_read b _)
  rw [after, requested_settle, hcommits, sweep.inTime_iff s]
  refine or_congr Iff.rfl ?_
  by_cases hrows : sweep.due s = []
  · have hmarked : (s.cancelAndMark [] answers).commits b = [] := rfl
    have hasked : s.asked answers [] = [] := rfl
    rw [hrows, hmarked, hasked]
  · have hrun := (s.cancelAndMark_run answers hx hrows b).1
    exact exists_congr fun account => exists_congr fun orderIds =>
      and_congr_left fun _ => hrun account orderIds

end DeadlineSweep

/-- What a step of the loop can commit. -/
inductive Loop.Commits (s : Service) (b : Bot) : List Effect → Prop
  | nothing : Commits s b []
  | activate (update : ActivationUpdate) : Commits s b [.enqueue update]
  | drain (c : ServiceCall) (hdrain : c.isDrain = true) : Commits s b (c.effects s b)
  | sweep (reading : ℚ) (answers : CancelAnswers) :
      Commits s b ((s.cancelDueOrders reading answers).commits b)
  | check : Commits s b [.takeActivations]
  | turn (market : Market) (nowTs : ℤ) (trigger : Trigger) (orderbookReady : Bool)
      (answers : PlacementAnswers) :
      Commits s b ((s.considerMarket market nowTs trigger orderbookReady answers).commits b)
  | place (market : Market) (trigger : Trigger) (answers : PlacementAnswers) :
      Commits s b ((s.place market trigger answers).commits b)

/-- The bot after a step is what the step's commits make of it. -/
theorem Loop.next_commits (s : Service) (gammaNeeded : Bool) (l : Loop) (e : LoopEvent) :
    ∃ commits, Commits s l.bot commits ∧ (l.next s gammaNeeded e).bot = settle l.bot commits := by
  obtain ⟨b, clock, geoblock, stream, phase, starts⟩ := l
  have hnone : ∃ commits, Commits s b commits ∧ b = settle b commits := ⟨[], .nothing, rfl⟩
  cases e with
  | elapse | geoblockRunOnce | streamSetHealth | streamStopped => exact hnone
  | activate update =>
    cases phase with
    | draining => exact ⟨[.enqueue update], .activate update, rfl⟩
    | _ => exact hnone
  | drain c =>
    cases phase with
    | draining =>
      by_cases hdrain : c.isDrain = true
      · refine ⟨c.effects s b, .drain c hdrain, ?_⟩
        simp only [Loop.next, if_pos hdrain]
        rfl
      · simp only [Loop.next, if_neg hdrain]
        exact hnone
    | _ => exact hnone
  | drainGeoblock =>
    cases phase with
    | _ => exact hnone
  | sweep answers =>
    cases phase with
    | draining => exact ⟨_, .sweep clock answers, rfl⟩
    | _ => exact hnone
  | check =>
    cases phase with
    | swept =>
      by_cases hhealthy : s.healthyWith geoblock.healthy stream.healthy = true
      · refine ⟨[.takeActivations], .check, ?_⟩
        simp only [Loop.next, if_pos hhealthy]
        rfl
      · simp only [Loop.next, if_neg hhealthy]
        exact hnone
    | _ => exact hnone
  | take answers =>
    cases phase with
    | passing pass =>
      obtain ⟨turns, nowTs, discovery⟩ := pass
      cases turns with
      | nil => exact hnone
      | cons turn turns =>
        obtain ⟨market, trigger⟩ := turn
        simp only [Loop.next, Loop.takeTurn]
        split
        · exact hnone
        · exact ⟨_, .turn market nowTs trigger trigger.isActivation answers, rfl⟩
    | _ => exact hnone
  | start held =>
    cases phase with
    | starting market trigger answers rest => exact ⟨_, .place market trigger answers, rfl⟩
    | _ => exact hnone
  | discover markets =>
    cases phase with
    | passing pass =>
      obtain ⟨turns, nowTs, discovery⟩ := pass
      cases turns with
      | nil => cases discovery <;> exact hnone
      | cons turn turns => exact hnone
    | _ => exact hnone
  | endTick =>
    cases phase with
    | passing pass =>
      obtain ⟨turns, nowTs, discovery⟩ := pass
      cases turns with
      | _ => exact hnone
    | _ => exact hnone

def Loop.overdue (l : Loop) : List (OrderRow × MarketRow) :=
  match l.phase with
  | .stopped => []
  | _ => l.bot.database.trackedOpenOrders.filter fun row => (row.2.endTs : ℚ) < l.clock

namespace Service

variable (s : Service)

def laggards (market : Market) (b : Bot) (trigger : Trigger) (answers : PlacementAnswers) :
    List String :=
  match s.fleet with
  | some f =>
    if s.late market b trigger answers then []
    else f.givenUp b market s.plan.buyPrice answers.fleet
  | none => []

/-- The placement asks for the cancel of each of them. -/
theorem place_laggards (hlive : s.live = true) {market : Market} {b : Bot} {trigger : Trigger}
    {answers : PlacementAnswers} {orderId : String}
    (h : orderId ∈ s.laggards market b trigger answers) :
    ((s.place market trigger answers).after b).Requested orderId := by
  obtain ⟨x, hx⟩ : ∃ x, s.exchange = some x := by
    unfold exchange
    rw [if_pos hlive]
    exact ⟨_, rfl⟩
  unfold laggards at h
  split at h
  swap
  · exact absurd h List.not_mem_nil
  rename_i f hfleet
  split at h
  · exact absurd h List.not_mem_nil
  rename_i hlate
  set prepared := (s.prepareFirst market (b.retries.lookup market.slug)).after b with hprepared
  have hsigned : prepared.submissions = b.submissions := by
    rw [hprepared]
    unfold prepareFirst
    split <;> rfl
  have hgiven : orderId ∈ f.givenUp prepared market s.plan.buyPrice answers.fleet := by
    unfold Fleet.givenUp Fleet.handedBack Fleet.knocked Fleet.prepared at h ⊢
    rwa [hsigned]
  obtain ⟨account, orderIds, hsent, hmem⟩ := f.givenUp_sent hgiven
  have hfirst : (s.prepareFirst market (b.retries.lookup market.slug)).result b = .ok () := by
    unfold prepareFirst
    split <;> rfl
  have hplace : (s.place market trigger answers).commits b =
      (s.prepareFirst market (b.retries.lookup market.slug)).commits b ++
        (s.placeWithFleet f market trigger (b.retries.lookup market.slug)
          (((((b.retries.lookup market.slug).map Retry.firstStartedTsMs).getD
            answers.readTsMs : ℤ) : ℚ) / 1000 + knockSeconds) answers).commits prepared := by
    unfold late at hlate
    simp only [Bool.and_or_distrib_left, Bool.or_eq_true, not_or] at hlate
    unfold place
    simp only [bind_eq]
    rw [commits_andThen_ok (result_read b _), commits_read, List.nil_append, after_read,
      if_neg hlate.1, if_neg hlate.2, commits_andThen_ok hfirst, hx, hfleet]
  refine (requested_settle b _ orderId).mpr (.inr ⟨account, orderIds, ?_, hmem⟩)
  rw [hplace]
  refine List.mem_append_right _ ?_
  exact commits_sub_andThen _ (commits_sub_handle _ (commits_sub_andThen _ hsent))

end Service

/-- The loop with the sweeps it made and the orders its placements gave up. -/
structure Watched where
  loop : Loop
  sweeps : List DeadlineSweep
  laggards : List String

namespace Watched

variable (s : Service) (gammaNeeded : Bool)

def init (b : Bot) (clock : ℚ) : Watched := ⟨Loop.init b clock, [], []⟩

def next (w : Watched) (e : LoopEvent) : Watched :=
  let loop := w.loop.next s gammaNeeded e
  match e, w.loop.phase with
  | .sweep answers, .draining =>
    { w with
      loop := loop
      sweeps := w.sweeps ++ [⟨w.loop.clock, w.loop.bot.database, answers⟩] }
  | .start _, .starting market trigger answers _ =>
    { w with
      loop := loop
      laggards := w.laggards ++ s.laggards market w.loop.bot trigger answers }
  | _, _ => { w with loop := loop }

/-- The order was asked for before the run began, was given up by its fleet, or
a sweep found it in time. -/
def InHand (b : Bot) (w : Watched) (orderId : String) : Prop :=
  b.Requested orderId ∨ orderId ∈ w.laggards ∨ ∃ sweep ∈ w.sweeps, sweep.InTime s orderId

instance (b : Bot) (w : Watched) (orderId : String) : Decidable (w.InHand s b orderId) :=
  inferInstanceAs (Decidable (_ ∨ _ ∨ _))

/-- No order is open past its market's end after a step unless it was in hand
before: found by a sweep made before the step, or given up. -/
def Timely (b : Bot) (w : Watched) (e : LoopEvent) : Prop :=
  ∀ row ∈ (w.next s gammaNeeded e).loop.overdue,
    InHand s b { w with laggards := (w.next s gammaNeeded e).laggards } row.1.orderId

instance (b : Bot) (w : Watched) (e : LoopEvent) : Decidable (w.Timely s gammaNeeded b e) :=
  inferInstanceAs (Decidable (∀ row ∈ _, _))

variable {s gammaNeeded}

@[simp] theorem next_loop (w : Watched) (e : LoopEvent) :
    (w.next s gammaNeeded e).loop = w.loop.next s gammaNeeded e := by
  unfold next
  split <;> rfl

/-- A step leaves in hand what a sweep or a placement of its own has just taken
in hand, and what was before. -/
theorem next_inHand {b : Bot} {w : Watched} {e : LoopEvent} {orderId : String}
    (h : (w.next s gammaNeeded e).InHand s b orderId) : w.InHand s b orderId ∨
      (∃ answers, e = .sweep answers ∧ w.loop.phase = .draining ∧
        DeadlineSweep.InTime s ⟨w.loop.clock, w.loop.bot.database, answers⟩ orderId) ∨
      ∃ held market trigger answers rest, e = .start held ∧
        w.loop.phase = .starting market trigger answers rest ∧
        orderId ∈ s.laggards market w.loop.bot trigger answers := by
  unfold next at h
  split at h
  · rename_i answers hphase
    rcases h with hasked | hgiven | ⟨sweep, hsweep, hintime⟩
    · exact .inl (.inl hasked)
    · exact .inl (.inr (.inl hgiven))
    · rcases List.mem_append.mp hsweep with hsweep | hsweep
      · exact .inl (.inr (.inr ⟨sweep, hsweep, hintime⟩))
      · obtain rfl := List.mem_singleton.mp hsweep
        exact .inr (.inl ⟨answers, rfl, hphase, hintime⟩)
  · rename_i held market trigger answers rest hphase
    rcases h with hasked | hgiven | hswept
    · exact .inl (.inl hasked)
    · rcases List.mem_append.mp hgiven with hgiven | hgiven
      · exact .inl (.inr (.inl hgiven))
      · exact .inr (.inr ⟨held, market, trigger, answers, rest, rfl, hphase, hgiven⟩)
    · exact .inl (.inr (.inr hswept))
  · exact .inl h

/-- What is in hand has been asked to be cancelled, and stays so. -/
theorem next_requested (hlive : s.live = true) (hmargin : 0 < s.cancelBeforeEndSeconds) {b : Bot}
    {w : Watched} (h : ∀ orderId, w.InHand s b orderId → w.loop.bot.Requested orderId) {e : LoopEvent}
    {orderId : String} (hhand : (w.next s gammaNeeded e).InHand s b orderId) :
    (w.next s gammaNeeded e).loop.bot.Requested orderId := by
  rw [next_loop]
  rcases next_inHand hhand with hbefore | ⟨answers, rfl, hphase, hintime⟩ |
    ⟨held, market, trigger, answers, rest, rfl, hphase, hgiven⟩
  · obtain ⟨commits, -, hcommits⟩ := w.loop.next_commits s gammaNeeded e
    rw [hcommits]
    exact (requested_settle _ commits orderId).mpr (.inl (h orderId hbefore))
  · have hbot : (w.loop.next s gammaNeeded (.sweep answers)).bot =
        (s.cancelDueOrders w.loop.clock answers).after w.loop.bot := by
      simp only [Loop.next, hphase]
    rw [hbot]
    exact (DeadlineSweep.requested_after s hlive hmargin _ _ answers orderId).mpr (.inr hintime)
  · have hbot : (w.loop.next s gammaNeeded (.start held)).bot =
        (s.place market trigger answers).after w.loop.bot := by
      simp only [Loop.next, hphase]
    rw [hbot]
    exact s.place_laggards hlive hgiven

/-- In every run in which each order still open past its market's end had been
in hand before the clock passed it, each has had its cancel asked for: a sweep
found the order open, no earlier than the margin before the end, and came to its
account. -/
theorem deadline_kept (s : Service) (gammaNeeded : Bool) (hlive : s.live = true)
    (hmargin : 0 < s.cancelBeforeEndSeconds) (b : Bot) (clock : ℚ) (w : Watched)
    (hstart : ∀ row ∈ (Loop.init b clock).overdue, b.Requested row.1.orderId)
    (hrun : Run (Guarded (Timely s gammaNeeded b) (next s gammaNeeded)) (init b clock) w) :
    ∀ row ∈ w.loop.overdue, w.loop.bot.Requested row.1.orderId := by
  have hkept : (∀ orderId, w.InHand s b orderId → w.loop.bot.Requested orderId) ∧
      ∀ row ∈ w.loop.overdue, w.loop.bot.Requested row.1.orderId := by
    refine run_preserves (fun w : Watched =>
      (∀ orderId, w.InHand s b orderId → w.loop.bot.Requested orderId) ∧
        ∀ row ∈ w.loop.overdue, w.loop.bot.Requested row.1.orderId) ?_ hrun ⟨fun orderId h => ?_, hstart⟩
    · rintro w _ ⟨e, htimely, rfl⟩ ⟨hhand, -⟩
      have hnext : ∀ orderId, (w.next s gammaNeeded e).InHand s b orderId →
          (w.next s gammaNeeded e).loop.bot.Requested orderId :=
        fun orderId => next_requested hlive hmargin hhand
      refine ⟨hnext, fun row hrow => hnext _ ?_⟩
      -- the sweeps made before the step are among those made after it
      have hsweeps : w.sweeps ⊆ (w.next s gammaNeeded e).sweeps := by
        unfold next
        split
        · exact List.subset_append_left _ _
        · exact List.Subset.refl _
        · exact List.Subset.refl _
      rcases htimely row hrow with hasked | hgiven | ⟨sweep, hsweep, hintime⟩
      · exact .inl hasked
      · exact .inr (.inl hgiven)
      · exact .inr (.inr ⟨sweep, hsweeps hsweep, hintime⟩)
    · rcases h with hasked | hgiven | ⟨sweep, hsweep, -⟩
      · exact hasked
      · exact absurd hgiven List.not_mem_nil
      · exact absurd hsweep List.not_mem_nil
  exact hkept.2

def twoSecondService : Service := { pairService with cancelBeforeEndSeconds := 2 }

/-- A market with an order open, another one activated, the loop at a sweep and
the placement of the other: how long after the start the sweep comes, and how
long the placement holds the loop. -/
def heldBy (reading held : ℚ≥0) : List LoopEvent :=
  [.geoblockRunOnce (.ok (.object [("blocked", .bool false)])), .streamSetHealth true,
    .activate ⟨{ pairMarket with slug := "btc-updown-5m-300", startTs := 300, endTs := 600 }, 0, 0⟩,
    .elapse reading, .sweep fun _ => .ok .null, .check, .take (turnAnswers nothingKnocked),
    .start held]

/-- The sweep comes within the two seconds. -/
theorem deadline_kept_swept :
    let w := (heldBy 299 240).foldl (next twoSecondService false)
      (init (openBooks [("primary", "0xa1")]) 0)
    w.loop.clock = 539 ∧ w.loop.overdue.length = 1 ∧
      ∀ row ∈ w.loop.overdue, w.loop.bot.Requested row.1.orderId := by
  intro w
  refine ⟨by decide +kernel, by decide +kernel, deadline_kept twoSecondService false rfl (by decide)
    (openBooks [("primary", "0xa1")]) 0 w (by decide +kernel) (run_of_meets ?_)⟩
  decide +kernel

/-- The sweep comes ten seconds before the end, the next one never before it: the
placement of the other market holds the loop for its 240 s. -/
theorem deadline_missed :
    let w := (heldBy 290 240).foldl (next twoSecondService false)
      (init (openBooks [("primary", "0xa1")]) 0)
    w.loop.clock = 530 ∧ ∃ row ∈ w.loop.overdue,
      row.1.orderId = "0xa1" ∧ row.2.endTs = 300 ∧ ¬ w.loop.bot.Requested row.1.orderId := by
  decide +kernel

end Watched

end EventQuant
