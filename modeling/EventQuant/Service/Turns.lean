import EventQuant.FleetExposure
import EventQuant.MarketStates
import EventQuant.Service.PlacementEffects

/-!
How a market's turn ends. A turn that returns leaves the market closed, or has
put it back in the queue after a submission that is to be tried again; where a
cap is reached it leaves everything as it was.
-/
namespace EventQuant

open Program Store

namespace Bot

abbrev Closed (b : Bot) (slug : String) : Prop := b.database.Closed slug

def Rooted (b : Bot) : Prop :=
  ∀ slug, (b.retries.lookup slug).isSome = true → b.database.hasMarket slug = true

theorem hasMarket_apply {b : Bot} {slug : String} (h : b.database.hasMarket slug = true)
    (e : Effect) : (Store.apply b e).database.hasMarket slug = true := by
  cases e with
  | write w => exact Database.hasMarket_apply h w
  | _ => exact h

theorem hasMarket_settle {b : Bot} {slug : String} (h : b.database.hasMarket slug = true)
    (effects : List Effect) : (settle b effects).database.hasMarket slug = true := by
  induction effects generalizing b with
  | nil => exact h
  | cons e effects ih => exact ih (hasMarket_apply h e)

/-- What the program leaves of the queue when it neither adds to it nor takes
it. -/
theorem activations_settle {b : Bot} {effects : List Effect}
    (h : ∀ e ∈ effects, ∀ b : Bot, (Store.apply b e).activations = b.activations) :
    (settle b effects).activations = b.activations := by
  induction effects generalizing b with
  | nil => rfl
  | cons e effects ih =>
    rw [settle_cons, ih fun e' he' => h e' (List.mem_cons_of_mem _ he'), h e List.mem_cons_self]

end Bot

def Effect.KeepsQueue (e : Effect) : Prop :=
  ∀ b : Bot, (Store.apply b e).activations = b.activations

theorem Effect.Submits.keepsQueue {market : Market} {e : Effect} (h : e.Submits market) :
    e.KeepsQueue := by
  intro b
  cases e with
  | enqueue update => exact absurd h id
  | takeActivations => exact absurd h id
  | _ => rfl

theorem emits_queue {α : Type} {a : Action α} (h : Emits Effect.KeepsQueue a) (b : Bot) :
    (a.after b).activations = b.activations := Bot.activations_settle (h b)

/-- The market is back in the queue with a retry kept; nothing was signed,
dropped or sent between the two states. -/
structure Requeued (update : ActivationUpdate) (mid b : Bot) : Prop where
  retry : (b.retries.lookup update.market.slug).isSome = true
  submissions : b.submissions = mid.submissions
  knocked : b.knocked = mid.knocked
  activations : b.activations = mid.activations ++ [update]

namespace Service

variable (s : Service)

/-- A submission of the market's entry that is to be tried again. -/
inductive Retryable (market : Market) (answers : PlacementAnswers) : Bot → Bot → Prop
  | solo (x : Exchange) (start : Bot) (r : PlacementResult) (hexchange : s.exchange = some x)
      (hfleet : s.fleet = none) (hresult : (s.soloResult x market answers.solo).result start = .ok r)
      (hretryable : r.retryable = true) :
      Retryable market answers start ((s.soloResult x market answers.solo).after start)
  | fleet (f : Fleet) (start : Bot) (r : FleetPlacement) (hfleet : s.fleet = some f)
      (hresult : (f.place market s.plan.buyPrice answers.fleet).result start = .ok r)
      (hretryable : r.retryable = true) :
      Retryable market answers start ((f.place market s.plan.buyPrice answers.fleet).after start)

section Ends

variable (market : Market)

theorem requeuePlacement_true {result : PlacementResult} {retry : Option Retry} {trigger : Trigger}
    {answers : PlacementAnswers} {b : Bot}
    (h : (requeuePlacement market result retry trigger answers).result b = .ok true) :
    result.retryable = true ∧ result.orders = [] ∧
      Requeued (requeuedUpdate market trigger answers) b
        ((requeuePlacement market result retry trigger answers).after b) := by
  unfold requeuePlacement at h ⊢
  split at h
  · simp at h
  · rename_i hresult
    rw [if_neg hresult]
    simp only [Bool.or_eq_true, Bool.not_eq_true', not_or, Bool.not_eq_false, List.isEmpty_iff] at hresult
    refine ⟨hresult.1, hresult.2, ?_⟩
    have hretry : ∀ retry, ((b.retries.insert market.slug retry).lookup
        (requeuedUpdate market trigger answers).market.slug).isSome = true := by
      intro retry
      rw [requeuedUpdate_market, AList.lookup_insert]
      rfl
    cases retry <;> exact ⟨hretry _, rfl, rfl, rfl⟩

theorem requeuePlacement_false {result : PlacementResult} {retry : Option Retry} {trigger : Trigger}
    {answers : PlacementAnswers} {b : Bot}
    (h : (requeuePlacement market result retry trigger answers).result b = .ok false) :
    (requeuePlacement market result retry trigger answers).after b = b := by
  unfold requeuePlacement at h ⊢
  split at h
  · rename_i hresult
    rw [if_pos hresult]
    rfl
  · cases retry <;> cases h

/-- Dropping the retry and writing any state but pending closes a market that
is in the books. -/
theorem close_closes (b : Bot) (hrow : b.database.hasMarket market.slug = true) (state : MarketState)
    (hstate : state ≠ .placementPending) (error : Option String) :
    ((do
      commit (.popRetry market.slug)
      Action.write (.setMarketState market.slug state error) : Action Unit).after b).Closed
        market.slug :=
  Database.closed_setMarketState (Bot.hasMarket_apply hrow (.popRetry market.slug)) hstate error

theorem skipMarket_closes (b : Bot) (reason : String) :
    ((s.skipMarket market reason).after b).Closed market.slug := by
  have hskipped : ((b.database.apply (.prepareMarket s.runId market .skipped)).apply
      (.setMarketState market.slug .skipped (some reason))).Closed market.slug :=
    Database.closed_setMarketState
      (Database.closed_prepareMarket b.database s.runId market (by decide)).hasMarket (by decide) _
  exact hskipped

theorem recordOrders_keepsQueue (orders : List PlacedOrder) (now : ℤ) :
    Emits Effect.KeepsQueue (recordOrders market orders now) :=
  emits_forEach _ fun _ _ => addOrder_emits fun _ => rfl

theorem close_keepsQueue (state : MarketState) (error : Option String) :
    Emits Effect.KeepsQueue (do
      commit (.popRetry market.slug)
      Action.write (.setMarketState market.slug state error)) :=
  emits_andThen (emits_commit fun _ => rfl) fun _ => emits_commit fun _ => rfl

theorem skipMarket_keepsQueue (reason : String) :
    Emits Effect.KeepsQueue (s.skipMarket market reason) := by
  unfold skipMarket
  refine emits_andThen (emits_commit fun _ => rfl) fun _ => ?_
  exact emits_andThen (emits_commit fun _ => rfl) fun _ => emits_commit fun _ => rfl

/-- The turn closed the market, or put it back in the queue after a submission
that is to be tried again. -/
def Ends (answers : PlacementAnswers) (update : ActivationUpdate) (start b : Bot) : Prop :=
  (b.Closed market.slug ∧ b.activations = start.activations) ∨
    ∃ mid, s.Retryable market answers start mid ∧ Requeued update mid b

/-- Skipping the market ends its turn. -/
theorem skipMarket_ends (answers : PlacementAnswers) (update : ActivationUpdate) (start : Bot)
    (reason : String) :
    s.Ends market answers update start ((s.skipMarket market reason).after start) :=
  .inl ⟨s.skipMarket_closes market start reason,
    emits_queue (s.skipMarket_keepsQueue market reason) start⟩

def concludePlacement (trigger : Trigger) (retry : Option Retry) (answers : PlacementAnswers)
    (orders : List PlacedOrder) (kept gaveUp : Prop) [Decidable kept] [Decidable gaveUp]
    (reason : String) (result : PlacementResult) : Action Unit :=
  (recordOrders market orders answers.recordTs).andThen fun _ =>
    if kept then placementActive market
    else if gaveUp then s.skipMarket market reason
    else (requeuePlacement market result retry trigger answers).andThen fun requeued =>
      if requeued then return' () else placementFailed market result.error

theorem concludePlacement_ends {answers : PlacementAnswers} {trigger : Trigger}
    {retry : Option Retry} {start mid : Bot} {result : PlacementResult} {orders : List PlacedOrder}
    {kept gaveUp : Prop} [Decidable kept] [Decidable gaveUp] {reason : String}
    (hrow : mid.database.hasMarket market.slug = true)
    (hqueue : mid.activations = start.activations)
    (hretry : result.retryable = true → result.orders = [] →
      orders = [] ∧ s.Retryable market answers start mid)
    (h : (s.concludePlacement market trigger retry answers orders kept gaveUp reason
      result).result mid = .ok ()) :
    s.Ends market answers (requeuedUpdate market trigger answers) start
      ((s.concludePlacement market trigger retry answers orders kept gaveUp reason
        result).after mid) := by
  unfold concludePlacement at h ⊢
  obtain ⟨_, hrecorded, h⟩ := andThen_returned h
  rw [after_andThen_ok hrecorded]
  have hrow' : ((recordOrders market orders answers.recordTs).after mid).database.hasMarket
      market.slug = true := Bot.hasMarket_settle hrow _
  have hqueue' : ((recordOrders market orders answers.recordTs).after mid).activations =
      start.activations :=
    (emits_queue (recordOrders_keepsQueue market orders _) mid).trans hqueue
  generalize hbooked : (recordOrders market orders answers.recordTs).after mid = booked
    at h hrow' hqueue' ⊢
  have hclose : ∀ (state : MarketState) (error : Option String), state ≠ .placementPending →
      s.Ends market answers (requeuedUpdate market trigger answers) start
        ((do
          commit (.popRetry market.slug)
          Action.write (.setMarketState market.slug state error) : Action Unit).after booked) :=
    fun state error hstate => .inl ⟨close_closes market booked hrow' state hstate error,
      (emits_queue (close_keepsQueue market state error) booked).trans hqueue'⟩
  split
  · exact hclose .active none (by decide)
  · rename_i hkept
    rw [if_neg hkept] at h
    split
    · exact .inl ⟨s.skipMarket_closes market booked reason,
        (emits_queue (s.skipMarket_keepsQueue market reason) booked).trans hqueue'⟩
    · rename_i hgaveUp
      rw [if_neg hgaveUp] at h
      obtain ⟨requeued, hrequeued, h⟩ := andThen_returned h
      rw [after_andThen_ok hrequeued]
      cases requeued with
      | true =>
        obtain ⟨hresult, horders, hback⟩ := requeuePlacement_true market hrequeued
        obtain ⟨rfl, hsubmitted⟩ := hretry hresult horders
        obtain rfl : mid = booked := hbooked
        exact .inr ⟨mid, hsubmitted, hback⟩
      | false =>
        rw [requeuePlacement_false market hrequeued]
        exact hclose .error result.error (by decide)

theorem placeSolo_ends {x : Exchange} (hexchange : s.exchange = some x) (hfleet : s.fleet = none)
    {trigger : Trigger} {retry : Option Retry} {answers : PlacementAnswers} {start : Bot}
    (hrow : start.database.hasMarket market.slug = true)
    (h : (s.placeSolo x market trigger retry answers).result start = .ok ()) :
    s.Ends market answers (requeuedUpdate market trigger answers) start
      ((s.placeSolo x market trigger retry answers).after start) := by
  obtain ⟨result, hresult, h⟩ := andThen_returned h
  have hafter := after_andThen_ok (f := fun result =>
    s.concludePlacement market trigger retry answers result.orders (result.complete = true)
      (result.gaveUp = true ∧ result.orders = []) "no acceptance within 240 s of knocking" result)
    hresult
  change (s.placeSolo x market trigger retry answers).after start = _ at hafter
  rw [hafter]
  refine s.concludePlacement_ends market (Bot.hasMarket_settle hrow _) ?_ ?_ h
  · exact emits_queue ((s.soloResult_submits x market answers.solo).mono
      fun _ => Effect.Submits.keepsQueue) start
  · exact fun hretryable horders =>
      ⟨horders, .solo x start result hexchange hfleet hresult hretryable⟩

/-- A fleet's placement that is to be tried again holds no order. -/
theorem retryable_empty {f : Fleet} {price : ℚ} {answers : FleetAnswers} {b : Bot}
    {placement : FleetPlacement} (h : (f.place market price answers).result b = .ok placement)
    (hretryable : placement.retryable = true) : placement.orders = [] := by
  obtain ⟨-, -, parts, horders, hparts⟩ := f.place_ran h
  simp only [FleetPlacement.retryable, Bool.and_eq_true, List.all_eq_true] at hretryable
  rw [horders, List.flatten_eq_nil_iff]
  intro first hfirst
  obtain ⟨part, hpart, rfl⟩ := List.mem_map.mp hfirst
  obtain ⟨p, hp, hran⟩ := Results.exists_left hparts hpart
  obtain ⟨hrecorded, -⟩ := f.settlePlacement_ran _ answers p part _ hran
  have hempty : Fleet.ordersOf p = [] := by
    have hmember := hretryable.2 p hp
    cases hresult : p.result with
    | none => simp [hresult] at hmember
    | some r =>
      simp only [hresult, Option.any_some, Bool.and_eq_true, List.isEmpty_iff] at hmember
      simp [Fleet.ordersOf, hresult, hmember.2]
  rw [hrecorded, hempty, List.map_nil]

def fleetPlacement (f : Fleet) (answers : PlacementAnswers) :
    Action (Except String FleetPlacement) :=
  handle ((f.place market s.plan.buyPrice answers.fleet).andThen fun placement =>
    return' (Except.ok placement)) fun e => return' (Except.error e.text)

theorem fleetPlacement_ok {f : Fleet} {answers : PlacementAnswers} {b : Bot}
    {placement : FleetPlacement} (h : (s.fleetPlacement market f answers).result b =
      .ok (.ok placement)) :
    (f.place market s.plan.buyPrice answers.fleet).result b = .ok placement ∧
      (s.fleetPlacement market f answers).after b =
        (f.place market s.plan.buyPrice answers.fleet).after b := by
  rcases handle_returned h with ⟨hreturned, hcommits⟩ | ⟨e, -, h⟩
  · obtain ⟨placement', hplace, hreturn⟩ := andThen_returned hreturned
    obtain rfl : placement' = placement := by simpa using hreturn
    refine ⟨hplace, ?_⟩
    unfold fleetPlacement
    rw [after, hcommits, ← after, after_andThen_ok hplace]
    rfl
  · simp at h

theorem placeWithFleet_ends {f : Fleet} (hfleet : s.fleet = some f)
    {trigger : Trigger} {retry : Option Retry} {knockUntilTs : ℚ} {answers : PlacementAnswers}
    {start : Bot} (hrow : start.database.hasMarket market.slug = true)
    (h : (s.placeWithFleet f market trigger retry knockUntilTs answers).result start = .ok ()) :
    s.Ends market answers (requeuedUpdate market trigger answers) start
      ((s.placeWithFleet f market trigger retry knockUntilTs answers).after start) := by
  have hplace := ((f.place_submits market s.plan.buyPrice answers.fleet).mono
    fun _ => Effect.Submits.keepsQueue)
  have hsubmit : Emits Effect.KeepsQueue (s.fleetPlacement market f answers) :=
    emits_handle (emits_andThen hplace fun _ => emits_return _) fun _ => emits_return _
  have hqueue := emits_queue hsubmit start
  obtain ⟨placed, hplaced, h⟩ := andThen_returned h
  change (s.fleetPlacement market f answers).result start = _ at hplaced
  cases placed with
  | error error =>
    have hafter : (s.placeWithFleet f market trigger retry knockUntilTs answers).after start =
        (placementFailed market (some error)).after
          ((s.fleetPlacement market f answers).after start) := after_andThen_ok hplaced
    rw [hafter]
    exact .inl ⟨close_closes market _ (Bot.hasMarket_settle hrow _) .error (by decide) _,
      (emits_queue (close_keepsQueue market .error _) _).trans hqueue⟩
  | ok placement =>
    obtain ⟨hresult, hstate⟩ := s.fleetPlacement_ok market hplaced
    have hafter : (s.placeWithFleet f market trigger retry knockUntilTs answers).after start =
        (s.concludePlacement market trigger retry answers placement.orders
          (placement.kept.isSome = true) (placement.gaveUp = true)
          (gaveUpReason placement.preview knockUntilTs)
          { orders := []
            error := placement.error
            retryable := placement.retryable
            attempts := placement.attempts }).after
          ((s.fleetPlacement market f answers).after start) := after_andThen_ok hplaced
    rw [hafter]
    refine s.concludePlacement_ends market (Bot.hasMarket_settle hrow _) hqueue ?_ h
    intro hretryable _
    rw [hstate]
    exact ⟨retryable_empty market hresult hretryable, .fleet f start placement hfleet hresult hretryable⟩

/-- The turn's submission begins with what the bot had signed and sent when the
turn began. -/
structure Begins (b start : Bot) : Prop where
  submissions : start.submissions = b.submissions
  knocked : start.knocked = b.knocked
  activations : start.activations = b.activations

/-- Once the market is in the books, whoever places it. -/
theorem placeAs_ends {trigger : Trigger} {retry : Option Retry} {knockUntilTs : ℚ}
    {answers : PlacementAnswers} {start : Bot}
    (hrow : start.database.hasMarket market.slug = true)
    (h : (match s.exchange, s.fleet with
      | none, _ => (recordOrders market (s.simulatedOrders market) answers.recordTs).andThen fun _ =>
        Action.write (.setMarketState market.slug .active none)
      | some _, some f => s.placeWithFleet f market trigger retry knockUntilTs answers
      | some x, none => s.placeSolo x market trigger retry answers).result start = .ok ()) :
    s.Ends market answers (requeuedUpdate market trigger answers) start
      ((match s.exchange, s.fleet with
      | none, _ => (recordOrders market (s.simulatedOrders market) answers.recordTs).andThen fun _ =>
        Action.write (.setMarketState market.slug .active none)
      | some _, some f => s.placeWithFleet f market trigger retry knockUntilTs answers
      | some x, none => s.placeSolo x market trigger retry answers).after start) := by
  split at h
  · obtain ⟨_, hrecorded, -⟩ := andThen_returned h
    rw [after_andThen_ok hrecorded]
    refine .inl ⟨Database.closed_setMarketState (Bot.hasMarket_settle hrow _) (by decide) _, ?_⟩
    exact emits_queue (recordOrders_keepsQueue market _ _) start
  · rename_i hfleet
    exact s.placeWithFleet_ends market hfleet hrow h
  · rename_i hexchange hfleet
    exact s.placeSolo_ends market hexchange hfleet hrow h

theorem place_ends {trigger : Trigger} {answers : PlacementAnswers} {b : Bot} (hrooted : b.Rooted)
    (h : (s.place market trigger answers).result b = .ok ()) :
    ∃ start, Begins b start ∧ s.Ends market answers (requeuedUpdate market trigger answers) start
      ((s.place market trigger answers).after b) := by
  unfold place at h ⊢
  simp only [bind_eq] at h ⊢
  obtain ⟨retry, hretry, h⟩ := andThen_returned h
  rw [after_andThen_ok hretry]
  rw [result_read, Except.ok.injEq] at hretry
  subst hretry
  rw [after_read] at h ⊢
  split
  · exact ⟨b, ⟨rfl, rfl, rfl⟩, s.skipMarket_ends market answers _ b _⟩
  · rename_i hbudget
    rw [if_neg hbudget] at h
    split
    · exact ⟨b, ⟨rfl, rfl, rfl⟩, s.skipMarket_ends market answers _ b _⟩
    · rename_i hdoor
      rw [if_neg hdoor] at h
      obtain ⟨_, hfirst, h⟩ := andThen_returned h
      rw [after_andThen_ok hfirst]
      refine ⟨(s.prepareFirst market (b.retries.lookup market.slug)).after b, ?_, ?_⟩
      · unfold prepareFirst
        split <;> exact ⟨rfl, rfl, rfl⟩
      · refine s.placeAs_ends market ?_ h
        unfold prepareFirst
        split
        · rename_i hretry
          exact hrooted _ hretry
        · exact (Database.closed_prepareMarket b.database s.runId market (by decide)).hasMarket

def Capped (nowTs : ℤ) (answers : PlacementAnswers) (b : Bot) : Prop :=
  s.eligible market nowTs = true ∧ b.database.canStartEntryPlan market.slug = true ∧
    s.misfit market = .ok none ∧ s.capReached b.database answers.dayStart = true

/-- What a turn came to: nothing for a market past its time but its expiry,
nothing at all, or a placement. -/
inductive TurnEnds (nowTs : ℤ) (trigger : Trigger) (orderbookReady : Bool)
    (answers : PlacementAnswers) (b b' : Bot) : Prop
  | expired (h : s.eligible market nowTs = false) (hafter : b' = (expireMarket market).after b)
  | idle (h : b.database.canStartEntryPlan market.slug = false ∨ orderbookReady = false)
      (hafter : b' = b)
  | placed (start : Bot) (h : b.database.canStartEntryPlan market.slug = true)
      (hbegins : Begins b start)
      (hends : s.Ends market answers (requeuedUpdate market trigger answers) start b')

theorem considerMarket_true {nowTs : ℤ} {trigger : Trigger} {orderbookReady : Bool}
    {answers : PlacementAnswers} {b : Bot} (hrooted : b.Rooted)
    (h : (s.considerMarket market nowTs trigger orderbookReady answers).result b = .ok true) :
    s.TurnEnds market nowTs trigger orderbookReady answers b
      ((s.considerMarket market nowTs trigger orderbookReady answers).after b) := by
  obtain ⟨effects, result, hcommits, hresult, hgoes⟩ :=
    s.considerMarket_goes market nowTs trigger orderbookReady answers b
  rw [hresult] at h
  rw [after, hcommits]
  cases hgoes with
  | expired hpast => exact .expired hpast rfl
  | shut hshut => exact .idle (.inl hshut) rfl
  | unread e hmisfit => cases h
  | skipped reason hfree hmisfit =>
    exact .placed b hfree ⟨rfl, rfl, rfl⟩ (s.skipMarket_ends market answers _ b reason)
  | capped heligible hfree hfits hcapped => cases h
  | closed hclosed =>
    simp only [Bool.and_eq_true, Bool.not_eq_true'] at hclosed
    exact .idle (.inr hclosed.1.2) rfl
  | placed heligible hfree hfits huncapped hbooks =>
    cases hplaced : (s.place market trigger answers).result b with
    | error e =>
      rw [hplaced] at h
      cases h
    | ok done =>
      obtain ⟨start, hbegins, hends⟩ := s.place_ends market hrooted hplaced
      exact .placed start hfree hbegins hends

/-- Only a cap stops the markets behind, and then nothing was done. -/
theorem considerMarket_false {nowTs : ℤ} {trigger : Trigger} {orderbookReady : Bool}
    {answers : PlacementAnswers} {b : Bot}
    (h : (s.considerMarket market nowTs trigger orderbookReady answers).result b = .ok false) :
    s.Capped market nowTs answers b ∧
      (s.considerMarket market nowTs trigger orderbookReady answers).after b = b := by
  obtain ⟨effects, result, hcommits, hresult, hgoes⟩ :=
    s.considerMarket_goes market nowTs trigger orderbookReady answers b
  rw [hresult] at h
  rw [after, hcommits]
  cases hgoes with
  | capped heligible hfree hfits hcapped => exact ⟨⟨heligible, hfree, hfits, hcapped⟩, rfl⟩
  | placed heligible hfree hfits huncapped hbooks =>
    cases hplaced : (s.place market trigger answers).result b <;> simp [hplaced, Except.map] at h
  | _ => cases h

theorem considerMarket_capped {nowTs : ℤ} {trigger : Trigger} {orderbookReady : Bool}
    {answers : PlacementAnswers} {b : Bot} (h : s.Capped market nowTs answers b) :
    (s.considerMarket market nowTs trigger orderbookReady answers).result b = .ok false := by
  obtain ⟨heligible, hfree, hmisfit, hcapped⟩ := h
  unfold considerMarket Action.query
  simp only [bind_eq]
  rw [if_neg (by simp [heligible]), result_andThen_ok (result_read b _), after_read,
    if_neg (by simp [hfree]), result_andThen_ok (a := none) (by rw [result_answer, hmisfit]),
    after_answer, result_andThen_ok (result_read b _), if_pos hcapped, result_return]

end Ends

end Service

def turnAnswers (solo : SoloAnswers) : PlacementAnswers where
  dayStart := 0
  booksReady := .ok true
  readTsMs := 0
  checkTs := 0
  doorOpen := .ok false
  placementStartedTsMs := 0
  placementFinishedTsMs := 0
  recordTs := 0
  solo := solo
  fleet := pairFleetAnswers upUnanswered upUnanswered

def bothRegistered (account : String) : Knock.MemberResult :=
  { upRegistered account "0xa1" 100 with
    accepted := [⟨"up", "0xa1", 200, Knock.liveBody "0xa1"⟩,
      ⟨"down", "0xb2", 200, Knock.liveBody "0xb2"⟩] }

def pairTurn (outcome : Knock.MemberResult) (rows : List Python.Value) : PlacementAnswers :=
  turnAnswers ⟨.ok fun _ => "signed", .ok [outcome], .ok (), .ok rows, .ok ()⟩

end EventQuant
