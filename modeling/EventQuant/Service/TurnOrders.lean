import EventQuant.FleetOrders
import EventQuant.Library.Written
import EventQuant.Service.Ticks
import EventQuant.Service.Turns

/-!
The rows a market's turn adds for its orders, from what the turn is answered.
Whoever places the market, its commits add these in their order, as far as they
come.
-/
namespace EventQuant

open Program
open Knock (MemberResult)

def Exchange.adoptedOrders (x : Exchange) (market : Market) (price size : ℚ)
    (openOrders : Except Exn (List Python.Value)) : List PlacedOrder :=
  let expected := Python.dict ((x.entrySpecifications market).map Prod.swap)
  let found := openOrders.bind (exactMatches x.codec (expected.map Prod.fst) "BUY" price size)
  match found with
  | .error _ => []
  | .ok found =>
    let pairs := expected.map fun leg => (leg, found.filter fun row => row.tokenId = leg.1)
    if pairs.all fun leg => leg.2.length = 1 then (x.adoptPair price size pairs).getD [] else []

def Effect.added : Effect → Option OrderRow
  | .write (.addOrder now slug order) => some (Database.orderRow now slug order)
  | _ => none

def Effect.Free (e : Effect) : Prop := e.added = none

theorem Effect.Submits.free {market : Market} {e : Effect} (h : e.Submits market) : e.Free := by
  cases e with
  | write w => exact absurd h id
  | _ => rfl

namespace Service

variable (s : Service) (market : Market)

def dualResult (x : Exchange) (b : Bot) (answers : SoloAnswers) : Except Exn PlacementResult := do
  let prepared ← x.prepared market s.plan.buyPrice s.orderSize
    (b.submissions.lookup (x.account, submissionKey market s.plan.buyPrice s.orderSize)) answers.sign
  match prepared with
  | .inr result => .ok result
  | .inl entry =>
    if s.placementIntervalMs ≤ 0 then
      .error (.other "ValueError" "submission_interval_ms must be above 0")
    else match ← answers.knock with
      | [] => .error (.other "IndexError" "list index out of range")
      | outcome :: _ => x.settled entry outcome answers.cancelIncomplete

/-- The orders one account holds once its submission is settled: those it
accepted, or those adopted where it was ambiguous. -/
def soloOrders (x : Exchange) (b : Bot) (answers : SoloAnswers) : List PlacedOrder :=
  match s.dualResult market x b answers with
  | .ok result => result.orders
  | .error (.other _ _) => []
  | .error (.ambiguousPlacement _ _ _) =>
    x.adoptedOrders market s.plan.buyPrice s.orderSize answers.openOrders

def placeOrders (b : Bot) (answers : PlacementAnswers) : List PlacedOrder :=
  match s.exchange, s.fleet with
  | none, _ => s.simulatedOrders market
  | some _, some f => f.placedOrders b market s.plan.buyPrice answers.fleet
  | some x, none => s.soloOrders market x b answers.solo

/-- The turn comes too late to place: its knocking budget is used up, or the
order book opened before. -/
def late (b : Bot) (trigger : Trigger) (answers : PlacementAnswers) : Bool :=
  let firstStartedTsMs := ((b.retries.lookup market.slug).map Retry.firstStartedTsMs).getD
    answers.readTsMs
  s.live && trigger.isActivation &&
    (decide ((firstStartedTsMs : ℚ) / 1000 + knockSeconds ≤ answers.checkTs) ||
      decide (answers.doorOpen = .ok true))

def turnRows (b : Bot) (trigger : Trigger) (answers : PlacementAnswers) : List OrderRow :=
  if s.late market b trigger answers then []
  else (s.placeOrders market b answers).map (Database.orderRow answers.recordTs market.slug)

theorem placeDual_result (x : Exchange) (answers : SoloAnswers) (b : Bot) :
    (s.placeDual x market answers).result b = s.dualResult market x b answers := by
  unfold placeDual dualResult
  rw [bind_eq, result_andThen, x.prepareEntry_result]
  cases x.prepared market s.plan.buyPrice s.orderSize _ answers.sign with
  | error e => rfl
  | ok prepared =>
    simp only [Except.bind, bind]
    cases prepared with
    | inr result => rfl
    | inl entry =>
      simp only
      split_ifs with hpositive
      · rfl
      · simp only [result_andThen, result_commit, Except.bind, result_answer]
        rcases answers.knock with e | (_ | ⟨outcome, outcomes⟩)
        · rfl
        · rfl
        · exact x.settleEntry_result entry outcome answers.cancelIncomplete _

theorem reconcileAmbiguousDual_orders {x : Exchange} {price size : ℚ} {retryable : Bool}
    {openOrders : Except Exn (List Python.Value)} {cancel : Except Exn Unit} {b : Bot}
    {r : PlacementResult}
    (h : (x.reconcileAmbiguousDual market price size retryable openOrders cancel).result b = .ok r) :
    r.orders = [] ∨ r.orders = x.adoptedOrders market price size openOrders := by
  obtain ⟨rows, hrows, h⟩ := andThen_returned h
  obtain ⟨found, hfound, h⟩ := andThen_returned h
  rw [result_answer] at hrows hfound
  unfold Exchange.adoptedOrders
  simp only [hrows, Except.bind, hfound]
  simp only at h
  split at h
  · rename_i hone
    rw [if_pos hone]
    split at h
    · obtain rfl := Except.ok.inj h
      exact .inl rfl
    · rename_i orders horders
      obtain ⟨_, -, h⟩ := andThen_returned h
      obtain rfl := Except.ok.inj h
      exact .inr (by rw [horders, Option.getD_some])
  · split at h
    · obtain ⟨_, -, h⟩ := andThen_returned h
      obtain ⟨_, -, h⟩ := andThen_returned h
      obtain ⟨_, -, h⟩ := andThen_returned h
      obtain rfl := Except.ok.inj h
      exact .inl rfl
    · split at h
      · obtain rfl := Except.ok.inj h
        exact .inl rfl
      · obtain ⟨_, -, h⟩ := andThen_returned h
        obtain rfl := Except.ok.inj h
        exact .inl rfl

/-- However one account's submission ends, it holds these orders or none. -/
theorem soloResult_orders {x : Exchange} {answers : SoloAnswers} {b : Bot} {r : PlacementResult}
    (h : (s.soloResult x market answers).result b = .ok r) :
    r.orders = [] ∨ r.orders = s.soloOrders market x b answers := by
  unfold soloOrders
  rcases handle_returned h with ⟨h, -⟩ | ⟨e, hraised, h⟩
  · rw [s.placeDual_result] at h
    exact .inr (by rw [h])
  · rw [s.placeDual_result] at hraised
    cases e with
    | other kind message =>
      obtain rfl := Except.ok.inj h
      exact .inl rfl
    | ambiguousPlacement message retryable attempts =>
      rw [hraised]
      rcases handle_returned h with ⟨h, -⟩ | ⟨e', -, h⟩
      · obtain ⟨result, hresult, h⟩ := andThen_returned h
        obtain rfl := Except.ok.inj h
        have horders := reconcileAmbiguousDual_orders market hresult
        exact horders
      · obtain rfl := Except.ok.inj h
        exact .inl rfl

theorem recordOrders_writes (orders : List PlacedOrder) (now : ℤ) (b : Bot) :
    Writes Effect.added ((recordOrders market orders now).commits b)
      (orders.map (Database.orderRow now market.slug)) := by
  refine writes_forEach (fun order _ t => ?_) b
  unfold Action.addOrder Action.query
  simp only [bind_eq]
  rw [commits_andThen_ok (result_read t _), result_andThen_ok (result_read t _)]
  split
  · exact .inl rfl
  · exact .inr ⟨rfl, _, rfl⟩

theorem close_free (state : MarketState) (error : Option String) :
    Emits Effect.Free (do
      commit (.popRetry market.slug)
      Action.write (.setMarketState market.slug state error)) :=
  emits_andThen (emits_commit rfl) fun _ => emits_commit rfl

theorem skipMarket_free (reason : String) : Emits Effect.Free (s.skipMarket market reason) := by
  unfold skipMarket
  refine emits_andThen (emits_commit rfl) fun _ => ?_
  exact emits_andThen (emits_commit rfl) fun _ => emits_commit rfl

theorem requeuePlacement_free (result : PlacementResult) (retry : Option Retry) (trigger : Trigger)
    (answers : PlacementAnswers) :
    Emits Effect.Free (requeuePlacement market result retry trigger answers) := by
  unfold requeuePlacement
  split
  · exact emits_return _
  · refine emits_andThen ?_ fun _ => emits_andThen (emits_commit rfl) fun _ => emits_return _
    unfold keepRetry
    split
    · exact emits_andThen (emits_commit rfl) fun _ => emits_commit rfl
    · exact emits_commit rfl

/-- A placement that is concluded writes its orders down and no others. -/
theorem concludePlacement_writes (trigger : Trigger) (retry : Option Retry) (answers : PlacementAnswers)
    (orders : List PlacedOrder) (kept gaveUp : Prop) [Decidable kept] [Decidable gaveUp]
    (reason : String) (result : PlacementResult) (b : Bot) :
    Writes Effect.added ((s.concludePlacement market trigger retry answers orders kept gaveUp reason
      result).commits b) (orders.map (Database.orderRow answers.recordTs market.slug)) := by
  refine writes_before (recordOrders_writes market orders answers.recordTs b) fun _ => ?_
  split_ifs
  · exact close_free market .active none
  · exact s.skipMarket_free market reason
  · refine emits_andThen (requeuePlacement_free market result retry trigger answers) fun requeued => ?_
    split
    · exact emits_return _
    · exact close_free market .error _

theorem placeSolo_writes (x : Exchange) (trigger : Trigger) (retry : Option Retry)
    (answers : PlacementAnswers) (b : Bot) :
    Writes Effect.added ((s.placeSolo x market trigger retry answers).commits b)
      ((s.soloOrders market x b answers.solo).map
        (Database.orderRow answers.recordTs market.slug)) := by
  have hfree : Emits Effect.Free (s.soloResult x market answers.solo) :=
    (s.soloResult_submits x market answers.solo).mono fun _ => Effect.Submits.free
  refine writes_after hfree fun result hresult => ?_
  have hwrites := s.concludePlacement_writes market trigger retry answers result.orders
    (result.complete = true) (result.gaveUp = true ∧ result.orders = [])
    "no acceptance within 240 s of knocking" result
    ((s.soloResult x market answers.solo).after b)
  rcases s.soloResult_orders market hresult with hnone | horders
  · have hnothing : result.orders.map (Database.orderRow answers.recordTs market.slug) = [] := by
      rw [hnone, List.map_nil]
    rw [hnothing] at hwrites
    exact List.IsPrefix.trans hwrites List.nil_prefix
  · exact horders ▸ hwrites

theorem placeWithFleet_writes (f : Fleet) (trigger : Trigger) (retry : Option Retry)
    (knockUntilTs : ℚ) (answers : PlacementAnswers) (b : Bot) :
    Writes Effect.added ((s.placeWithFleet f market trigger retry knockUntilTs answers).commits b)
      ((f.placedOrders b market s.plan.buyPrice answers.fleet).map
        (Database.orderRow answers.recordTs market.slug)) := by
  have hplace := (f.place_submits market s.plan.buyPrice answers.fleet).mono
    fun _ => Effect.Submits.free
  have hfree : Emits Effect.Free (s.fleetPlacement market f answers) :=
    emits_handle (emits_andThen hplace fun _ => emits_return _) fun _ => emits_return _
  refine writes_after hfree fun placed hplaced => ?_
  cases placed with
  | error error => exact (close_free market .error _).writes _
  | ok placement =>
    obtain ⟨hresult, -⟩ := s.fleetPlacement_ok market hplaced
    rw [← f.place_orders hresult]
    exact s.concludePlacement_writes market trigger retry answers placement.orders
      (placement.kept.isSome = true) (placement.gaveUp = true)
      (gaveUpReason placement.preview knockUntilTs)
      { orders := []
        error := placement.error
        retryable := placement.retryable
        attempts := placement.attempts }
      ((s.fleetPlacement market f answers).after b)

/-- The orders follow from what the bot has signed and from the answers. -/
theorem placeOrders_congr {b b' : Bot} (h : b'.submissions = b.submissions)
    (answers : PlacementAnswers) :
    s.placeOrders market b' answers = s.placeOrders market b answers := by
  unfold placeOrders soloOrders dualResult Fleet.placedOrders Fleet.handedBack Fleet.knocked
    Fleet.prepared
  rw [h]

theorem place_writes (trigger : Trigger) (answers : PlacementAnswers) (b : Bot) :
    Writes Effect.added ((s.place market trigger answers).commits b)
      (s.turnRows market b trigger answers) := by
  unfold place turnRows late
  simp only [bind_eq]
  rw [commits_andThen_ok (result_read b _), commits_read, List.nil_append, after_read]
  split
  · exact (s.skipMarket_free market _).writes b
  · rename_i hbudget
    split
    · exact (s.skipMarket_free market _).writes b
    · rename_i hdoor
      have hfirst : Emits Effect.Free (s.prepareFirst market (b.retries.lookup market.slug)) := by
        unfold prepareFirst
        split
        · exact emits_return _
        · exact emits_commit rfl
      have hpunctual : (s.live && trigger.isActivation &&
          (decide (((((b.retries.lookup market.slug).map Retry.firstStartedTsMs).getD
            answers.readTsMs : ℤ) : ℚ) / 1000 + knockSeconds ≤ answers.checkTs) ||
            decide (answers.doorOpen = .ok true))) = false := by
        rw [Bool.and_or_distrib_left, Bool.or_eq_false_iff]
        exact ⟨Bool.eq_false_iff.mpr hbudget, Bool.eq_false_iff.mpr hdoor⟩
      rw [hpunctual, if_neg Bool.false_ne_true]
      have hsigned : ((s.prepareFirst market (b.retries.lookup market.slug)).after b).submissions =
          b.submissions := by
        unfold prepareFirst
        split <;> rfl
      refine writes_after hfirst fun _ _ => ?_
      rw [← s.placeOrders_congr market hsigned]
      unfold placeOrders
      cases s.exchange with
      | none =>
        exact writes_before (recordOrders_writes market (s.simulatedOrders market) answers.recordTs _)
          fun _ => emits_commit rfl
      | some x =>
        cases s.fleet with
        | some f => exact s.placeWithFleet_writes market f trigger _ _ answers _
        | none => exact s.placeSolo_writes market x trigger _ answers _

end Service

end EventQuant
