import EventQuant.Service.Turns

/-!
In which order a turn changes a market's row and its retry. The row is written
before the retry is kept and before an entry is sent, it says pending only
while a retry is kept, and a turn that began without one drops none before the
row is closed: cut short anywhere, the turn leaves the market closed or waiting
in this process.
-/
namespace EventQuant

open Program Store

/-- The effect keeps the order; `fresh` says the turn began without a retry. -/
def Effect.InOrder (fresh : Prop) (b : Bot) : Effect → Prop
  | .setRetry slug _ => b.database.hasMarket slug = true
  | .popRetry slug => fresh → (b.retries.lookup slug).isSome = true → b.Closed slug
  | .write (.setMarketState slug state _) =>
    state = .placementPending → (b.retries.lookup slug).isSome = true
  | .write (.prepareMarket _ _ state) => state ≠ .placementPending
  | .knock k => (b.retries.lookup k.slug).isSome = true ∨ b.Closed k.slug
  | _ => True

/-- The market is in the books, waiting for a retry or closed, and closed if
the turn began without a retry. -/
structure Bot.Written (fresh : Prop) (slug : String) (b : Bot) : Prop where
  row : b.database.hasMarket slug = true
  closed : fresh → b.Closed slug
  waits : (b.retries.lookup slug).isSome = true ∨ b.Closed slug

/-- The effect touches no market's row and no retry, and sends an entry of this
market only. -/
def Effect.KeepsMarkets (slug : String) : Effect → Prop
  | .write (.prepareMarket _ _ _) => False
  | .write (.setMarketState _ _ _) => False
  | .setRetry _ _ => False
  | .popRetry _ => False
  | .knock k => k.slug = slug
  | _ => True

theorem Effect.KeepsMarkets.inOrder {slug : String} {e : Effect} (h : e.KeepsMarkets slug)
    {fresh : Prop} {b : Bot} (hb : b.Written fresh slug) : e.InOrder fresh b := by
  cases e with
  | knock k =>
    obtain rfl : k.slug = slug := h
    exact hb.waits
  | write w => cases w <;> first | exact absurd h id | trivial
  | setRetry slug retry => exact absurd h id
  | popRetry slug => exact absurd h id
  | _ => trivial

theorem Effect.KeepsMarkets.apply {slug : String} {e : Effect} (h : e.KeepsMarkets slug) (b : Bot) :
    (Store.apply b e).database.markets = b.database.markets ∧
      (Store.apply b e).retries = b.retries := by
  cases e with
  | write w => cases w <;> first | exact absurd h id | exact ⟨rfl, rfl⟩
  | setRetry slug retry => exact absurd h id
  | popRetry slug => exact absurd h id
  | _ => exact ⟨rfl, rfl⟩

theorem Effect.Submits.keepsMarkets {market : Market} {e : Effect} (h : e.Submits market) :
    e.KeepsMarkets market.slug := by
  cases e with
  | knock k => exact h.1
  | write w => exact absurd h id
  | setRetry slug retry => exact absurd h id
  | popRetry slug => exact absurd h id
  | _ => trivial

theorem Bot.Written.apply {fresh : Prop} {slug : String} {b : Bot} (h : b.Written fresh slug)
    {e : Effect} (he : e.KeepsMarkets slug) : (Store.apply b e).Written fresh slug := by
  obtain ⟨hmarkets, hretries⟩ := he.apply b
  obtain ⟨hrow, hclosed, hwaits⟩ := h
  unfold Bot.Closed Database.Closed at hclosed hwaits
  unfold Database.hasMarket at hrow
  constructor
  · unfold Database.hasMarket
    rw [hmarkets]
    exact hrow
  · unfold Bot.Closed Database.Closed
    rw [hmarkets]
    exact hclosed
  · unfold Bot.Closed Database.Closed
    rw [hmarkets, hretries]
    exact hwaits

abbrev InOrder {α : Type} (fresh : Prop) (a : Action α) (b : Bot) : Prop :=
  Safe (fun b e => Effect.InOrder fresh b e) a (fun _ _ => True) (fun _ _ => True) b

namespace Service

variable (s : Service) (market : Market) {fresh : Prop}

/-- A part of the turn that touches neither rows nor retries. -/
theorem keepsMarkets_inOrder {α : Type} {a : Action α} (h : Emits (Effect.KeepsMarkets market.slug) a) {b : Bot}
    (hb : b.Written fresh market.slug) :
    Safe (fun b e => Effect.InOrder fresh b e) a (fun _ => Bot.Written fresh market.slug)
      (fun _ => Bot.Written fresh market.slug) b :=
  h.safe (Bot.Written fresh market.slug) (fun _ he _ hb => ⟨he.inOrder hb, hb.apply he⟩) hb

theorem close_inOrder {state : MarketState} (hstate : state ≠ .placementPending)
    (error : Option String) {b : Bot} (hb : b.Written fresh market.slug) :
    InOrder fresh (do
      commit (.popRetry market.slug)
      Action.write (.setMarketState market.slug state error)) b := by
  refine safe_andThen (q := fun _ _ => True) (safe_commit _ (fun hfresh _ => hb.closed hfresh) trivial)
    fun _ t _ => ?_
  exact safe_commit _ (fun hpending => absurd hpending hstate) trivial

/-- A skip drops the retry first; a market without one has none to drop. -/
theorem skipMarket_inOrder (reason : String) {b : Bot}
    (hb : fresh → (b.retries.lookup market.slug).isSome = true → b.Closed market.slug) :
    InOrder fresh (s.skipMarket market reason) b := by
  unfold skipMarket
  refine safe_andThen (q := fun _ _ => True) (safe_commit _ hb trivial) fun _ t _ => ?_
  refine safe_andThen (q := fun _ _ => True) (safe_commit _ nofun trivial) fun _ t _ => ?_
  exact safe_commit _ nofun trivial

theorem requeuePlacement_inOrder (result : PlacementResult) (retry : Option Retry)
    (trigger : Trigger) (answers : PlacementAnswers) {b : Bot}
    (hb : b.Written fresh market.slug) :
    Safe (fun b e => Effect.InOrder fresh b e)
      (requeuePlacement market result retry trigger answers)
      (fun requeued => if requeued then fun _ => True else Bot.Written fresh market.slug)
      (fun _ _ => True) b := by
  unfold requeuePlacement
  split
  · exact safe_return false hb
  · have hkeep : Safe (fun b e => Effect.InOrder fresh b e) (keepRetry market result retry answers)
        (fun _ _ => True) (fun _ _ => True) b := by
      unfold keepRetry
      split
      · refine safe_andThen (q := fun _ t => (t.retries.lookup market.slug).isSome = true)
          (safe_commit _ hb.row ?_) fun _ t ht => safe_commit _ (fun _ => ht) trivial
        change ((b.retries.insert _ _).lookup market.slug).isSome = true
        rw [AList.lookup_insert]
        rfl
      · exact safe_commit _ hb.row trivial
    refine safe_andThen hkeep fun _ t _ => ?_
    exact safe_andThen (q := fun _ _ => True) (safe_commit _ trivial trivial)
      fun _ t' _ => safe_return true trivial

theorem concludePlacement_inOrder (trigger : Trigger) (retry : Option Retry)
    (answers : PlacementAnswers) (orders : List PlacedOrder) (kept gaveUp : Prop) [Decidable kept]
    [Decidable gaveUp] (reason : String) (result : PlacementResult) {b : Bot}
    (hb : b.Written fresh market.slug) :
    InOrder fresh (s.concludePlacement market trigger retry answers orders kept gaveUp reason
      result) b := by
  have hrecord : Emits (Effect.KeepsMarkets market.slug) (recordOrders market orders answers.recordTs) :=
    emits_forEach _ fun _ _ => addOrder_emits trivial
  unfold concludePlacement
  refine safe_andThen ((keepsMarkets_inOrder market hrecord hb).mono (fun _ _ h => h)
    fun _ _ _ => trivial) fun _ t ht => ?_
  split
  · exact close_inOrder market (by decide) none ht
  · split
    · exact s.skipMarket_inOrder market reason fun hfresh _ => ht.closed hfresh
    · refine safe_andThen (requeuePlacement_inOrder market result retry trigger answers ht)
        fun requeued t' ht' => ?_
      cases requeued with
      | true => exact safe_return () trivial
      | false => exact close_inOrder market (by decide) _ ht'

theorem placeSolo_inOrder (x : Exchange) (trigger : Trigger) (retry : Option Retry)
    (answers : PlacementAnswers) {b : Bot} (hb : b.Written fresh market.slug) :
    InOrder fresh (s.placeSolo x market trigger retry answers) b := by
  have hsubmit : Emits (Effect.KeepsMarkets market.slug) (s.soloResult x market answers.solo) :=
    (s.soloResult_submits x market answers.solo).mono fun _ => Effect.Submits.keepsMarkets
  refine safe_andThen ((keepsMarkets_inOrder market hsubmit hb).mono (fun _ _ h => h)
    fun _ _ _ => trivial) fun result t ht => ?_
  exact s.concludePlacement_inOrder market trigger retry answers result.orders
    (result.complete = true) (result.gaveUp = true ∧ result.orders = []) _ result ht

theorem placeWithFleet_inOrder (f : Fleet) (trigger : Trigger) (retry : Option Retry)
    (knockUntilTs : ℚ) (answers : PlacementAnswers) {b : Bot} (hb : b.Written fresh market.slug) :
    InOrder fresh (s.placeWithFleet f market trigger retry knockUntilTs answers) b := by
  have hplace := (f.place_submits market s.plan.buyPrice answers.fleet).mono
    fun _ => Effect.Submits.keepsMarkets
  have hsubmit : Emits (Effect.KeepsMarkets market.slug) (s.fleetPlacement market f answers) :=
    emits_handle (emits_andThen hplace fun _ => emits_return _) fun _ => emits_return _
  refine safe_andThen ((keepsMarkets_inOrder market hsubmit hb).mono (fun _ _ h => h)
    fun _ _ _ => trivial) fun placed t ht => ?_
  cases placed with
  | error error => exact close_inOrder market (by decide) _ ht
  | ok placement =>
    exact s.concludePlacement_inOrder market trigger retry answers placement.orders
      (placement.kept.isSome = true) (placement.gaveUp = true) _
      { orders := []
        error := placement.error
        retryable := placement.retryable
        attempts := placement.attempts } ht

/-- A turn of a market without a retry is fresh; one that has a retry is in
the books. -/
theorem place_inOrder (trigger : Trigger) (answers : PlacementAnswers) {b : Bot}
    (hrooted : b.Rooted) :
    InOrder (b.retries.lookup market.slug = none) (s.place market trigger answers) b := by
  have hnone : b.retries.lookup market.slug = none →
      (b.retries.lookup market.slug).isSome = true → b.Closed market.slug := by
    intro hnone hsome
    rw [hnone] at hsome
    cases hsome
  unfold place
  simp only [bind_eq]
  refine safe_andThen (q := fun retry t => t = b ∧ retry = b.retries.lookup market.slug)
    (safe_read _ ⟨rfl, rfl⟩) ?_
  rintro retry t ⟨rfl, rfl⟩
  split
  · exact s.skipMarket_inOrder market _ hnone
  · split
    · exact s.skipMarket_inOrder market _ hnone
    · refine safe_andThen
        (q := fun _ => Bot.Written (t.retries.lookup market.slug = none) market.slug) ?_ ?_
      · unfold prepareFirst
        split
        · rename_i hretry
          refine safe_return () ⟨hrooted _ hretry, fun hfresh => ?_, .inl hretry⟩
          rw [hfresh] at hretry
          cases hretry
        · have hplacing : MarketState.placing ≠ .placementPending := by decide
          have hclosed := Database.closed_prepareMarket t.database s.runId market hplacing
          exact safe_commit _ nofun ⟨hclosed.hasMarket, fun _ => hclosed, .inr hclosed⟩
      · intro _ t' ht'
        split
        · have hrecord : Emits (Effect.KeepsMarkets market.slug)
              (recordOrders market (s.simulatedOrders market) answers.recordTs) :=
            emits_forEach _ fun _ _ => addOrder_emits trivial
          refine safe_andThen ((keepsMarkets_inOrder market hrecord ht').mono (fun _ _ h => h)
            fun _ _ _ => trivial) fun _ t'' _ => safe_commit _ nofun trivial
        · exact s.placeWithFleet_inOrder market _ trigger _ _ answers ht'
        · exact s.placeSolo_inOrder market _ trigger _ answers ht'

theorem considerMarket_inOrder (nowTs : ℤ) (trigger : Trigger) (orderbookReady : Bool)
    (answers : PlacementAnswers) {b : Bot} (hrooted : b.Rooted) :
    Each (fun b' e => Effect.InOrder (b.retries.lookup market.slug = none) b' e) b
      ((s.considerMarket market nowTs trigger orderbookReady answers).commits b) := by
  have hnone : b.retries.lookup market.slug = none →
      (b.retries.lookup market.slug).isSome = true → b.Closed market.slug := by
    intro hnone hsome
    rw [hnone] at hsome
    cases hsome
  obtain ⟨effects, result, hcommits, -, hgoes⟩ :=
    s.considerMarket_goes market nowTs trigger orderbookReady answers b
  rw [hcommits]
  cases hgoes with
  | expired hpast =>
    unfold expireMarket
    refine each_andThen trivial fun retry hretry => ?_
    rw [result_read, Except.ok.injEq] at hretry
    subst hretry
    rw [after_read]
    split
    · trivial
    · exact ⟨hnone, nofun, trivial⟩
  | skipped reason hfree hmisfit => exact (s.skipMarket_inOrder market reason hnone).each
  | placed heligible hfree hfits huncapped hbooks =>
    exact (s.place_inOrder market trigger answers hrooted).each
  | _ => trivial

end Service

end EventQuant
