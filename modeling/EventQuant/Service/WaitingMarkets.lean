import EventQuant.Service.VenueList

/-!
A market that waits for its next attempt: a retry is kept for it, its row says
pending and no order is written down for it. Other markets' turns, the sweeps
and the drains leave it so; a drain only where it adopts no order for it.
-/
namespace EventQuant

open Program Store Python

def Bot.Waits (b : Bot) (slug : String) : Prop := (b.retries.lookup slug).isSome = true

instance (b : Bot) (slug : String) : Decidable (b.Waits slug) :=
  inferInstanceAs (Decidable (_ = true))

def Database.NoOrders (db : Database) (slug : String) : Prop :=
  ∀ r ∈ db.orders.rows, r.slug ≠ slug

instance (db : Database) (slug : String) : Decidable (db.NoOrders slug) :=
  inferInstanceAs (Decidable (∀ r ∈ db.orders.rows, _))

/-- The books let the market be placed again. -/
structure Bot.Pending (b : Bot) (slug : String) : Prop where
  state : ∃ row, b.database.markets.get? slug = some row ∧ row.state = .placementPending
  empty : b.database.NoOrders slug

theorem Bot.Pending.canStart {b : Bot} {slug : String} (h : b.Pending slug) :
    b.database.canStartEntryPlan slug = true := by
  obtain ⟨row, hrow, hstate⟩ := h.state
  have hnone : b.database.orders.rows.any (fun r => r.slug = slug) = false := by
    rw [List.any_eq_false]
    intro r hr
    simpa using h.empty r hr
  simp [Database.canStartEntryPlan, hrow, hstate, hnone]

/-- What lets a plan start is a market no order is written down for. -/
theorem Database.noOrders_of_canStart {db : Database} {slug : String} (hlinked : db.Linked)
    (h : db.canStartEntryPlan slug = true) : db.NoOrders slug := by
  intro r hr hslug
  unfold canStartEntryPlan at h
  cases hrow : db.markets.get? slug with
  | none =>
    have hmarket := hlinked r.orderId r (Table.get?_of_mem hr)
    rw [hslug, hasMarket, hrow] at hmarket
    cases hmarket
  | some row =>
    rw [hrow] at h
    simp only [Bool.and_eq_true, Bool.not_eq_true', List.any_eq_false, decide_eq_true_eq] at h
    exact h.2 r hr hslug

/-- The effect touches neither the market's row nor its retry, writes no order
of it and leaves the queue what it has. -/
def Effect.Spares (slug : String) : Effect → Prop
  | .write (.prepareMarket _ m _) => m.slug ≠ slug
  | .write (.setMarketState slug' _ _) => slug' ≠ slug
  | .write (.addOrder _ slug' _) => slug' ≠ slug
  | .setRetry slug' _ => slug' ≠ slug
  | .popRetry slug' => slug' ≠ slug
  | .takeActivations => False
  | _ => True

/-- Nothing of the market changed between the two, and nothing left the queue. -/
structure Bot.Kept (slug : String) (b b' : Bot) : Prop where
  retry : b'.retries.lookup slug = b.retries.lookup slug
  market : b'.database.markets.get? slug = b.database.markets.get? slug
  empty : b.database.NoOrders slug → b'.database.NoOrders slug
  queue : b.activations ⊆ b'.activations

namespace Bot.Kept

variable {slug : String} {b b' b'' : Bot}

theorem refl (b : Bot) : Kept slug b b := ⟨rfl, rfl, id, fun _ h => h⟩

theorem trans (h : Kept slug b b') (h' : Kept slug b' b'') : Kept slug b b'' where
  retry := h'.retry.trans h.retry
  market := h'.market.trans h.market
  empty := h'.empty ∘ h.empty
  queue := List.Subset.trans h.queue h'.queue

theorem waits_iff (h : Kept slug b b') : b'.Waits slug ↔ b.Waits slug := by
  unfold Waits
  rw [h.retry]

theorem pending (h : Kept slug b b') (hb : b.Pending slug) : b'.Pending slug where
  state := by
    rw [h.market]
    exact hb.state
  empty := h.empty hb.empty

end Bot.Kept

theorem Effect.Spares.kept {slug : String} {e : Effect} (h : e.Spares slug) (b : Bot) :
    Bot.Kept slug b (Store.apply b e) := by
  have hmarket : ∀ slug' (f : MarketRow → MarketRow) (hf : ∀ r, (f r).slug = r.slug), slug' ≠ slug →
      (b.database.updateMarket slug' f hf).markets.get? slug = b.database.markets.get? slug := by
    intro slug' f hf hother
    rw [Database.market_updateMarket]
    simp only [if_neg (Ne.symm hother), Option.map_id']
  have hupdate : ∀ orderIds (f : OrderRow → OrderRow) (hf : ∀ r, (f r).orderId = r.orderId),
      (∀ r, (f r).slug = r.slug) → b.database.NoOrders slug →
        (b.database.updateOrders orderIds f hf).NoOrders slug := by
    intro orderIds f hf hslug hempty r hr
    obtain ⟨r', hr', rfl⟩ := List.mem_map.mp hr
    split
    · rw [hslug]
      exact hempty r' hr'
    · exact hempty r' hr'
  cases e with
  | write w =>
    cases w with
    | prepareMarket runId m state =>
      refine ⟨rfl, ?_, fun hempty => ?_, fun _ hu => hu⟩
      · show (b.database.apply (.prepareMarket runId m state)).markets.get? slug = _
        simp only [Database.apply]
        split
        · exact hmarket _ _ _ h
        · exact (Table.get?_put _ _ _).trans (if_neg h)
      · show (b.database.apply (.prepareMarket runId m state)).NoOrders slug
        simp only [Database.apply]
        split
        · exact hempty
        · exact hempty
    | setMarketState slug' state error =>
      exact ⟨rfl, hmarket _ _ _ h, fun hempty => hempty, fun _ hu => hu⟩
    | addOrder now slug' order =>
      refine ⟨rfl, rfl, fun hempty r hr => ?_, fun _ hu => hu⟩
      rcases (Table.mem_put _ _ _).mp hr with hnew | ⟨hold, -⟩
      · rw [hnew]
        exact h
      · exact hempty r hold
    | updateOrder orderId status matchedSize =>
      exact ⟨rfl, rfl, hupdate _ _ _ fun _ => rfl, fun _ hu => hu⟩
    | markOrders orderIds status =>
      exact ⟨rfl, rfl, hupdate _ _ _ fun _ => rfl, fun _ hu => hu⟩
  | setRetry slug' retry =>
    exact ⟨AList.lookup_insert_ne (Ne.symm h), rfl, fun hempty => hempty, fun _ hu => hu⟩
  | popRetry slug' =>
    exact ⟨AList.lookup_erase_ne (Ne.symm h), rfl, fun hempty => hempty, fun _ hu => hu⟩
  | enqueue update =>
    exact ⟨rfl, rfl, fun hempty => hempty, fun _ hu => List.mem_append_left _ hu⟩
  | takeActivations => exact absurd h id
  | _ => exact ⟨rfl, rfl, fun hempty => hempty, fun _ hu => hu⟩

/-- Effects that each spare the market keep it. -/
theorem Bot.kept_settle {slug : String} {b : Bot} {effects : List Effect}
    (h : ∀ e ∈ effects, e.Spares slug) : Bot.Kept slug b (settle b effects) := by
  have heach : Each (fun _ e => e.Spares slug) b effects := each_of_forall h fun _ he _ => he
  exact heach.relates (Bot.Kept slug) .refl (fun _ _ _ => .trans) fun b _ he => he.kept b

/-- Another market's turn spares the market. -/
theorem Effect.OfTurn.spares {market : Market} {slug : String} (hother : market.slug ≠ slug)
    {e : Effect} (h : e.OfTurn market) : e.Spares slug := by
  cases e with
  | write w =>
    cases w with
    | prepareMarket runId m state =>
      obtain ⟨rfl, -⟩ : m = market ∧ _ := h
      exact hother
    | setMarketState slug' state error =>
      obtain rfl : slug' = market.slug := h
      exact hother
    | addOrder now slug' order =>
      obtain rfl : slug' = market.slug := h
      exact hother
    | updateOrder orderId status matchedSize => trivial
    | markOrders orderIds status => trivial
  | setRetry slug' retry =>
    obtain rfl : slug' = market.slug := h
    exact hother
  | popRetry slug' =>
    obtain rfl : slug' = market.slug := h
    exact hother
  | takeActivations => exact absurd h id
  | _ => trivial

namespace Service

variable (s : Service)

def adoptsInto (db : Database) (raw : Value) : Option String :=
  match s.adoptable db raw with
  | .ok (some (slug, _)) => some slug
  | _ => none

/-- The markets are the same, and no order that had a row is without one. -/
structure Grown (db db' : Database) : Prop where
  markets : db'.markets = db.markets
  orders : ∀ orderId, db'.order orderId = none → db.order orderId = none

variable {s}

/-- What the books take after some adoptions, they would have taken before. -/
theorem Grown.adoptsInto {db db' : Database} (h : Grown db db') {raw : Value} {slug : String}
    {o : PlacedOrder} (hadopts : s.adoptable db' raw = .ok (some (slug, o))) :
    s.adoptsInto db raw = some slug := by
  obtain ⟨market, -, hadopted⟩ := adoptable_some hadopts
  have hunknown : db'.order ((listedId raw).str s.codec) = none := hadopted.named.2 ▸ hadopted.unknown
  have hsame : s.adoptable db raw = .ok (some (slug, o)) := by
    rw [← hadopts]
    refine (adoptable_congr h.markets ?_).symm
    rw [hunknown, h.orders _ hunknown]
  unfold Service.adoptsInto
  rw [hsame]

theorem adoptOpenOrder_grown (nowTs : ℤ) (raw : Value) {db : Database} {t : Bot}
    (h : Grown db t.database) : Grown db ((s.adoptOpenOrder nowTs raw).after t).database where
  markets := (adoptOpenOrder_markets nowTs raw t).trans h.markets
  orders := by
    intro orderId hnone
    rw [adoptOpenOrder_after] at hnone
    split at hnone
    · rw [Database.order_put] at hnone
      split at hnone
      · cases hnone
      · exact h.orders orderId hnone
    · exact h.orders orderId hnone

theorem adoptOpenOrder_spares (nowTs : ℤ) {raw : Value} {slug : String} {db : Database} {t : Bot}
    (h : Grown db t.database) (hnone : s.adoptsInto db raw ≠ some slug) :
    Each (fun _ e => e.Spares slug) t ((s.adoptOpenOrder nowTs raw).commits t) := by
  unfold adoptOpenOrder Action.query
  refine each_handle ?_ fun _ _ => trivial
  refine each_andThen trivial fun found hfound => each_andThen trivial fun order horder => ?_
  simp only [result_read, Except.ok.injEq] at hfound
  simp only [result_answer] at horder
  split
  · trivial
  · rename_i slug' order
    have hother : slug' ≠ slug := by
      rintro rfl
      exact hnone (h.adoptsInto (hfound.trans horder))
    refine each_andThen ?_ fun _ _ => trivial
    have hadd : Emits (fun e => e.Spares slug) (Action.addOrder nowTs slug' order) :=
      addOrder_emits hother
    exact hadd.each (fun _ he _ => he) _

/-- A drained update spares a market that none of its listed orders is taken
for. -/
theorem drainReconciliationUpdate_spares (nowTs : ℤ) {update : ReconciliationUpdate} {slug : String}
    {db : Database} {t : Bot} (h : Grown db t.database)
    (hnone : update.batchError = none → ∀ raw ∈ update.openRows, s.adoptsInto db raw ≠ some slug) :
    Safe (fun _ e => e.Spares slug) (s.drainReconciliationUpdate nowTs update)
      (fun _ t' => Grown db t'.database) (fun _ _ => True) t := by
  have hreport : ∀ result, Emits (fun e => e.Spares slug ∧ ∀ t : Bot, Grown db t.database →
      Grown db (Store.apply t e).database) (s.drainReconciledOrder result) := by
    intro result
    refine s.drainReconciledOrder_emits (fun orderId status matched => ⟨trivial, fun t ht => ?_⟩) result
    refine ⟨ht.markets, fun orderId' hnone => ht.orders orderId' ?_⟩
    change (t.database.updateOrders _ _ _).order orderId' = none at hnone
    rw [Database.order_updateOrders, Option.map_eq_none_iff] at hnone
    exact hnone
  unfold drainReconciliationUpdate
  split
  · exact safe_return false h
  · rename_i hbatch
    rw [Option.isSome_iff_ne_none, not_not] at hbatch
    refine safe_andThen (q := fun _ t' => Grown db t'.database) ?_ fun _ t' ht' => ?_
    · refine (safe_collect (fun t' => Grown db t'.database) (fun _ _ _ => True) ?_ h).mono
        (fun _ _ hend => hend.1) fun _ _ => id
      intro raw hraw t' ht'
      exact ⟨adoptOpenOrder_spares nowTs ht' (hnone hbatch raw hraw),
        fun _ _ => ⟨adoptOpenOrder_grown nowTs raw ht', trivial, fun _ _ _ => trivial⟩,
        fun _ _ => trivial⟩
    · have hall := emits_collect update.orders fun result _ => hreport result
      have hsafe : Safe (fun _ e => e.Spares slug) (collect update.orders s.drainReconciledOrder)
          (fun _ t => Grown db t.database) (fun _ t => Grown db t.database) t' :=
        hall.safe (fun t => Grown db t.database) (fun e he t ht => ⟨he.1, he.2 t ht⟩) ht'
      exact safe_andThen (hsafe.mono (fun _ _ h => h) fun _ _ _ => trivial) fun _ _ ht'' =>
        safe_return _ ht''

variable (s)

/-- A pass over the exits is one over other markets' orders. -/
theorem exitsAfter_spares {slug : String} (changed : Bool) (nowTs : ℤ) (answers : LadderAnswers)
    {t : Bot} (hempty : t.database.NoOrders slug) :
    Each (fun _ e => e.Spares slug) t ((s.exitsAfter changed nowTs answers).commits t) := by
  unfold exitsAfter
  split
  · rename_i x _
    split
    · have hladder : AllowsLadder x (fun e => e.Spares slug) (fun row => row.slug ≠ slug) answers :=
        ⟨fun _ _ _ => trivial, fun _ hrow _ _ _ _ _ => hrow, fun _ hrow _ => hrow⟩
      refine each_of_forall (hladder.placeMissingExits s nowTs fun entry hentry => ?_) fun _ he _ => he
      exact hempty entry.1 (Table.get?_mem (Database.mem_entryOrdersWithFills.mp hentry).1)
    · trivial
  · trivial

/-- Reconciliation keeps a market it adopts no order for. -/
theorem drainReconciliationUpdates_kept {updates : List ReconciliationUpdate} (nowTs : ℤ)
    (answers : LadderAnswers) {slug : String} {b : Bot} (hempty : b.database.NoOrders slug)
    (hnone : ∀ update ∈ updates, update.batchError = none →
      ∀ raw ∈ update.openRows, s.adoptsInto b.database raw ≠ some slug) :
    Bot.Kept slug b ((s.drainReconciliationUpdates updates nowTs answers).after b) := by
  have hdrains : Safe (fun _ e => e.Spares slug) (collect updates (s.drainReconciliationUpdate nowTs))
      (fun as t => Grown b.database t.database ∧ List.Forall₂ (fun _ _ => True) updates as ∧
        ∀ (_ : ReconciliationUpdate) (_ : Bool), True → True) (fun _ _ => True) b :=
    safe_collect (fun t => Grown b.database t.database) (fun _ _ _ => True)
    (fun update hupdate t ht => (drainReconciliationUpdate_spares nowTs ht (hnone update hupdate)).mono
      (fun _ _ h => ⟨h, trivial, fun _ _ _ => trivial⟩) fun _ _ _ => trivial) ⟨rfl, fun _ h => h⟩
  have hall : Each (fun _ e => Effect.Spares slug e) b
      ((s.drainReconciliationUpdates updates nowTs answers).commits b) := by
    refine each_andThen hdrains.each fun changed _ => s.exitsAfter_spares _ nowTs answers ?_
    exact hdrains.each.preserves (fun t => t.database.NoOrders slug)
      (fun t e he ht => (he.kept t).empty ht) hempty
  exact hall.relates (Bot.Kept slug) .refl (fun _ _ _ => .trans) fun t _ he => he.kept t

theorem drainUserStreamUpdates_kept (updates : List (Bool × StreamUpdate)) (nowTs : ℤ)
    (answers : LadderAnswers) {slug : String} {b : Bot} (hempty : b.database.NoOrders slug) :
    Bot.Kept slug b ((s.drainUserStreamUpdates updates nowTs answers).after b) := by
  have hreports : Emits (fun e => e.Spares slug)
      (collect updates fun update => drainStreamUpdate update.1 update.2) :=
    emits_collect _ fun update _ => drainStreamUpdate_emits (fun _ _ _ => trivial) update.1 update.2
  have heach : Each (fun _ e => Effect.Spares slug e) b
      ((collect updates fun update => drainStreamUpdate update.1 update.2).commits b) :=
    hreports.each (fun _ he _ => he) b
  have hall : Each (fun _ e => Effect.Spares slug e) b
      ((s.drainUserStreamUpdates updates nowTs answers).commits b) := by
    refine each_andThen heach fun drained _ => each_andThen ?_ fun _ _ => trivial
    refine s.exitsAfter_spares _ nowTs answers ?_
    exact heach.preserves (fun t => t.database.NoOrders slug)
      (fun t e he ht => (he.kept t).empty ht) hempty
  exact hall.relates (Bot.Kept slug) .refl (fun _ _ _ => .trans) fun t _ he => he.kept t

/-- A sweep only cancels and marks. -/
theorem cancelDueOrders_kept (nowTs : ℚ) (answers : CancelAnswers) (slug : String) (b : Bot) :
    Bot.Kept slug b ((s.cancelDueOrders nowTs answers).after b) :=
  Bot.kept_settle (s.cancelDueOrders_emits (fun _ _ => trivial) (fun _ _ => trivial) nowTs answers b)

theorem considerMarket_kept {market : Market} (nowTs : ℤ) (trigger : Trigger) (orderbookReady : Bool)
    (answers : PlacementAnswers) {slug : String} (hother : market.slug ≠ slug) (b : Bot) :
    Bot.Kept slug b ((s.considerMarket market nowTs trigger orderbookReady answers).after b) :=
  Bot.kept_settle fun e he =>
    (s.considerMarket_ofTurn market nowTs trigger orderbookReady answers b e he).spares hother

end Service

end EventQuant
