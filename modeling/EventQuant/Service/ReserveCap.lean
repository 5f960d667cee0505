import EventQuant.Service.AmbiguousPair
import EventQuant.Service.TurnOrders

/-!
The cap on what open entries reserve. A turn asks before it places whether the
plan's two sides still fit below the cap; what it then writes down may come to
more, by a fleet's sizes and members and by the rounding of each order's size.
-/
namespace EventQuant

open Program Store Runs
open Knock (MemberResult AcceptedOrder)

namespace Database

def withRows (db : Database) (rows : List OrderRow) : Database :=
  { db with orders := rows.foldl Table.put db.orders }

theorem activeReservedUsd_congr {db db' : Database} (h : db'.orders = db.orders) (d : Decimals) :
    db'.activeReservedUsd d = db.activeReservedUsd d := by
  unfold activeReservedUsd byStatus
  rw [h]

end Database

/-- What a turn's commits leave of the orders: its rows added to those there
were. -/
theorem Bot.orders_settle {ws : List Effect} (hplain : ∀ e ∈ ws, e.Plain) (b : Bot) :
    (settle b ws).database.orders =
      (b.database.withRows (ws.filterMap Effect.added)).orders := by
  induction ws generalizing b with
  | nil => rfl
  | cons e ws ih =>
    have hrest := ih (fun e' he' => hplain e' (List.mem_cons_of_mem _ he')) (Store.apply b e)
    have hfirst := hplain e List.mem_cons_self
    rw [settle_cons, hrest]
    cases e with
    | write w =>
      cases w with
      | prepareMarket runId m state =>
        have hsame : (b.database.apply (.prepareMarket runId m state)).orders = b.database.orders := by
          simp only [Database.apply]
          split <;> rfl
        change List.foldl Table.put (b.database.apply (.prepareMarket runId m state)).orders _ = _
        rw [hsame]
        rfl
      | setMarketState slug state error => rfl
      | addOrder now slug order => rfl
      | updateOrder orderId status matchedSize => exact absurd hfirst id
      | markOrders orderIds status => exact absurd hfirst id
    | _ => rfl

/-- One turn of a market as far as it came, `done` its commits that were made. -/
structure MarketTurn where
  market : Market
  nowTs : ℤ
  trigger : Trigger
  orderbookReady : Bool
  answers : PlacementAnswers
  done : ℕ

namespace Service

variable (s : Service)

def runTurn (b : Bot) (turn : MarketTurn) : Bot :=
  settle b (((s.considerMarket turn.market turn.nowTs turn.trigger turn.orderbookReady
    turn.answers).commits b).take turn.done)

/-- A turn that places finds room for its rows, however many of them are added:
with them the books reserve no more than the check before it reckoned with. -/
def Fits (b : Bot) (turn : MarketTurn) : Prop :=
  s.places turn.market turn.nowTs turn.orderbookReady turn.answers b.database = true →
    s.late turn.market b turn.trigger turn.answers = false →
      ∀ rows ∈ (s.turnRows turn.market b turn.trigger turn.answers).inits,
        (b.database.withRows rows).activeReservedUsd s.decimals ≤
          s.decimals.add (b.database.activeReservedUsd s.decimals) s.marketReserve

instance (b : Bot) (turn : MarketTurn) : Decidable (s.Fits b turn) :=
  inferInstanceAs (Decidable (_ → _ → ∀ rows ∈ List.inits _, _))

/-- A turn adds its rows where it places, and none where it does not. -/
theorem considerMarket_writes (market : Market) (nowTs : ℤ) (trigger : Trigger)
    (orderbookReady : Bool) (answers : PlacementAnswers) (b : Bot) :
    Writes Effect.added ((s.considerMarket market nowTs trigger orderbookReady answers).commits b)
      (if s.places market nowTs orderbookReady answers b.database then
        s.turnRows market b trigger answers else []) := by
  obtain ⟨effects, result, hcommits, -, hgoes⟩ :=
    s.considerMarket_goes market nowTs trigger orderbookReady answers b
  have hspare : ∀ {α : Type} {a : Action α} {rows : List OrderRow}, Emits Effect.Free a →
      Writes Effect.added (a.commits b) rows := fun ha => ha.writes b
  have hnothing : Emits Effect.Free (return' () : Action Unit) := emits_return ()
  rw [hcommits]
  cases hgoes with
  | expired hpast => exact hspare (expireMarket_emits market (close_free market .expired))
  | skipped reason hfree hmisfit => exact hspare (s.skipMarket_free market reason)
  | placed heligible hfree hmisfit huncapped hbooks =>
    have hplaces : s.places market nowTs orderbookReady answers b.database = true := by
      simp only [places, heligible, hfree, hmisfit, huncapped, hbooks, Bool.not_false, Bool.and_self]
    rw [if_pos hplaces]
    exact s.place_writes market trigger answers b
  | _ => exact hspare hnothing

/-- A turn that fits stays within the cap, wherever it is cut short. -/
theorem runTurn_within {s : Service} {cap : ℚ} (hcap : s.maxReservedUsd = some cap) {b : Bot}
    (h : b.database.activeReservedUsd s.decimals ≤ cap) {turn : MarketTurn} (hfits : s.Fits b turn) :
    (s.runTurn b turn).database.activeReservedUsd s.decimals ≤ cap := by
  have hplain : ∀ e ∈ ((s.considerMarket turn.market turn.nowTs turn.trigger turn.orderbookReady
      turn.answers).commits b).take turn.done, e.Plain := by
    intro e he
    exact (s.considerMarket_ofTurn turn.market turn.nowTs turn.trigger turn.orderbookReady turn.answers
      b e (List.mem_of_mem_take he)).plain
  have hwrites := (s.considerMarket_writes turn.market turn.nowTs turn.trigger turn.orderbookReady
    turn.answers b).take turn.done
  unfold Writes at hwrites
  unfold runTurn
  rw [Database.activeReservedUsd_congr (Bot.orders_settle hplain b)]
  by_cases hplaces : s.places turn.market turn.nowTs turn.orderbookReady turn.answers
      b.database = true
  · rw [if_pos hplaces] at hwrites
    by_cases hlate : s.late turn.market b turn.trigger turn.answers = true
    · unfold turnRows at hwrites
      rw [if_pos hlate, List.prefix_nil] at hwrites
      rw [hwrites]
      exact h
    · rw [Bool.not_eq_true] at hlate
      refine (hfits hplaces hlate _ ((List.mem_inits _ _).mpr hwrites)).trans ?_
      have huncapped : s.capReached b.database turn.answers.dayStart = false := by
        unfold places at hplaces
        simp only [Bool.and_eq_true, Bool.not_eq_true'] at hplaces
        exact hplaces.1.2
      unfold capReached at huncapped
      rw [hcap] at huncapped
      simp only [Option.any_some, Bool.or_eq_false_iff, decide_eq_false_iff_not, not_lt] at huncapped
      exact huncapped.2
  · rw [if_neg hplaces, List.prefix_nil] at hwrites
    rw [hwrites]
    exact h

/-- In every run of turns that each fit, the active reserve stays within the
cap. -/
theorem reserve_within_cap (s : Service) (cap : ℚ) (hcap : s.maxReservedUsd = some cap) (b b' : Bot)
    (hwithin : b.database.activeReservedUsd s.decimals ≤ cap)
    (hrun : Run (Guarded s.Fits s.runTurn) b b') :
    b'.database.activeReservedUsd s.decimals ≤ cap := by
  refine run_preserves (fun b => b.database.activeReservedUsd s.decimals ≤ cap) ?_ hrun hwithin
  rintro b _ ⟨turn, hfits, rfl⟩ h
  exact runTurn_within hcap h hfits

end Service

def OrderRow.reserve (r : OrderRow) : ℚ :=
  if r.side = .buy ∧ r.status ∈ trackedStates then r.price * Database.restingSize .exact r else 0

def Database.NoDebt (db : Database) : Prop := ∀ r ∈ db.orders.rows, 0 ≤ r.reserve

/-- The walk through the states meets every row of them once. -/
theorem Database.byStatus_perm {states : List String} (h : states.Nodup) (db : Database) :
    (db.byStatus states).Perm (db.orders.rows.filter fun r => r.status ∈ states) := by
  have hwalk : ∀ states : List String, states.Nodup →
      (states.flatMap fun status => db.orders.rows.filter fun r => r.status = status).Perm
        (db.orders.rows.filter fun r => r.status ∈ states) := by
    intro states hnodup
    induction states with
    | nil => simp
    | cons status states ih =>
      obtain ⟨hnew, hnodup⟩ := List.nodup_cons.mp hnodup
      have hown : ((db.orders.rows.filter fun r => r.status ∈ status :: states).filter
          fun r => r.status = status) = db.orders.rows.filter fun r => r.status = status := by
        rw [List.filter_filter]
        refine List.filter_congr fun r _ => ?_
        by_cases hr : r.status = status <;> simp [hr]
      have hothers : ((db.orders.rows.filter fun r => r.status ∈ status :: states).filter
          fun r => !decide (r.status = status)) = db.orders.rows.filter fun r => r.status ∈ states := by
        rw [List.filter_filter]
        refine List.filter_congr fun r _ => ?_
        by_cases hr : r.status = status
        · simp [hr, hnew]
        · simp [hr]
      rw [List.flatMap_cons]
      refine ((ih hnodup).append_left _).trans ?_
      rw [← hown, ← hothers]
      exact List.filter_append_perm _ _
  unfold byStatus
  refine (hwalk _ (h.perm (List.perm_insertionSort _ _).symm)).trans (List.Perm.of_eq ?_)
  exact List.filter_congr fun r _ => decide_eq_decide.mpr (List.mem_insertionSort _)

theorem Database.activeReservedUsd_eq (db : Database) :
    db.activeReservedUsd .exact = (db.orders.rows.map OrderRow.reserve).sum := by
  have hstates : trackedStates.Nodup := by decide
  unfold Database.activeReservedUsd
  rw [Decimals.exact_sum, (((db.byStatus_perm hstates).filter _).map _).sum_eq]
  induction db.orders.rows with
  | nil => rfl
  | cons r rows ih =>
    rw [List.map_cons, List.sum_cons, ← ih, List.filter_cons]
    unfold OrderRow.reserve
    by_cases hstatus : r.status ∈ trackedStates
    · by_cases hside : r.side = .buy
      · simp [hstatus, hside]
      · simp [hstatus, hside]
    · simp [hstatus]

/-- A new row counts for itself; one it replaces no longer counts. -/
theorem Database.reserve_put {db : Database} (h : db.NoDebt) {row : OrderRow} (hrow : 0 ≤ row.reserve) :
    (db.withRows [row]).NoDebt ∧
      (db.withRows [row]).activeReservedUsd .exact ≤ db.activeReservedUsd .exact + row.reserve := by
  constructor
  · intro r hr
    rcases (Table.mem_put _ _ _).mp hr with rfl | ⟨hr, -⟩
    · exact hrow
    · exact h r hr
  · rw [Database.activeReservedUsd_eq, Database.activeReservedUsd_eq]
    unfold Database.withRows
    rw [List.foldl_cons, List.foldl_nil]
    unfold Table.put
    rw [List.map_append, List.sum_append, List.map_singleton, List.sum_singleton]
    refine add_le_add ?_ (le_refl _)
    refine List.Sublist.sum_le_sum (List.filter_sublist.map _) fun a ha => ?_
    obtain ⟨r, hr, rfl⟩ := List.mem_map.mp ha
    exact h r hr

theorem Database.reserve_withRows {db : Database} (h : db.NoDebt) {rows : List OrderRow}
    (hrows : ∀ r ∈ rows, 0 ≤ r.reserve) :
    (db.withRows rows).activeReservedUsd .exact ≤
      db.activeReservedUsd .exact + (rows.map OrderRow.reserve).sum := by
  induction rows generalizing db with
  | nil =>
    rw [List.map_nil, List.sum_nil, add_zero]
    exact le_refl _
  | cons row rows ih =>
    obtain ⟨hcounts, hfirst⟩ := Database.reserve_put h (hrows row List.mem_cons_self)
    have hrest := ih hcounts fun r hr => hrows r (List.mem_cons_of_mem _ hr)
    calc (db.withRows (row :: rows)).activeReservedUsd .exact
        ≤ (db.withRows [row]).activeReservedUsd .exact + (rows.map OrderRow.reserve).sum := hrest
      _ ≤ db.activeReservedUsd .exact + row.reserve + (rows.map OrderRow.reserve).sum :=
          add_le_add hfirst (le_refl _)
      _ = db.activeReservedUsd .exact + ((row :: rows).map OrderRow.reserve).sum := by
          rw [List.map_cons, List.sum_cons, add_assoc]

/-- An order of a positive price and size counts for its cost at most. -/
theorem PlacedOrder.reserve_bounds {o : PlacedOrder} (hprice : 0 ≤ o.price) (hsize : 0 ≤ o.size)
    (now : ℤ) (slug : String) : 0 ≤ (Database.orderRow now slug o).reserve ∧
      (Database.orderRow now slug o).reserve ≤ o.price * o.size := by
  unfold OrderRow.reserve
  split
  · constructor
    · exact mul_nonneg hprice (le_max_left _ _)
    · refine mul_le_mul_of_nonneg_left (max_le hsize ?_) hprice
      have hmatched : 0 ≤ Database.initialMatched o := by
        unfold Database.initialMatched
        split
        · exact hsize
        · exact le_refl 0
      exact sub_le_self _ hmatched
  · exact ⟨le_refl 0, mul_nonneg hprice hsize⟩

/-- At most one order for each side, at the plan's price and size. -/
structure TradePlan.Sides (p : TradePlan) (orders : List PlacedOrder) : Prop where
  two : orders.length ≤ 2
  terms : ∀ o ∈ orders, o.price = p.buyPrice ∧ o.size = p.orderSize .exact

theorem TradePlan.sides_nil (p : TradePlan) : p.Sides [] :=
  ⟨Nat.zero_le 2, fun _ ho => absurd ho List.not_mem_nil⟩

theorem TradePlan.Sides.sublist {p : TradePlan} {orders orders' : List PlacedOrder}
    (h : p.Sides orders) (hsub : orders'.Sublist orders) : p.Sides orders' :=
  ⟨hsub.length_le.trans h.two, fun o ho => h.terms o (hsub.subset ho)⟩

/-- The plan's reserve covers its two sides. -/
theorem TradePlan.Sides.reserve {p : TradePlan} (hvalid : p.Valid) {orders : List PlacedOrder}
    (h : p.Sides orders) (now : ℤ) (slug : String) :
    (∀ r ∈ orders.map (Database.orderRow now slug), 0 ≤ r.reserve) ∧
      ((orders.map (Database.orderRow now slug)).map OrderRow.reserve).sum ≤
        p.marketReserve .exact := by
  have hprice : 0 < p.buyPrice := hvalid.price.1
  have hcost : p.buyPrice * p.orderSize .exact = p.usdPerSide := by
    unfold TradePlan.orderSize
    exact mul_div_cancel₀ _ hprice.ne'
  have hsize : 0 ≤ p.orderSize .exact := div_nonneg hvalid.usd.le hprice.le
  have heach : ∀ r ∈ orders.map (Database.orderRow now slug),
      0 ≤ r.reserve ∧ r.reserve ≤ p.usdPerSide := by
    intro r hr
    obtain ⟨o, ho, rfl⟩ := List.mem_map.mp hr
    obtain ⟨hpriced, hsized⟩ := h.terms o ho
    have hbounds := PlacedOrder.reserve_bounds (o := o) (hpriced ▸ hprice.le) (hsized ▸ hsize) now slug
    rwa [hpriced, hsized, hcost] at hbounds
  refine ⟨fun r hr => (heach r hr).1, ?_⟩
  have hsum := List.sum_le_card_nsmul ((orders.map (Database.orderRow now slug)).map OrderRow.reserve)
    p.usdPerSide fun a ha => by
      obtain ⟨r, hr, rfl⟩ := List.mem_map.mp ha
      exact (heach r hr).2
  rw [List.length_map, List.length_map, nsmul_eq_mul] at hsum
  have htwo : (orders.length : ℚ) ≤ 2 := by exact_mod_cast h.two
  unfold TradePlan.marketReserve
  calc ((orders.map (Database.orderRow now slug)).map OrderRow.reserve).sum
      ≤ orders.length * p.usdPerSide := hsum
    _ ≤ 2 * p.usdPerSide := mul_le_mul_of_nonneg_right htwo hvalid.usd.le
    _ = p.usdPerSide * 2 := mul_comm _ _

def Knock.MemberResult.OnceEach (outcome : MemberResult) : Prop :=
  (outcome.accepted.map AcceptedOrder.outcome).Nodup

/-- Whatever a knock comes to, it names each member's legs once. -/
theorem Knock.World.Reachable.onceEach {plan : Knock.Plan} {w : Knock.World}
    (h : Knock.World.Reachable plan w)
    (hlegs : ∀ m ∈ plan.members, (m.legs.map Knock.Leg.outcome).Nodup) :
    ∀ outcome ∈ w.run.result, outcome.OnceEach := by
  intro outcome houtcome
  obtain ⟨state, hstate, rfl⟩ := List.mem_map.mp houtcome
  obtain ⟨t, ht, rfl⟩ := List.mem_map.mp hstate
  obtain ⟨i, hi⟩ := List.getElem?_of_mem ht
  obtain ⟨m, -, -, hrun⟩ := h.track hi
  have hregistrations := Knock.Track.run_registrations hrun
  have hplan : t.state.plan ∈ plan.members := h.plans ▸ List.mem_map_of_mem (f := fun t => t.state.plan) ht
  have hsub : ∀ legs : List Knock.Leg,
      List.Sublist ((legs.filterMap fun leg => t.state.accepted.lookup leg.outcome).map
        AcceptedOrder.outcome) (legs.map Knock.Leg.outcome) := by
    intro legs
    induction legs with
    | nil => exact List.Sublist.refl []
    | cons leg legs ih =>
      rw [List.filterMap_cons, List.map_cons]
      cases hlookup : t.state.accepted.lookup leg.outcome with
      | none => exact ih.cons _
      | some a =>
        simp only [List.map_cons]
        rw [hregistrations.named _ _ hlookup]
        exact ih.cons_cons _
  exact (hlegs _ hplan).sublist (hsub t.state.plan.legs)

theorem Exchange.entrySpecifications_length (x : Exchange) (market : Market) :
    (x.entrySpecifications market).length ≤ 2 := by
  unfold entrySpecifications
  split <;> simp

/-- A settled entry's orders are at its own price and size. -/
theorem Exchange.settleEntry_terms {x : Exchange} {entry : Entry} {outcome : MemberResult}
    {cancel : Except Exn Unit} {b : Bot} {r : PlacementResult}
    (h : (x.settleEntry entry outcome cancel).result b = .ok r) :
    ∀ o ∈ r.orders, o.price = entry.price ∧ o.size = entry.size := by
  intro o ho
  obtain ⟨a, -, hplaced⟩ := Results.exists_source (x.settleEntry_returned entry outcome cancel b r h).1 ho
  unfold acceptedOrder at hplaced
  split at hplaced
  · cases hplaced
  · obtain rfl := Except.ok.inj hplaced
    exact ⟨rfl, rfl⟩

/-- With a leg registered once, they are no more than its legs. -/
theorem Exchange.settleEntry_length {x : Exchange} {entry : Entry} {outcome : MemberResult}
    {cancel : Except Exn Unit} {b : Bot} {r : PlacementResult} (honce : outcome.OnceEach)
    (h : (x.settleEntry entry outcome cancel).result b = .ok r) :
    r.orders.length ≤ entry.specifications.length := by
  have hmapM := (x.settleEntry_returned entry outcome cancel b r h).1
  have hlegs : outcome.accepted.map AcceptedOrder.outcome ⊆ entry.legs.map Knock.Leg.outcome := by
    intro name hname
    obtain ⟨a, ha, rfl⟩ := List.mem_map.mp hname
    obtain ⟨o, -, hplaced⟩ := Results.exists_result hmapM ha
    exact (x.acceptedOrder_status entry a o hplaced).2
  have hlength := (List.subperm_of_subset honce hlegs).length_le
  rw [entry.paired, List.length_map, List.length_map] at hlength
  rw [← (Results.forall₂_of_mapM hmapM).length_eq]
  exact hlength

def SoloAnswers.OnceEach (answers : SoloAnswers) : Prop :=
  ∀ outcomes, answers.knock = .ok outcomes → ∀ outcome ∈ outcomes, outcome.OnceEach

/-- The adopted orders are one for each leg at most. -/
theorem Exchange.adoptedOrders_terms (x : Exchange) (market : Market) (price size : ℚ)
    (openOrders : Except Exn (List Python.Value)) :
    (x.adoptedOrders market price size openOrders).length ≤ 2 ∧
      ∀ o ∈ x.adoptedOrders market price size openOrders, o.price = price ∧ o.size = size := by
  have hnone : ([] : List PlacedOrder).length ≤ 2 ∧
      ∀ o ∈ ([] : List PlacedOrder), o.price = price ∧ o.size = size :=
    ⟨Nat.zero_le 2, fun _ ho => absurd ho List.not_mem_nil⟩
  unfold adoptedOrders
  simp only
  split
  · exact hnone
  · rename_i found _
    split
    · cases hadopt : x.adoptPair price size ((Python.dict ((x.entrySpecifications market).map
          Prod.swap)).map fun leg => (leg, found.filter fun row => row.tokenId = leg.1)) with
      | none => exact hnone
      | some orders =>
        rw [Option.getD_some]
        unfold adoptPair at hadopt
        constructor
        · rw [← (Results.forall₂_of_mapM_some hadopt).length_eq, List.length_map]
          have hkeys := Python.dict_keys ((x.entrySpecifications market).map Prod.swap)
          have hlength := (List.subperm_of_subset hkeys.1 fun k hk => (hkeys.2 k).mp hk).length_le
          simp only [List.length_map] at hlength
          exact hlength.trans (x.entrySpecifications_length market)
        · intro o ho
          obtain ⟨leg, -, hadopted⟩ := Results.exists_source_some hadopt ho
          obtain ⟨row, -, hadopted⟩ := Option.bind_eq_some_iff.mp hadopted
          obtain ⟨orderId, -, rfl⟩ := Option.map_eq_some_iff.mp hadopted
          exact ⟨rfl, rfl⟩
    · exact hnone

namespace Service

variable (s : Service) (market : Market)

theorem simulatedOrders_sides (hexact : s.decimals = .exact) :
    s.plan.Sides (s.simulatedOrders market) := by
  unfold simulatedOrders
  refine ⟨?_, fun o ho => ?_⟩
  · rw [List.length_map]
    exact s.solo.entrySpecifications_length market
  · obtain ⟨leg, -, rfl⟩ := List.mem_map.mp ho
    exact ⟨rfl, congrArg s.plan.orderSize hexact⟩

/-- However one account's submission ends, its orders are the plan's sides. -/
theorem soloOrders_sides (hexact : s.decimals = .exact) {x : Exchange} {answers : SoloAnswers}
    (honce : answers.OnceEach) (b : Bot) : s.plan.Sides (s.soloOrders market x b answers) := by
  have hsize : s.orderSize = s.plan.orderSize .exact := congrArg s.plan.orderSize hexact
  unfold soloOrders
  cases hdual : s.dualResult market x b answers with
  | error e =>
    cases e with
    | other kind message => exact s.plan.sides_nil
    | ambiguousPlacement message retryable attempts =>
      obtain ⟨htwo, hterms⟩ :=
        x.adoptedOrders_terms market s.plan.buyPrice s.orderSize answers.openOrders
      exact ⟨htwo, fun o ho => hsize ▸ hterms o ho⟩
  | ok result =>
    have hreturned : (s.placeDual x market answers).result b = .ok result :=
      (s.placeDual_result market x answers b).trans hdual
    obtain ⟨prepared, hprepared, h⟩ := andThen_returned hreturned
    cases prepared with
    | inr result' =>
      obtain rfl := Except.ok.inj h
      simp only
      rw [(Fleet.prepareEntry_idle hprepared).1]
      exact s.plan.sides_nil
    | inl entry =>
      obtain ⟨bodies, hentry⟩ := Exchange.prepareEntry_entry hprepared
      obtain ⟨hprice, hentered, hspecs⟩ := Exchange.entry_terms hentry
      simp only at h
      split at h
      · cases h
      · obtain ⟨_, -, h⟩ := andThen_returned h
        obtain ⟨outcomes, houtcomes, h⟩ := andThen_returned h
        rw [result_answer] at houtcomes
        cases outcomes with
        | nil => cases h
        | cons outcome outcomes =>
          have hlength := Exchange.settleEntry_length (honce _ houtcomes outcome List.mem_cons_self) h
          refine ⟨hlength.trans (hspecs ▸ x.entrySpecifications_length market), fun o ho => ?_⟩
          rw [← hprice, ← hsize, ← hentered]
          exact Exchange.settleEntry_terms h o ho

/-- In exact decimals a turn of one account always fits, and so does one of a
dry run. -/
theorem fits_alone (hexact : s.decimals = .exact) (hplan : s.plan.validate .exact = .ok ())
    (hfleet : s.fleet = none) {b : Bot} (hcounts : b.database.NoDebt) {turn : MarketTurn}
    (honce : turn.answers.solo.OnceEach) : s.Fits b turn := by
  intro _ _ rows hrows
  have hvalid : s.plan.Valid := TradePlan.valid_of_validate hplan
  obtain ⟨orders, hsides, horders⟩ : ∃ orders, s.plan.Sides orders ∧
      rows = orders.map (Database.orderRow turn.answers.recordTs turn.market.slug) := by
    have hprefix := (List.mem_inits _ _).mp hrows
    unfold turnRows at hprefix
    split at hprefix
    · exact ⟨[], s.plan.sides_nil, List.prefix_nil.mp hprefix⟩
    · have hsides : s.plan.Sides (s.placeOrders turn.market b turn.answers) := by
        unfold placeOrders
        rw [hfleet]
        cases s.exchange with
        | none => exact s.simulatedOrders_sides turn.market hexact
        | some x => exact s.soloOrders_sides turn.market hexact honce b
      obtain ⟨orders, hfirst, rfl⟩ := List.prefix_map_iff.mp hprefix
      exact ⟨orders, hsides.sublist hfirst.sublist, rfl⟩
  obtain ⟨hnonneg, hsum⟩ := hsides.reserve hvalid turn.answers.recordTs turn.market.slug
  unfold marketReserve
  rw [hexact, Decimals.exact_add]
  subst horders
  exact (Database.reserve_withRows hcounts hnonneg).trans (add_le_add (le_refl _) hsum)

end Service

def stepFleet : Fleet where
  members := [⟨pairExchange, 10, 0⟩, ⟨{ pairExchange with account := "second" }, 12, 10⟩]
  keepBest := true
  nonempty := by decide
  distinct := by decide

def stepService : Service where
  plan := ⟨1 / 10, [], 1⟩
  decimals := .context
  maxReservedUsd := some 2
  maxDailyFilledCost := none
  cancelBeforeEndSeconds := 0
  live := true
  entrySubmission := .single
  placementIntervalMs := 20
  codec := pairExchange.codec
  runId := 1
  runStartedTs := 0
  fleet := some stepFleet
  fleetLive := fun _ => rfl
  fleetBuyOnly := fun _ => rfl
  fleetMode := by
    intro f hf m hm
    obtain rfl := Option.some.inj hf
    rcases List.mem_cons.mp hm with rfl | hm
    · rfl
    · rw [List.mem_singleton.mp hm]
      rfl

def noneRegistered (account : String) : MemberResult :=
  { upRegistered account "0xa1" 100 with accepted := [], registeredMs := none, gaveUp := true }

def stepTurn (first second : MemberResult) : MarketTurn where
  market := pairMarket
  nowTs := 0
  trigger := .gamma
  orderbookReady := true
  answers := { pairTurn first [] with fleet := pairFleetAnswers first second }
  done := 100

theorem reserve_within_cap_first :
    (stepService.runTurn (Bot.boot Database.empty) (stepTurn (bothRegistered "primary")
      (noneRegistered "second"))).database.activeReservedUsd .context ≤ 2 := by
  refine stepService.reserve_within_cap 2 rfl (Bot.boot Database.empty) _ (by decide +kernel)
    (.single ⟨_, ?_, rfl⟩)
  decide +kernel

/-- Where the second member is the one that registers, its sides come to more
than the cap. -/
theorem reserve_within_cap_second :
    stepService.plan.validate .context = .ok () ∧ stepService.maxReservedUsd = some 2 ∧
    ¬ ∀ b', Run (fun b b' => ∃ turn, stepService.runTurn b turn = b') (Bot.boot Database.empty) b' →
      b'.database.activeReservedUsd .context ≤ 2 := by
  refine ⟨by decide +kernel, rfl, fun h => ?_⟩
  have hover : ¬ (stepService.runTurn (Bot.boot Database.empty) (stepTurn (noneRegistered "primary")
      (bothRegistered "second"))).database.activeReservedUsd .context ≤ 2 := by
    decide +kernel
  exact hover (h _ (.single ⟨_, rfl⟩))

def roundedService : Service :=
  { pairService with plan := ⟨3 / 100, [], 35 / 100⟩, maxReservedUsd := some (7 / 10) }

/-- One account's two sides come to more than their cost by the rounding of
their size. -/
theorem reserve_rounded :
    (roundedService.runTurn (Bot.boot Database.empty) (stepTurn (bothRegistered "primary")
      (noneRegistered "second"))).database.activeReservedUsd .context =
        7 / 10 + 2 / 10 ^ 28 := by
  decide +kernel

end EventQuant
