import EventQuant.Service.DeadlineCancel
import EventQuant.Service.ReserveCap
import EventQuant.Service.WaitingMarkets

/-!
How an attempt at a pair leaves its market. Either the market waits again, with
its update back in the queue and nothing written down, or its retry is over;
then every order written down for it stands beside its account's other leg or
was sent its cancel.
-/
namespace EventQuant

open Program Store
open Knock (MemberResult AcceptedOrder)

def pairLegs : List String := ["up", "down"]

def Bot.PairedOrCancelled (b : Bot) (orders : List PlacedOrder) : Prop :=
  ∀ o ∈ orders, (∀ leg ∈ pairLegs, ∃ o' ∈ orders, o'.account = o.account ∧ o'.outcome = leg) ∨
    b.Requested o.orderId

def Database.HasLeg (db : Database) (slug account leg : String) : Prop :=
  ∃ r ∈ db.orders.rows, r.slug = slug ∧ r.account = account ∧ r.outcome = leg

instance (db : Database) (slug account leg : String) : Decidable (db.HasLeg slug account leg) :=
  inferInstanceAs (Decidable (∃ r ∈ db.orders.rows, _))

def Bot.Settled (b : Bot) (slug : String) : Prop :=
  ∀ r ∈ b.database.orders.rows, r.slug = slug →
    (∀ leg ∈ pairLegs, b.database.HasLeg slug r.account leg) ∨ b.Requested r.orderId

instance (b : Bot) (slug : String) : Decidable (b.Settled slug) :=
  inferInstanceAs (Decidable (∀ r ∈ b.database.orders.rows, _))

theorem Bot.settled_of_noOrders {b : Bot} {slug : String} (h : b.database.NoOrders slug) :
    b.Settled slug := fun r hr hslug => absurd hslug (h r hr)

/-- A request stays sent. -/
theorem Bot.Requested.settle {b : Bot} {orderId : String} (h : b.Requested orderId)
    (commits : List Effect) : (settle b commits).Requested orderId :=
  (requested_settle b commits orderId).mpr (.inl h)

/-- Submitting an entry writes nothing down. -/
theorem submits_database {α : Type} {a : Action α} {market : Market}
    (h : Emits (Effect.Submits market) a) (b : Bot) : (a.after b).database = b.database := by
  have heach : Each (fun _ e => e.Submits market) b (a.commits b) := h.each (fun _ he _ => he) b
  refine heach.preserves (fun t => t.database = b.database) (fun t e he ht => ?_) rfl
  cases e with
  | write w => exact absurd he id
  | _ => exact ht

/-- An attempt at the market is over, or there is another one to come. -/
inductive Bot.Concluded (b : Bot) (slug : String) : Prop
  | ended (hretry : ¬ b.Waits slug) (hrow : b.database.hasMarket slug = true)
      (hsettled : b.Settled slug)
  | again (hpending : b.Pending slug) (hqueued : ∃ u ∈ b.activations, u.market.slug = slug)

namespace Service

variable (s : Service) (market : Market)

section Recording

/-- Recording writes each order down in turn. -/
theorem recordOrders_ran {b : Bot} (orders : List PlacedOrder) (now : ℤ)
    (hrow : b.database.hasMarket market.slug = true) :
    (recordOrders market orders now).result b = .ok () ∧
      (recordOrders market orders now).commits b =
        orders.map fun o => .write (.addOrder now market.slug o) := by
  induction orders generalizing b with
  | nil => exact ⟨rfl, rfl⟩
  | cons o orders ih =>
    have hadd : (Action.addOrder now market.slug o).result b = .ok () ∧
        (Action.addOrder now market.slug o).commits b = [.write (.addOrder now market.slug o)] := by
      unfold Action.addOrder Action.query
      simp only [bind_eq]
      rw [result_andThen_ok (result_read b _), commits_andThen_ok (result_read b _), after_read,
        if_pos hrow]
      exact ⟨rfl, rfl⟩
    have hrest := ih (b := (Action.addOrder now market.slug o).after b) (Bot.hasMarket_settle hrow _)
    unfold recordOrders at hrest ⊢
    rw [forEach_cons, result_andThen_ok hadd.1, commits_andThen_ok hadd.1, hadd.2, hrest.2]
    exact ⟨hrest.1, rfl⟩

variable {market}

/-- What was recorded has a row, with ids of their own; every other row is one
from before. -/
theorem mem_recorded {b : Bot} {orders : List PlacedOrder} (now : ℤ)
    (hids : (orders.map PlacedOrder.orderId).Nodup) (r : OrderRow) :
    r ∈ (settle b (orders.map fun o =>
        Effect.write (.addOrder now market.slug o))).database.orders.rows ↔
      (∃ o ∈ orders, r = Database.orderRow now market.slug o) ∨
        r ∈ b.database.orders.rows ∧ ∀ o ∈ orders, o.orderId ≠ r.orderId := by
  induction orders generalizing b with
  | nil => simp
  | cons o orders ih =>
    rw [List.map_cons, List.nodup_cons] at hids
    have hfirst : r ∈ (Store.apply b (Effect.write
        (.addOrder now market.slug o))).database.orders.rows ↔
          r = Database.orderRow now market.slug o ∨
            r ∈ b.database.orders.rows ∧ r.orderId ≠ o.orderId := Table.mem_put _ _ _
    rw [List.map_cons, settle_cons, ih hids.2, hfirst]
    constructor
    · rintro (⟨o', ho', rfl⟩ | ⟨hnew | ⟨hold, hother⟩, hlater⟩)
      · exact .inl ⟨o', List.mem_cons_of_mem _ ho', rfl⟩
      · exact .inl ⟨o, List.mem_cons_self, hnew⟩
      · exact .inr ⟨hold, List.forall_mem_cons.mpr ⟨Ne.symm hother, hlater⟩⟩
    · rintro (⟨o', ho', rfl⟩ | ⟨hold, hother⟩)
      · rcases List.mem_cons.mp ho' with rfl | ho'
        · refine .inr ⟨.inl rfl, fun o'' ho'' hsame => ?_⟩
          exact hids.1 (List.mem_map.mpr ⟨o'', ho'', hsame⟩)
        · exact .inl ⟨o', ho', rfl⟩
      · have hall := List.forall_mem_cons.mp hother
        exact .inr ⟨.inr ⟨hold, Ne.symm hall.1⟩, hall.2⟩

/-- Orders that pair up or were cancelled leave a market without others
settled. -/
theorem recorded_settled {b : Bot} {orders : List PlacedOrder} (now : ℤ)
    (hempty : b.database.NoOrders market.slug) (hids : (orders.map PlacedOrder.orderId).Nodup)
    (hpairs : b.PairedOrCancelled orders) :
    (settle b (orders.map fun o => Effect.write (.addOrder now market.slug o))).Settled
      market.slug := by
  intro r hr hslug
  rcases (mem_recorded now hids r).mp hr with ⟨o, ho, rfl⟩ | ⟨hold, -⟩
  · rcases hpairs o ho with hlegs | hrequested
    · refine .inl fun leg hleg => ?_
      obtain ⟨o', ho', haccount, houtcome⟩ := hlegs leg hleg
      exact ⟨_, (mem_recorded now hids _).mpr (.inl ⟨o', ho', rfl⟩), rfl, haccount, houtcome⟩
    · exact .inr (hrequested.settle _)
  · exact absurd hslug (hempty r hold)

end Recording

section Concluding

variable {market}

theorem not_waits_popRetry (b : Bot) (slug : String) :
    ¬ (Store.apply b (.popRetry slug)).Waits slug := by
  intro h
  change ((b.retries.erase slug).lookup slug).isSome = true at h
  rw [AList.lookup_erase] at h
  cases h

/-- Closing a market ends its retry and changes no order. -/
theorem close_over {b : Bot} (hrow : b.database.hasMarket market.slug = true)
    (hsettled : b.Settled market.slug) (state : MarketState) (error : Option String) :
    ((do
      commit (.popRetry market.slug)
      Action.write (.setMarketState market.slug state error) : Action Unit).after b).Concluded
        market.slug :=
  .ended (not_waits_popRetry b market.slug)
    (Bot.hasMarket_apply hrow (.write (.setMarketState market.slug state error))) hsettled

theorem skipMarket_over {b : Bot} (hsettled : b.Settled market.slug) (reason : String) :
    ((s.skipMarket market reason).after b).Concluded market.slug := by
  have horders : ((s.skipMarket market reason).after b).database.orders = b.database.orders := by
    show (((b.database.apply (.prepareMarket s.runId market .skipped)).apply
      (.setMarketState market.slug .skipped (some reason)))).orders = _
    simp only [Database.apply]
    split
    · rfl
    · rfl
  refine .ended (not_waits_popRetry b market.slug) (s.skipMarket_closes market b reason).hasMarket ?_
  intro r hr hslug
  rw [horders] at hr
  unfold Database.HasLeg
  rw [horders]
  exact hsettled r hr hslug

/-- A market put back in the queue waits, with a row that says so. -/
theorem requeuePlacement_again {b : Bot} {result : PlacementResult} {retry : Option Retry}
    {trigger : Trigger} {answers : PlacementAnswers}
    (hrow : b.database.hasMarket market.slug = true) (hempty : b.database.NoOrders market.slug)
    (hretry : retry.isSome = true → b.Pending market.slug)
    (h : (requeuePlacement market result retry trigger answers).result b = .ok true) :
    ((requeuePlacement market result retry trigger answers).after b).Concluded market.slug := by
  have hqueued := (requeuePlacement_true market h).2.2.activations
  refine .again ?_ ⟨requeuedUpdate market trigger answers, ?_, by rw [requeuedUpdate_market]⟩
  · unfold requeuePlacement at h ⊢
    split at h
    · simp at h
    · rename_i hresult
      rw [if_neg hresult]
      cases retry with
      | none =>
        obtain ⟨row, hmarket⟩ := Option.isSome_iff_exists.mp hrow
        refine ⟨⟨{ row with state := .placementPending, error := result.error }, ?_, rfl⟩, hempty⟩
        show (b.database.updateMarket market.slug
          (fun r => { r with state := .placementPending, error := result.error })
          fun _ => rfl).markets.get? market.slug = _
        rw [Database.market_updateMarket, hmarket, Option.map_some, if_pos rfl]
      | some retry => exact ⟨(hretry rfl).state, hempty⟩
  · rw [hqueued]
    exact List.mem_append_right _ (List.mem_singleton_self _)

/-- A placement whose orders pair up or were cancelled concludes its market. -/
theorem concludePlacement_concluded {trigger : Trigger} {retry : Option Retry}
    {answers : PlacementAnswers} {orders : List PlacedOrder} {kept gaveUp : Prop} [Decidable kept]
    [Decidable gaveUp] {reason : String} {result : PlacementResult} {mid : Bot}
    (hrow : mid.database.hasMarket market.slug = true) (hempty : mid.database.NoOrders market.slug)
    (hretry : retry.isSome = true → mid.Pending market.slug)
    (hids : (orders.map PlacedOrder.orderId).Nodup) (hpairs : mid.PairedOrCancelled orders)
    (hnone : result.retryable = true → result.orders = [] → orders = []) :
    ((s.concludePlacement market trigger retry answers orders kept gaveUp reason
      result).after mid).Concluded market.slug := by
  obtain ⟨hrecorded, hcommits⟩ := recordOrders_ran market orders answers.recordTs hrow
  have hsettled := recorded_settled answers.recordTs hempty hids hpairs
  have hbooked : (recordOrders market orders answers.recordTs).after mid =
      settle mid (orders.map fun o => .write (.addOrder answers.recordTs market.slug o)) := by
    rw [after, hcommits]
  have hbookedRow := Bot.hasMarket_settle hrow
    (orders.map fun o => .write (.addOrder answers.recordTs market.slug o))
  unfold concludePlacement
  rw [after_andThen_ok hrecorded, hbooked]
  split
  · exact close_over hbookedRow hsettled .active none
  · split
    · exact s.skipMarket_over hsettled reason
    · set booked := settle mid (orders.map fun o =>
        Effect.write (.addOrder answers.recordTs market.slug o)) with hbooked
      have hreturns : ∃ requeued, (requeuePlacement market result retry trigger answers).result
          booked = .ok requeued := by
        unfold requeuePlacement
        split
        · exact ⟨false, rfl⟩
        · cases retry with
          | none => exact ⟨true, rfl⟩
          | some retry => exact ⟨true, rfl⟩
      obtain ⟨requeued, hrequeued⟩ := hreturns
      rw [after_andThen_ok hrequeued]
      cases requeued with
      | true =>
        obtain ⟨hresult, horders, -⟩ := requeuePlacement_true market hrequeued
        have hsame : booked = mid := by
          rw [hbooked, hnone hresult horders]
          rfl
        rw [hsame] at hrequeued ⊢
        exact requeuePlacement_again hrow hempty hretry hrequeued
      | false =>
        rw [requeuePlacement_false market hrequeued]
        exact close_over hbookedRow hsettled .error result.error

end Concluding

end Service

def Knock.MemberResult.OwnIds (outcome : MemberResult) : Prop :=
  (outcome.accepted.map AcceptedOrder.orderId).Nodup

instance (outcome : MemberResult) : Decidable outcome.OnceEach :=
  inferInstanceAs (Decidable (List.Nodup _))

instance (outcome : MemberResult) : Decidable outcome.OwnIds :=
  inferInstanceAs (Decidable (List.Nodup _))

namespace Exchange

variable {x : Exchange}

def LegsOrCancelled (x : Exchange) (r : PlacementResult) (sent : List Effect) : Prop :=
  (∀ leg ∈ pairLegs, ∃ o ∈ r.orders, o.outcome = leg) ∨
    ∀ o ∈ r.orders, ∃ orderIds, .cancel x.account orderIds ∈ sent ∧ o.orderId ∈ orderIds

theorem acceptedOrder_account {entry : Entry} {order : AcceptedOrder} {placed : PlacedOrder}
    (h : x.acceptedOrder entry order = .ok placed) : placed.account = "" := by
  unfold acceptedOrder at h
  split at h
  · cases h
  · obtain rfl := Except.ok.inj h
    rfl

/-- What settling a pair hands back: both its legs, or orders whose cancel was
sent. -/
theorem settleEntry_legs {entry : Entry} {outcome : MemberResult} {cancel : Except Exn Unit} {b : Bot}
    {r : PlacementResult} (hpair : entry.specifications.map Prod.fst = pairLegs)
    (honce : outcome.OnceEach) (h : (x.settleEntry entry outcome cancel).result b = .ok r) :
    x.LegsOrCancelled r ((x.settleEntry entry outcome cancel).commits b) := by
  have hmapM := (x.settleEntry_returned entry outcome cancel b r h).1
  obtain ⟨hcomplete, hcancel⟩ := x.settleEntry_incomplete entry outcome cancel b r h
  by_cases hnone : r.orders = []
  · rw [LegsOrCancelled, hnone]
    exact .inr fun o ho => absurd ho List.not_mem_nil
  cases hwhole : r.complete with
  | false =>
    refine .inr fun o ho => ⟨_, (hcancel hwhole hnone).2, List.mem_map_of_mem ho⟩
  | true =>
    rw [hwhole] at hcomplete
    have hlength : (outcome.accepted.map AcceptedOrder.outcome).length = pairLegs.length := by
      rw [List.length_map, of_decide_eq_true hcomplete.symm, ← hpair, List.length_map]
    have hsub : outcome.accepted.map AcceptedOrder.outcome ⊆ pairLegs := by
      intro name hname
      obtain ⟨a, ha, rfl⟩ := List.mem_map.mp hname
      obtain ⟨o, -, hplaced⟩ := Results.exists_result hmapM ha
      rw [← hpair, ← entry.paired]
      exact (x.acceptedOrder_status entry a o hplaced).2
    have hperm := (List.subperm_of_subset honce hsub).perm_of_length_le hlength.ge
    refine .inl fun leg hleg => ?_
    obtain ⟨a, ha, rfl⟩ := List.mem_map.mp (hperm.symm.subset hleg)
    obtain ⟨o, ho, hplaced⟩ := Results.exists_result hmapM ha
    exact ⟨o, ho, (x.acceptedOrder_ok entry a o hplaced).2⟩

theorem settleEntry_account {entry : Entry} {outcome : MemberResult} {cancel : Except Exn Unit}
    {b : Bot} {r : PlacementResult} (h : (x.settleEntry entry outcome cancel).result b = .ok r) :
    ∀ o ∈ r.orders, o.account = "" := by
  intro o ho
  obtain ⟨a, -, hplaced⟩ := Results.exists_source (x.settleEntry_returned entry outcome cancel b r h).1 ho
  exact acceptedOrder_account hplaced

/-- A pair found among the open orders is one of both legs, each under an id of
its own; anything else hands back none. -/
theorem reconcileAmbiguousDual_legs {market : Market} {price size : ℚ} {retryableIfMissing : Bool}
    {openOrders : Except Exn (List Python.Value)} {cancel : Except Exn Unit} {b : Bot}
    {r : PlacementResult} (hpaired : x.entrySubmission = .single)
    (htokens : market.upTokenId ≠ market.downTokenId)
    (hlisted : ∀ rows, openOrders = .ok rows → (rows.filterMap (orderIdOf x.codec)).Nodup)
    (h : (x.reconcileAmbiguousDual market price size retryableIfMissing openOrders cancel).result b =
      .ok r) :
    r.orders = [] ∨ r.orders.map PlacedOrder.outcome = pairLegs ∧
      (r.orders.map PlacedOrder.orderId).Nodup ∧ ∀ o ∈ r.orders, o.account = "" := by
  obtain ⟨rows, hrows, hrest⟩ := andThen_returned h
  obtain ⟨found, hfound, -⟩ := andThen_returned hrest
  rw [result_answer] at hrows hfound
  subst hrows
  have hlegs : x.legMatches market found =
      [((market.upTokenId, "up"), found.filter fun row => row.tokenId = market.upTokenId),
        ((market.downTokenId, "down"), found.filter fun row => row.tokenId = market.downTokenId)] := by
    unfold legMatches entrySpecifications
    rw [hpaired]
    simp [Python.dict, Ne.symm htokens]
  cases Exchange.reconcileAmbiguousDual_reconciled hfound h with
  | nameless hone hadopt horders hsent => exact .inl horders
  | cancelled hshape horders hsent => exact .inl horders
  | missing hshape hnothing horders hsent => exact .inl horders
  | adopted hone hadopt herror hexpected hsent =>
    refine .inr ?_
    have hpairs := adoptPair_some hone hadopt
    have haccounts : ∀ o ∈ r.orders, o.account = "" := by
      intro o ho
      obtain ⟨leg, -, hadopted⟩ := Results.exists_source_some hadopt ho
      obtain ⟨row, -, hadopted⟩ := Option.bind_eq_some_iff.mp hadopted
      obtain ⟨orderId, -, rfl⟩ := Option.map_eq_some_iff.mp hadopted
      rfl
    rw [hlegs] at hpairs
    obtain ⟨up, rest, ⟨hup, upRow, hupFound, hupToken, -, hupId⟩, hrest, horders⟩ :=
      List.forall₂_cons_left_iff.mp hpairs
    obtain ⟨down, rest', ⟨hdown, downRow, hdownFound, hdownToken, -, hdownId⟩, hrest', rfl⟩ :=
      List.forall₂_cons_left_iff.mp hrest
    obtain rfl := List.forall₂_nil_left_iff.mp hrest'
    rw [horders] at haccounts ⊢
    have hdistinct : up.orderId ≠ down.orderId := by
      intro hsame
      obtain ⟨hupRaw, hupListed, -⟩ := (exactMatches_mem hfound upRow).mp hupFound
      obtain ⟨hdownRaw, hdownListed, -⟩ := (exactMatches_mem hfound downRow).mp hdownFound
      have hraw := Results.eq_of_nodup_filterMap (hlisted rows rfl) hupRaw hdownRaw hupId
        (hsame ▸ hdownId)
      rw [hraw, hdownListed] at hupListed
      have hrow : downRow = upRow := Except.ok.inj hupListed
      exact htokens (hupToken.symm.trans (hrow ▸ hdownToken))
    have houtcomes : up.outcome = "up" ∧ down.outcome = "down" :=
      ⟨congrArg Prod.fst hup, congrArg Prod.fst hdown⟩
    refine ⟨?_, ?_, haccounts⟩
    · rw [List.map_cons, List.map_cons, List.map_nil, houtcomes.1, houtcomes.2]
      rfl
    · simpa using hdistinct

end Exchange

/-- What a placement of one account is answered, where the knock registers a leg
once and no two orders go by one id. -/
structure SoloAnswers.Sound (codec : Python.Codec) (answers : SoloAnswers) : Prop where
  once : answers.OnceEach
  ids : ∀ outcomes, answers.knock = .ok outcomes → ∀ outcome ∈ outcomes, outcome.OwnIds
  listed : ∀ rows, answers.openOrders = .ok rows → (rows.filterMap (orderIdOf codec)).Nodup

instance (codec : Python.Codec) (answers : SoloAnswers) : Decidable (answers.Sound codec) :=
  decidable_of_iff
    ((∀ outcomes, answers.knock = .ok outcomes →
        ∀ outcome ∈ outcomes, outcome.OnceEach ∧ outcome.OwnIds) ∧
      ∀ rows, answers.openOrders = .ok rows → (rows.filterMap (orderIdOf codec)).Nodup)
    ⟨fun h => ⟨fun outcomes houtcomes o ho => (h.1 outcomes houtcomes o ho).1,
      fun outcomes houtcomes o ho => (h.1 outcomes houtcomes o ho).2, h.2⟩,
    fun h => ⟨fun outcomes houtcomes o ho =>
      ⟨h.once outcomes houtcomes o ho, h.ids outcomes houtcomes o ho⟩, h.listed⟩⟩

namespace Service

variable (s : Service) {market : Market}

/-- However one account's submission ends, its orders are the pair or were sent
their cancel. -/
theorem soloResult_pairs {x : Exchange} (hpaired : x.entrySubmission = .single)
    (htokens : market.upTokenId ≠ market.downTokenId) {answers : SoloAnswers}
    (hsound : answers.Sound x.codec) {b : Bot} {r : PlacementResult}
    (h : (s.soloResult x market answers).result b = .ok r) :
    ((s.soloResult x market answers).after b).PairedOrCancelled r.orders ∧
      (r.orders.map PlacedOrder.orderId).Nodup := by
  have hnone : ∀ b' : Bot, r.orders = [] → b'.PairedOrCancelled r.orders ∧
      (r.orders.map PlacedOrder.orderId).Nodup := by
    intro b' horders
    rw [horders]
    exact ⟨fun o ho => absurd ho List.not_mem_nil, List.nodup_nil⟩
  rcases handle_returned h with ⟨h, hcommits⟩ | ⟨e, -, h⟩
  · obtain ⟨prepared, hprepared, -, hrest, hsub⟩ := ran_andThen h
    cases prepared with
    | inr result =>
      obtain rfl := Except.ok.inj hrest
      exact hnone _ (Fleet.prepareEntry_idle hprepared).1
    | inl entry =>
      obtain ⟨bodies, hentry⟩ := Exchange.prepareEntry_entry hprepared
      have hpair : entry.specifications.map Prod.fst = pairLegs := by
        rw [(Exchange.entry_terms hentry).2.2]
        unfold Exchange.entrySpecifications
        rw [hpaired]
        rfl
      simp only at hrest hsub
      split at hrest
      · cases hrest
      · rename_i hinterval
        rw [if_neg hinterval] at hsub
        obtain ⟨_, -, -, hknocked, hknockedsub⟩ := ran_andThen hrest
        obtain ⟨outcomes, houtcomes, -, hsettled, hsettledsub⟩ := ran_andThen hknocked
        rw [result_answer] at houtcomes
        cases outcomes with
        | nil => cases hsettled
        | cons outcome outcomes =>
          have honce := hsound.once _ houtcomes outcome List.mem_cons_self
          have hids := hsound.ids _ houtcomes outcome List.mem_cons_self
          have haccounts := Exchange.settleEntry_account hsettled
          refine ⟨fun o ho => ?_, ?_⟩
          · rcases Exchange.settleEntry_legs hpair honce hsettled with hlegs | hcancelled
            · refine .inl fun leg hleg => ?_
              obtain ⟨o', ho', houtcome⟩ := hlegs leg hleg
              exact ⟨o', ho', (haccounts o' ho').trans (haccounts o ho).symm, houtcome⟩
            · obtain ⟨orderIds, hsent, hmem⟩ := hcancelled o ho
              refine .inr ((requested_settle b _ o.orderId).mpr (.inr ⟨x.account, orderIds, ?_, hmem⟩))
              unfold soloResult
              rw [hcommits]
              exact hsub (hknockedsub (hsettledsub hsent))
          · rw [x.settleEntry_ids entry outcome _ _ r hsettled]
            exact hids
  · cases e with
    | other kind message =>
      obtain rfl := Except.ok.inj h
      exact hnone _ rfl
    | ambiguousPlacement message retryable attempts =>
      rcases handle_returned h with ⟨h, -⟩ | ⟨e', -, h⟩
      · obtain ⟨result, hresult, h⟩ := andThen_returned h
        obtain rfl := Except.ok.inj h
        rcases Exchange.reconcileAmbiguousDual_legs hpaired htokens hsound.listed hresult with
          horders | ⟨houtcomes, hids, haccounts⟩
        · exact hnone _ horders
        · refine ⟨fun o ho => .inl fun leg hleg => ?_, hids⟩
          rw [← houtcomes] at hleg
          obtain ⟨o', ho', rfl⟩ := List.mem_map.mp hleg
          exact ⟨o', ho', (haccounts o' ho').trans (haccounts o ho).symm, rfl⟩
      · obtain rfl := Except.ok.inj h
        exact hnone _ rfl

theorem placeSolo_concluded {x : Exchange} (hpaired : x.entrySubmission = .single)
    (htokens : market.upTokenId ≠ market.downTokenId) {trigger : Trigger} {retry : Option Retry}
    {answers : PlacementAnswers} (hsound : answers.solo.Sound x.codec) {b : Bot}
    (hrow : b.database.hasMarket market.slug = true) (hempty : b.database.NoOrders market.slug)
    (hretry : retry.isSome = true → b.Pending market.slug)
    (h : (s.placeSolo x market trigger retry answers).result b = .ok ()) :
    ((s.placeSolo x market trigger retry answers).after b).Concluded market.slug := by
  obtain ⟨result, hresult, -⟩ := andThen_returned h
  obtain ⟨hpairs, hids⟩ := s.soloResult_pairs hpaired htokens hsound hresult
  have hafter := after_andThen_ok (f := fun result =>
    s.concludePlacement market trigger retry answers result.orders (result.complete = true)
      (result.gaveUp = true ∧ result.orders = []) "no acceptance within 240 s of knocking" result)
    hresult
  change (s.placeSolo x market trigger retry answers).after b = _ at hafter
  rw [hafter]
  have hsame : ((s.soloResult x market answers.solo).after b).database = b.database :=
    submits_database (s.soloResult_submits x market answers.solo) b
  have hpending : retry.isSome = true →
      ((s.soloResult x market answers.solo).after b).Pending market.slug := fun hsome =>
    ⟨hsame ▸ (hretry hsome).state, hsame ▸ hempty⟩
  exact s.concludePlacement_concluded (hsame ▸ hrow) (hsame ▸ hempty) hpending hids hpairs
    fun _ horders => horders

end Service

/-- The same of a fleet's placement; here no two orders of the whole knock go by
one id. -/
structure FleetAnswers.Sound (answers : FleetAnswers) : Prop where
  once : ∀ knocked, answers.knock = .ok knocked → ∀ outcome ∈ knocked.1, outcome.OnceEach
  ids : ∀ knocked, answers.knock = .ok knocked →
    (knocked.1.flatMap fun outcome => outcome.accepted.map AcceptedOrder.orderId).Nodup

instance (answers : FleetAnswers) : Decidable answers.Sound :=
  decidable_of_iff
    (∀ knocked, answers.knock = .ok knocked → (∀ outcome ∈ knocked.1, outcome.OnceEach) ∧
      (knocked.1.flatMap fun outcome => outcome.accepted.map AcceptedOrder.orderId).Nodup)
    ⟨fun h => ⟨fun knocked hknocked => (h knocked hknocked).1,
      fun knocked hknocked => (h knocked hknocked).2⟩,
    fun h knocked hknocked => ⟨h.once knocked hknocked, h.ids knocked hknocked⟩⟩

namespace Fleet

variable {f : Fleet} {market : Market} {price : ℚ} {answers : FleetAnswers} {b : Bot}

def placedIds (placements : List MemberPlacement) : List String :=
  placements.flatMap fun p => (ordersOf p).map PlacedOrder.orderId

/-- Settling hands back ids the knock registered, in its order. -/
theorem settleMembers_ids {joined : List (FleetMember × (Entry ⊕ MemberPlacement))}
    {results : List MemberResult} {placements : List MemberPlacement}
    (hidle : ∀ m p, (m, .inr p) ∈ joined → ordersOf p = [])
    (h : (settleMembers answers joined results).result b = .ok placements) :
    (placedIds placements).Sublist
      (results.flatMap fun outcome => outcome.accepted.map AcceptedOrder.orderId) := by
  fun_induction settleMembers answers joined results generalizing b placements with
  | case1 =>
    obtain rfl : [] = placements := Except.ok.inj h
    exact List.nil_sublist _
  | case2 => cases h
  | case3 m placement rest results ih =>
    obtain ⟨placements', hrest, hreturn⟩ := andThen_returned h
    obtain rfl : placement :: placements' = placements := Except.ok.inj hreturn
    have hnone : ordersOf placement = [] := hidle m placement List.mem_cons_self
    rw [placedIds, List.flatMap_cons, hnone, List.map_nil, List.nil_append]
    exact ih (fun m' p hp => hidle m' p (List.mem_cons_of_mem _ hp)) hrest
  | case4 => cases h
  | case5 m entry rest outcome results ih =>
    obtain ⟨placement, hplacement, htail⟩ := andThen_returned h
    obtain ⟨placements', hrest, hreturn⟩ := andThen_returned htail
    obtain rfl : placement :: placements' = placements := Except.ok.inj hreturn
    have hlater := ih (fun m' p hp => hidle m' p (List.mem_cons_of_mem _ hp)) hrest
    have hown : ((ordersOf placement).map PlacedOrder.orderId).Sublist
        (outcome.accepted.map AcceptedOrder.orderId) := by
      obtain ⟨-, t, ⟨r, hr, t', hsettled, -⟩ | ⟨hnone, -⟩⟩ :=
        settleMember_ran ⟨b, hplacement, List.Subset.refl _⟩
      · have hsame : ordersOf placement = r.orders := by simp [ordersOf, hr]
        rw [hsame, m.exchange.settleEntry_ids entry outcome _ _ r hsettled]
      · have hempty : ordersOf placement = [] := by simp [ordersOf, hnone]
        rw [hempty]
        exact List.nil_sublist _
    rw [placedIds, List.flatMap_cons, List.flatMap_cons]
    exact hown.append hlater

theorem knockMembers_ids (hsound : answers.Sound) {placements : List MemberPlacement}
    {seen : Option PreviewSeen}
    (h : (f.knockMembers market price answers).result b = .ok (placements, seen)) :
    (placedIds placements).Nodup := by
  obtain ⟨prepared, hprepared, hrest⟩ := andThen_returned h
  have hidle : ∀ m p, (m, .inr p) ∈ f.joined answers prepared → ordersOf p = [] :=
    fun m p hp => (f.joined_idle hprepared hp).1
  simp only at hrest
  split at hrest
  · obtain ⟨_, -, hknock⟩ := andThen_returned hrest
    cases hresults : answers.knock with
    | error e =>
      rw [hresults] at hknock
      obtain ⟨rfl, -⟩ := Prod.mk.inj (Except.ok.inj hknock)
      have hnone : placedIds ((f.joined answers prepared).map (failed e)) = [] := by
        rw [placedIds, List.flatMap_eq_nil_iff]
        intro p hp
        obtain ⟨⟨m, part⟩, hpart, rfl⟩ := List.mem_map.mp hp
        cases part with
        | inl entry => rfl
        | inr placement =>
          show (ordersOf placement).map PlacedOrder.orderId = []
          rw [hidle m placement hpart]
          rfl
      rw [hnone]
      exact List.nodup_nil
    | ok knocked =>
      rw [hresults] at hknock
      obtain ⟨placements', hplacements, hreturn⟩ := andThen_returned hknock
      obtain ⟨rfl, -⟩ := Prod.mk.inj (Except.ok.inj hreturn)
      exact (hsound.ids _ hresults).sublist (settleMembers_ids hidle hplacements)
  · obtain ⟨placements', hplacements, hreturn⟩ := andThen_returned hrest
    obtain ⟨rfl, -⟩ := Prod.mk.inj (Except.ok.inj hreturn)
    have hsub := settleMembers_ids hidle hplacements
    rw [List.flatMap_nil] at hsub
    exact List.nodup_nil.sublist hsub

theorem outcomesOf_result (joined : List (FleetMember × (Entry ⊕ MemberPlacement)))
    (results : List MemberResult) (x : FleetMember × Entry × MemberResult)
    (hx : x ∈ outcomesOf joined results) : x.2.2 ∈ results := by
  fun_induction outcomesOf joined results with
  | case1 m entry rest outcome outcomes ih =>
    rcases List.mem_cons.mp hx with rfl | hx
    · exact List.mem_cons_self
    · exact List.mem_cons_of_mem _ (ih hx)
  | case2 m placement rest outcomes ih => exact ih hx
  | case3 => exact absurd hx List.not_mem_nil
  | case4 => exact absurd hx List.not_mem_nil

theorem recorded_outcome (kept : Option String) (p : MemberPlacement) (o : PlacedOrder) :
    (f.recorded kept answers p o).outcome = o.outcome := by
  unfold recorded
  split
  · simp only [afterCancel]
    split_ifs
    · rfl
    · rfl
    · rfl
  · rfl

/-- A fleet's placement hands back each member's pair, or orders whose cancel
was sent. -/
theorem place_pairs (hpaired : ∀ m ∈ f.members, m.exchange.entrySubmission = .single)
    (hsound : answers.Sound) {placement : FleetPlacement}
    (h : (f.place market price answers).result b = .ok placement) :
    ((f.place market price answers).after b).PairedOrCancelled placement.orders ∧
      (placement.orders.map PlacedOrder.orderId).Nodup := by
  obtain ⟨⟨seen, hknock⟩, hsub, -⟩ := f.place_ran h
  have horders := f.place_recorded h
  have hmem : ∀ p ∈ placement.placements, ∀ o ∈ ordersOf p,
      f.recorded (choose placement.placements answers).1 answers p o ∈ placement.orders := by
    intro p hp o ho
    rw [horders, recordedOrders, List.mem_flatten]
    exact ⟨_, List.mem_map_of_mem hp, List.mem_map_of_mem ho⟩
  constructor
  · intro o' ho'
    rw [horders, recordedOrders, List.mem_flatten] at ho'
    obtain ⟨_, hpart, ho'⟩ := ho'
    obtain ⟨p, hp, rfl⟩ := List.mem_map.mp hpart
    obtain ⟨o, ho, rfl⟩ := List.mem_map.mp ho'
    obtain ⟨hid, haccount, -⟩ := f.recorded_over (choose placement.placements answers).1 answers p o
    rcases (f.knockMembers_ran market price answers b _ seen hknock).2 p hp with
      ⟨⟨m, entry, outcome⟩, hx, hran⟩ | hnone
    swap
    · rw [hnone] at ho
      exact absurd ho List.not_mem_nil
    obtain ⟨hname, t, ⟨r, hr, t', hsettled, hcommits⟩ | ⟨hnone, -⟩⟩ := settleMember_ran hran
    swap
    · simp [ordersOf, hnone] at ho
    have hsame : ordersOf p = r.orders := by simp [ordersOf, hr]
    have hmember := hpaired m (f.outcomes_mem hx)
    unfold outcomes at hx
    split at hx
    swap
    · exact absurd hx List.not_mem_nil
    rename_i prepared results seen' hprepared hresults
    have hjoined := outcomesOf_mem _ _ _ hx
    obtain ⟨bodies, hentry⟩ := joined_entry hprepared hjoined
    have hpair : entry.specifications.map Prod.fst = pairLegs := by
      rw [(Exchange.entry_terms hentry).2.2]
      unfold Exchange.entrySpecifications
      rw [hmember]
      rfl
    have honce := hsound.once _ hresults outcome (outcomesOf_result _ _ _ hx)
    rcases Exchange.settleEntry_legs hpair honce hsettled with hlegs | hcancelled
    · refine .inl fun leg hleg => ?_
      obtain ⟨o'', ho'', houtcome''⟩ := hlegs leg hleg
      refine ⟨_, hmem p hp o'' (hsame ▸ ho''), ?_, (recorded_outcome _ p o'').trans houtcome''⟩
      rw [haccount, (f.recorded_over _ answers p o'').2.1]
    · obtain ⟨orderIds, hsent, hids⟩ := hcancelled o (hsame ▸ ho)
      refine .inr ((requested_settle b _ _).mpr (.inr ⟨m.exchange.account, orderIds, ?_, ?_⟩))
      · exact hsub (hcommits hsent)
      · rw [hid]
        exact hids
  · have hids : placement.orders.map PlacedOrder.orderId = placedIds placement.placements := by
      rw [horders, recordedOrders, List.map_flatten, List.map_map, placedIds, List.flatMap]
      congr 1
      refine List.map_congr_left fun p hp => ?_
      simp only [Function.comp, List.map_map]
      exact List.map_congr_left fun o ho => (f.recorded_over _ answers p o).1
    rw [hids]
    exact knockMembers_ids hsound hknock

end Fleet

/-- What a turn is answered, whoever places its market. -/
structure PlacementAnswers.Sound (codec : Python.Codec) (answers : PlacementAnswers) : Prop where
  solo : answers.solo.Sound codec
  fleet : answers.fleet.Sound

instance (codec : Python.Codec) (answers : PlacementAnswers) : Decidable (answers.Sound codec) :=
  decidable_of_iff (answers.solo.Sound codec ∧ answers.fleet.Sound)
    ⟨fun h => ⟨h.1, h.2⟩, fun h => ⟨h.solo, h.fleet⟩⟩

namespace Service

variable (s : Service) {market : Market}

theorem placeWithFleet_concluded {f : Fleet}
    (hpaired : ∀ m ∈ f.members, m.exchange.entrySubmission = .single) {trigger : Trigger}
    {retry : Option Retry} {knockUntilTs : ℚ} {answers : PlacementAnswers}
    (hsound : answers.fleet.Sound) {b : Bot} (hrow : b.database.hasMarket market.slug = true)
    (hempty : b.database.NoOrders market.slug)
    (hretry : retry.isSome = true → b.Pending market.slug)
    (h : (s.placeWithFleet f market trigger retry knockUntilTs answers).result b = .ok ()) :
    ((s.placeWithFleet f market trigger retry knockUntilTs answers).after b).Concluded
      market.slug := by
  have hplace := f.place_submits market s.plan.buyPrice answers.fleet
  have hsubmits : Emits (Effect.Submits market) (s.fleetPlacement market f answers) :=
    emits_handle (emits_andThen hplace fun _ => emits_return _) fun _ => emits_return _
  have hsame := submits_database hsubmits b
  obtain ⟨placed, hplaced, -⟩ := andThen_returned h
  change (s.fleetPlacement market f answers).result b = _ at hplaced
  cases placed with
  | error error =>
    have hafter : (s.placeWithFleet f market trigger retry knockUntilTs answers).after b =
        (placementFailed market (some error)).after
          ((s.fleetPlacement market f answers).after b) := after_andThen_ok hplaced
    rw [hafter]
    exact close_over (hsame ▸ hrow) (Bot.settled_of_noOrders (hsame ▸ hempty)) .error (some error)
  | ok placement =>
    obtain ⟨hresult, hstate⟩ := s.fleetPlacement_ok market hplaced
    obtain ⟨hpairs, hids⟩ := f.place_pairs hpaired hsound hresult
    have hafter : (s.placeWithFleet f market trigger retry knockUntilTs answers).after b =
        (s.concludePlacement market trigger retry answers placement.orders
          (placement.kept.isSome = true) (placement.gaveUp = true)
          (gaveUpReason placement.preview knockUntilTs)
          { orders := []
            error := placement.error
            retryable := placement.retryable
            attempts := placement.attempts }).after
          ((s.fleetPlacement market f answers).after b) := after_andThen_ok hplaced
    have hpending : retry.isSome = true →
        ((s.fleetPlacement market f answers).after b).Pending market.slug := fun hsome =>
      ⟨hsame ▸ (hretry hsome).state, hsame ▸ hempty⟩
    rw [hafter]
    rw [← hstate] at hpairs
    exact s.concludePlacement_concluded (hsame ▸ hrow) (hsame ▸ hempty) hpending hids hpairs
      fun hretryable _ => retryable_empty market hresult hretryable

/-- A live placement of a pair concludes its market. -/
theorem place_concluded (hlive : s.live = true) (hpaired : s.entrySubmission = .single)
    (htokens : market.upTokenId ≠ market.downTokenId) {trigger : Trigger}
    {answers : PlacementAnswers} (hsound : answers.Sound s.codec) {b : Bot}
    (hempty : b.database.NoOrders market.slug)
    (hpending : b.Waits market.slug → b.Pending market.slug)
    (h : (s.place market trigger answers).result b = .ok ()) :
    ((s.place market trigger answers).after b).Concluded market.slug := by
  unfold place at h ⊢
  simp only [bind_eq] at h ⊢
  rw [result_andThen_ok (result_read b _), after_read] at h
  rw [after_andThen_ok (result_read b _), after_read]
  split
  · exact s.skipMarket_over (Bot.settled_of_noOrders hempty) _
  · rename_i hbudget
    rw [if_neg hbudget] at h
    split
    · exact s.skipMarket_over (Bot.settled_of_noOrders hempty) _
    · rename_i hdoor
      rw [if_neg hdoor] at h
      obtain ⟨_, hfirst, h⟩ := andThen_returned h
      rw [after_andThen_ok hfirst]
      -- the first attempt's row is the only thing written before the entry goes out
      have hstart : ((s.prepareFirst market (b.retries.lookup market.slug)).after b).database.hasMarket
            market.slug = true ∧
          ((s.prepareFirst market (b.retries.lookup market.slug)).after b).database.NoOrders
            market.slug ∧
          ((b.retries.lookup market.slug).isSome = true →
            ((s.prepareFirst market (b.retries.lookup market.slug)).after b).Pending
              market.slug) := by
        unfold prepareFirst
        split
        · rename_i hretry
          obtain ⟨row, hrow, -⟩ := (hpending hretry).state
          exact ⟨by simp [Database.hasMarket, hrow], hempty, hpending⟩
        · rename_i hretry
          have hplacing : MarketState.placing ≠ .placementPending := by decide
          have hclosed := Database.closed_prepareMarket b.database s.runId market hplacing
          refine ⟨hclosed.hasMarket, ?_, fun hsome => absurd hsome hretry⟩
          show (b.database.apply (.prepareMarket s.runId market .placing)).NoOrders market.slug
          simp only [Database.apply]
          split
          · exact hempty
          · exact hempty
      obtain ⟨hrow, hempty', hretry⟩ := hstart
      have hexchange : s.exchange.isSome = true := by
        unfold exchange
        rw [if_pos hlive]
        rfl
      split at h
      · rename_i hnone
        rw [hnone] at hexchange
        cases hexchange
      · rename_i x f hx hfleet
        refine s.placeWithFleet_concluded (fun m hm => ?_) hsound.fleet hrow hempty' hretry h
        exact (s.fleetMode f hfleet m hm).trans hpaired
      · rename_i x hx hfleet
        have hsolo : x = s.solo := by
          unfold exchange at hx
          rw [if_pos hlive, hfleet] at hx
          exact (Option.some.inj hx).symm
        subst hsolo
        exact s.placeSolo_concluded hpaired htokens hsound.solo hrow hempty' hretry h

end Service

end EventQuant
