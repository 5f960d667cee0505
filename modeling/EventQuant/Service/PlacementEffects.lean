import EventQuant.Service.Placement

/-!
What a market's turn can do, by kind. Signing, knocking and settling an entry
touch no row: they sign and drop orders, hand them to the knock and cancel.
The rows are written around them, and only of the market and its new orders.
-/
namespace EventQuant

open Program

def Effect.Cancels : Effect → Prop
  | .cancel _ _ => True
  | _ => False

def Effect.Settles (market : Market) : Effect → Prop
  | .forget _ key => key.conditionId = market.conditionId
  | .cancel _ _ => True
  | _ => False

def Effect.Submits (market : Market) : Effect → Prop
  | .sign _ key _ => key.conditionId = market.conditionId
  | .forget _ key => key.conditionId = market.conditionId
  | .knock k => k.slug = market.slug ∧ k.key.conditionId = market.conditionId
  | .cancel _ _ => True
  | _ => False

/-- An effect of the market's turn: what is written down is written down under
its slug. -/
def Effect.OfTurn (market : Market) : Effect → Prop
  | .write (.prepareMarket _ m state) => m = market ∧ state ≠ .placementPending
  | .write (.setMarketState slug _ _) => slug = market.slug
  | .write (.addOrder _ slug _) => slug = market.slug
  | .setRetry slug _ => slug = market.slug
  | .popRetry slug => slug = market.slug
  | .enqueue update => update.market = market
  | e => e.Submits market

def Effect.Plain : Effect → Prop
  | .write (.updateOrder _ _ _) => False
  | .write (.markOrders _ _) => False
  | _ => True

theorem Effect.Cancels.settles {e : Effect} (h : e.Cancels) (market : Market) :
    e.Settles market := by
  cases e with
  | cancel account orderIds => trivial
  | _ => exact absurd h id

theorem Effect.Settles.submits {market : Market} {e : Effect} (h : e.Settles market) :
    e.Submits market := by
  cases e with
  | forget account key => exact h
  | cancel account orderIds => trivial
  | _ => exact absurd h id

theorem Effect.Submits.ofTurn {market : Market} {e : Effect} (h : e.Submits market) :
    e.OfTurn market := by
  cases e with
  | write w => exact absurd h id
  | setRetry slug retry => exact absurd h id
  | popRetry slug => exact absurd h id
  | enqueue update => exact absurd h id
  | _ => exact h

theorem Effect.OfTurn.plain {market : Market} {e : Effect} (h : e.OfTurn market) : e.Plain := by
  cases e with
  | write w =>
    cases w with
    | updateOrder orderId status matchedSize => exact absurd h id
    | markOrders orderIds status => exact absurd h id
    | _ => trivial
  | _ => trivial

theorem Exchange.entry_ok {x : Exchange} {market : Market} {price size : ℚ} {bodies : List String}
    {entry : Entry} (h : x.entry market price size bodies = .ok entry) :
    entry.submissionKey = EventQuant.submissionKey market price size ∧
      entry.legs = List.zipWith (fun spec body => ⟨spec.1, body⟩) (x.entrySpecifications market)
        bodies := by
  unfold Exchange.entry at h
  split at h
  · rw [Except.ok.injEq] at h
    subst h
    exact ⟨rfl, rfl⟩
  · simp at h

/-- An entry is for the account's legs, at the price and size. -/
theorem Exchange.entry_terms {x : Exchange} {market : Market} {price size : ℚ} {bodies : List String}
    {entry : Entry} (h : x.entry market price size bodies = .ok entry) :
    entry.price = price ∧ entry.size = size ∧
      entry.specifications = x.entrySpecifications market := by
  unfold Exchange.entry at h
  split at h
  · rw [Except.ok.injEq] at h
    subst h
    exact ⟨rfl, rfl, rfl⟩
  · simp at h

theorem Exchange.prepareEntry_entry {x : Exchange} {market : Market} {price size : ℚ}
    {sign : Except SigningFailure (String × String → String)} {b : Bot} {entry : Entry}
    (h : (x.prepareEntry market price size sign).result b = .ok (.inl entry)) :
    ∃ bodies, x.entry market price size bodies = .ok entry := by
  have hentry : ∀ bodies, (x.entry market price size bodies).map Sum.inl =
      (.ok (.inl entry) : Except Exn (Entry ⊕ PlacementResult)) →
        x.entry market price size bodies = .ok entry := by
    intro bodies hbodies
    cases hx : x.entry market price size bodies with
    | error e => simp [hx, Except.map] at hbodies
    | ok entry' =>
      simp only [hx, Except.map, Except.ok.injEq, Sum.inl.injEq] at hbodies
      rw [hbodies]
  unfold prepareEntry at h
  obtain ⟨signed, -, h⟩ := andThen_returned h
  split at h
  · exact ⟨_, hentry _ h⟩
  · split at h
    · simp at h
    · simp at h
    · obtain ⟨_, -, h⟩ := andThen_returned h
      exact ⟨_, hentry _ h⟩

theorem Exchange.prepareEntry_key {x : Exchange} {market : Market} {price size : ℚ}
    {sign : Except SigningFailure (String × String → String)} {b : Bot} {entry : Entry}
    (h : (x.prepareEntry market price size sign).result b = .ok (.inl entry)) :
    entry.submissionKey = EventQuant.submissionKey market price size := by
  obtain ⟨_, hentry⟩ := Exchange.prepareEntry_entry h
  exact (Exchange.entry_ok hentry).1

section Submission

variable (x : Exchange) (market : Market)

theorem Exchange.prepareEntry_submits (price size : ℚ)
    (sign : Except SigningFailure (String × String → String)) :
    Emits (Effect.Submits market) (x.prepareEntry market price size sign) := by
  unfold prepareEntry
  simp only [bind_eq]
  refine emits_andThen (emits_read _) fun signed => ?_
  split
  · exact emits_answer _
  · split
    · exact emits_return _
    · exact emits_raise _
    · exact emits_andThen (emits_commit rfl) fun _ => emits_answer _

theorem Exchange.finalizeDualResult_settles (result : PlacementResult) (key : SubmissionKey)
    (cancel : Except Exn Unit) (hkey : key.conditionId = market.conditionId) :
    Emits (Effect.Settles market) (x.finalizeDualResult result key cancel) := by
  unfold finalizeDualResult
  split_ifs
  · exact emits_andThen (emits_commit hkey) fun _ => emits_return _
  · refine emits_andThen (emits_commit trivial) fun _ => emits_andThen (emits_answer _) fun _ => ?_
    exact emits_andThen (emits_commit hkey) fun _ => emits_return _
  · exact emits_andThen (emits_commit hkey) fun _ => emits_return _
  · exact emits_return _

theorem Exchange.settleEntry_settles (entry : Entry) (outcome : Knock.MemberResult)
    (cancel : Except Exn Unit) (hkey : entry.submissionKey.conditionId = market.conditionId) :
    Emits (Effect.Settles market) (x.settleEntry entry outcome cancel) := by
  refine emits_andThen (emits_answer _) fun accepted => ?_
  simp only
  split_ifs
  · exact emits_raise _
  · exact x.finalizeDualResult_settles market _ _ _ hkey

theorem Exchange.reconcileAmbiguousDual_settles (price size : ℚ)
    (retryableIfMissing : Bool) (openOrders : Except Exn (List Python.Value))
    (cancel : Except Exn Unit) : Emits (Effect.Settles market)
      (x.reconcileAmbiguousDual market price size retryableIfMissing openOrders cancel) := by
  refine emits_andThen (emits_answer _) fun rows => emits_andThen (emits_answer _) fun found => ?_
  simp only
  split
  · split
    · exact emits_return _
    · exact emits_andThen (emits_commit rfl) fun _ => emits_return _
  · split
    · refine emits_andThen (emits_commit trivial) fun _ => emits_andThen (emits_answer _) fun _ => ?_
      exact emits_andThen (emits_commit rfl) fun _ => emits_return _
    · split
      · exact emits_return _
      · exact emits_andThen (emits_commit rfl) fun _ => emits_return _

theorem Fleet.prepare_submits (price : ℚ) (answers : FleetAnswers) (m : FleetMember) :
    Emits (Effect.Submits market) (Fleet.prepare market price answers m) := by
  refine emits_handle (emits_andThen (m.exchange.prepareEntry_submits market _ _ _) fun p => ?_)
    fun _ => emits_return _
  split <;> exact emits_return _

theorem Fleet.prepare_entry {market : Market} {price : ℚ} {answers : FleetAnswers} {m : FleetMember}
    {b : Bot} {entry : Entry} (h : (Fleet.prepare market price answers m).result b = .ok (.inl entry)) :
    ∃ bodies, m.exchange.entry market price m.size bodies = .ok entry := by
  rcases handle_returned h with ⟨h, -⟩ | ⟨e, -, h⟩
  · obtain ⟨prepared, hprepared, h⟩ := andThen_returned h
    split at h
    · simp only [result_return, Except.ok.injEq, Sum.inl.injEq] at h
      subst h
      exact Exchange.prepareEntry_entry hprepared
    · simp at h
  · simp at h

/-- A member in the knock stands opposite the entry that was prepared for it. -/
theorem Fleet.joined_prepared {f : Fleet} {answers : FleetAnswers}
    {prepared : List (Entry ⊕ MemberPlacement)} {R : FleetMember → Entry ⊕ MemberPlacement → Prop}
    (h : List.Forall₂ R f.members prepared) {m : FleetMember} {entry : Entry}
    (hm : (m, .inl entry) ∈ f.joined answers prepared) : R m (.inl entry) := by
  unfold joined at hm
  generalize f.members = members at hm h
  induction h with
  | nil => exact absurd hm List.not_mem_nil
  | @cons m' prepared' ms ps hR _ ih =>
    rcases List.mem_cons.mp hm with hhead | hm
    · obtain ⟨rfl, hjoin⟩ := Prod.mk.inj hhead
      unfold join at hjoin
      split at hjoin
      · cases hjoin
      · split at hjoin
        · cases hjoin
        · obtain rfl := Sum.inl.inj hjoin
          exact hR
    · exact ih hm

theorem Fleet.settleMembers_settles (answers : FleetAnswers)
    (joined : List (FleetMember × (Entry ⊕ MemberPlacement))) (results : List Knock.MemberResult)
    (hkeys : ∀ m entry, (m, .inl entry) ∈ joined →
      entry.submissionKey.conditionId = market.conditionId) :
    Emits (Effect.Settles market) (settleMembers answers joined results) := by
  fun_induction settleMembers answers joined results with
  | case1 => exact emits_return _
  | case2 => exact emits_raise _
  | case3 m placement rest outcomes ih =>
    have hrest := ih fun m' entry' h => hkeys m' entry' (List.mem_cons_of_mem _ h)
    exact emits_andThen hrest fun _ => emits_return _
  | case4 => exact emits_raise _
  | case5 m entry rest outcome outcomes ih =>
    have hrest := ih fun m' entry' h => hkeys m' entry' (List.mem_cons_of_mem _ h)
    have hkey := hkeys m entry List.mem_cons_self
    refine emits_andThen (emits_handle ?_ fun _ => emits_return _) fun _ =>
      emits_andThen hrest fun _ => emits_return _
    exact emits_andThen (m.exchange.settleEntry_settles market _ _ _ hkey) fun _ => emits_return _

/-- A member in the knock knocks an entry of the market, at its own size. -/
theorem Fleet.joined_entry {f : Fleet} {market : Market} {price : ℚ} {answers : FleetAnswers}
    {b : Bot} {prepared : List (Entry ⊕ MemberPlacement)}
    (h : (collect f.members (prepare market price answers)).result b = .ok prepared)
    {m : FleetMember} {entry : Entry} (hm : (m, .inl entry) ∈ f.joined answers prepared) :
    ∃ bodies, m.exchange.entry market price m.size bodies = .ok entry := by
  obtain ⟨t, ht, -⟩ := Fleet.joined_prepared (collect_ran h) hm
  exact Fleet.prepare_entry ht

theorem Fleet.joined_key {f : Fleet} {market : Market} {price : ℚ} {answers : FleetAnswers} {b : Bot}
    {prepared : List (Entry ⊕ MemberPlacement)}
    (h : (collect f.members (prepare market price answers)).result b = .ok prepared)
    {m : FleetMember} {entry : Entry} (hm : (m, .inl entry) ∈ f.joined answers prepared) :
    entry.submissionKey.conditionId = market.conditionId := by
  obtain ⟨_, hentry⟩ := Fleet.joined_entry h hm
  rw [(Exchange.entry_ok hentry).1]
  rfl

theorem Fleet.settle_cancels (f : Fleet) (placements : List MemberPlacement) (kept : Option String)
    (answers : FleetAnswers) : Emits Effect.Cancels (f.settle placements kept answers) := by
  refine emits_andThen (emits_collect _ fun p _ => ?_) fun _ => emits_return _
  unfold settlePlacement
  simp only
  split_ifs
  · exact emits_return _
  · exact emits_return _
  · refine emits_andThen (emits_handle ?_ fun _ => emits_return _) fun cancelled => ?_
    · refine emits_andThen (emits_answer _) fun m => emits_andThen (emits_commit trivial) fun _ => ?_
      exact emits_andThen (emits_answer _) fun _ => emits_return _
    · split
      · exact emits_return _
      · exact emits_andThen (emits_answer _) fun _ => emits_return _

theorem Fleet.knockMembers_submits (f : Fleet) (price : ℚ) (answers : FleetAnswers) :
    Emits (Effect.Submits market) (f.knockMembers market price answers) := by
  refine emits_andThen_of (emits_collect _ fun m _ => Fleet.prepare_submits market price answers m)
    fun s prepared hprepared => ?_
  have hsettle : ∀ results, Emits (Effect.Submits market)
      (settleMembers answers (f.joined answers prepared) results) := fun results =>
    (Fleet.settleMembers_settles market answers _ results fun _ _ =>
      Fleet.joined_key hprepared).mono fun _ => Effect.Settles.submits
  simp only
  split
  · refine emits_andThen (emits_forEach _ fun p hp => ?_) fun _ => ?_
    · split
      · rename_i entry hentry
        have hmem : (p.1, Sum.inl entry) ∈ f.joined answers prepared := by
          rw [← hentry]
          exact hp
        exact emits_commit ⟨rfl, Fleet.joined_key hprepared hmem⟩
      · exact emits_return _
    · split
      · exact emits_return _
      · exact emits_andThen (hsettle _) fun _ => emits_return _
  · exact emits_andThen (hsettle _) fun _ => emits_return _

theorem Fleet.place_submits (f : Fleet) (price : ℚ) (answers : FleetAnswers) :
    Emits (Effect.Submits market) (f.place market price answers) := by
  refine emits_andThen (f.knockMembers_submits market price answers) fun placed => ?_
  refine emits_andThen ?_ fun _ => emits_return _
  exact (f.settle_cancels placed.1 _ answers).mono fun _ he => (he.settles market).submits

theorem Service.soloResult_submits (s : Service) (answers : SoloAnswers) :
    Emits (Effect.Submits market) (s.soloResult x market answers) := by
  refine emits_handle ?_ fun e => ?_
  · refine emits_andThen_of (x.prepareEntry_submits market _ _ _) fun t prepared hprepared => ?_
    split
    · exact emits_return _
    · rename_i entry
      have hkey : entry.submissionKey.conditionId = market.conditionId := by
        rw [Exchange.prepareEntry_key hprepared]
        rfl
      split
      · exact emits_raise _
      · refine emits_andThen (emits_commit ⟨rfl, hkey⟩) fun _ =>
          emits_andThen (emits_answer _) fun _ => ?_
        split
        · exact emits_raise _
        · exact (x.settleEntry_settles market _ _ _ hkey).mono fun _ => Effect.Settles.submits
  · split
    · exact emits_return _
    · refine emits_handle (emits_andThen ?_ fun _ => emits_return _) fun _ => emits_return _
      exact (x.reconcileAmbiguousDual_settles market _ _ _ _ _).mono fun _ => Effect.Settles.submits

end Submission

namespace Service

variable (s : Service)

/-- `add_order`, whatever it is recorded under. -/
theorem addOrder_emits {allowed : Effect → Prop} {now : ℤ} {slug : String} {order : PlacedOrder}
    (h : allowed (.write (.addOrder now slug order))) :
    Emits allowed (Action.addOrder now slug order) := by
  unfold Action.addOrder Action.query
  simp only [bind_eq]
  refine emits_andThen (emits_read _) fun known => ?_
  split
  · exact emits_commit h
  · exact emits_raise _

section Turn

variable (market : Market)

/-- A retry dropped and the market's state written: how a turn's placement
ends. -/
theorem close_ofTurn (state : MarketState) (error : Option String) :
    Emits (Effect.OfTurn market) (do
      commit (.popRetry market.slug)
      Action.write (.setMarketState market.slug state error)) :=
  emits_andThen (emits_commit rfl) fun _ => emits_commit rfl

theorem recordOrders_ofTurn (orders : List PlacedOrder) (now : ℤ) :
    Emits (Effect.OfTurn market) (recordOrders market orders now) :=
  emits_forEach _ fun _ _ => addOrder_emits rfl

theorem skipMarket_ofTurn (reason : String) :
    Emits (Effect.OfTurn market) (s.skipMarket market reason) := by
  unfold skipMarket
  refine emits_andThen (emits_commit rfl) fun _ => ?_
  exact emits_andThen (emits_commit ⟨rfl, by decide⟩) fun _ => emits_commit rfl

theorem requeuePlacement_ofTurn (result : PlacementResult)
    (retry : Option Retry) (trigger : Trigger) (answers : PlacementAnswers) :
    Emits (Effect.OfTurn market) (requeuePlacement market result retry trigger answers) := by
  have hkeep : Emits (Effect.OfTurn market) (keepRetry market result retry answers) := by
    unfold keepRetry
    split
    · exact emits_andThen (emits_commit rfl) fun _ => emits_commit rfl
    · exact emits_commit rfl
  unfold requeuePlacement
  split
  · exact emits_return _
  · exact emits_andThen hkeep fun _ =>
      emits_andThen (emits_commit (requeuedUpdate_market market trigger answers)) fun _ =>
        emits_return _

theorem placeSolo_ofTurn (x : Exchange) (trigger : Trigger) (retry : Option Retry)
    (answers : PlacementAnswers) :
    Emits (Effect.OfTurn market) (s.placeSolo x market trigger retry answers) := by
  have hresult := s.soloResult_submits x market answers.solo
  refine emits_andThen (hresult.mono fun _ => Effect.Submits.ofTurn) fun result => ?_
  refine emits_andThen (recordOrders_ofTurn market result.orders answers.recordTs) fun _ => ?_
  split
  · exact close_ofTurn market .active none
  · split
    · exact s.skipMarket_ofTurn market _
    · refine emits_andThen (requeuePlacement_ofTurn market result retry trigger answers) fun _ => ?_
      split
      · exact emits_return _
      · exact close_ofTurn market .error _

theorem placeWithFleet_ofTurn (f : Fleet) (trigger : Trigger)
    (retry : Option Retry) (knockUntilTs : ℚ) (answers : PlacementAnswers) :
    Emits (Effect.OfTurn market) (s.placeWithFleet f market trigger retry knockUntilTs answers) := by
  have hplace := (Fleet.place_submits market f s.plan.buyPrice answers.fleet).mono
    fun _ => Effect.Submits.ofTurn
  refine emits_andThen (emits_handle (emits_andThen hplace fun _ => emits_return _)
    fun _ => emits_return _) fun placed => ?_
  split
  · exact close_ofTurn market .error _
  · refine emits_andThen (recordOrders_ofTurn market _ answers.recordTs) fun _ => ?_
    split
    · exact close_ofTurn market .active none
    · split
      · exact s.skipMarket_ofTurn market _
      · refine emits_andThen (requeuePlacement_ofTurn market _ retry trigger answers) fun _ => ?_
        split
        · exact emits_return _
        · exact close_ofTurn market .error _

theorem place_ofTurn (trigger : Trigger) (answers : PlacementAnswers) :
    Emits (Effect.OfTurn market) (s.place market trigger answers) := by
  unfold place
  simp only [bind_eq]
  refine emits_andThen (emits_read _) fun retry => ?_
  split
  · exact s.skipMarket_ofTurn market _
  · split
    · exact s.skipMarket_ofTurn market _
    · have hfirst : Emits (Effect.OfTurn market) (s.prepareFirst market retry) := by
        unfold prepareFirst
        split
        · exact emits_return _
        · exact emits_commit ⟨rfl, by decide⟩
      refine emits_andThen hfirst fun _ => ?_
      split
      · refine emits_andThen (recordOrders_ofTurn market _ answers.recordTs) fun _ => ?_
        exact emits_commit rfl
      · exact s.placeWithFleet_ofTurn market _ trigger retry _ answers
      · exact s.placeSolo_ofTurn market _ trigger retry answers

/-- Expiring a market closes it, or does nothing. -/
theorem expireMarket_emits {allowed : Effect → Prop}
    (hclose : ∀ error, Emits allowed (do
      commit (.popRetry market.slug)
      Action.write (.setMarketState market.slug .expired error))) :
    Emits allowed (expireMarket market) := by
  unfold expireMarket
  simp only [bind_eq]
  refine emits_andThen (emits_read _) fun retry => ?_
  split
  · exact emits_return _
  · exact hclose _

/-- A turn expires its market, skips it or places it, and does nothing else. -/
theorem considerMarket_emits {allowed : Effect → Prop} (hexpire : Emits allowed (expireMarket market))
    (hskip : ∀ reason, Emits allowed (s.skipMarket market reason)) (nowTs : ℤ) (trigger : Trigger)
    (orderbookReady : Bool) (answers : PlacementAnswers)
    (hplace : Emits allowed (s.place market trigger answers)) :
    Emits allowed (s.considerMarket market nowTs trigger orderbookReady answers) := by
  unfold considerMarket
  split
  · exact emits_andThen hexpire fun _ => emits_return _
  · refine emits_andThen (emits_read _) fun free => ?_
    split
    · exact emits_return _
    · refine emits_andThen (emits_answer _) fun misfit => ?_
      split
      · exact emits_andThen (hskip _) fun _ => emits_return _
      · refine emits_andThen (emits_read _) fun capped => ?_
        split
        · exact emits_return _
        · split
          · exact emits_return _
          · exact emits_andThen hplace fun _ => emits_return _

theorem considerMarket_ofTurn (nowTs : ℤ) (trigger : Trigger)
    (orderbookReady : Bool) (answers : PlacementAnswers) :
    Emits (Effect.OfTurn market) (s.considerMarket market nowTs trigger orderbookReady answers) :=
  s.considerMarket_emits market (expireMarket_emits market (close_ofTurn market .expired))
    (s.skipMarket_ofTurn market) nowTs trigger orderbookReady answers
    (s.place_ofTurn market trigger answers)

theorem expireMarket_returns (b : Bot) : (expireMarket market).result b = .ok () := by
  unfold expireMarket
  rw [bind_eq, result_andThen_ok (result_read b _)]
  split
  · rfl
  · rfl

/-- The way a turn goes: what it does, and whether the markets behind it have
their turns. -/
inductive TurnGoes (nowTs : ℤ) (trigger : Trigger) (orderbookReady : Bool)
    (answers : PlacementAnswers) (b : Bot) : List Effect → Except Exn Bool → Prop
  | expired (hpast : s.eligible market nowTs = false) :
      TurnGoes nowTs trigger orderbookReady answers b ((expireMarket market).commits b) (.ok true)
  | shut (hshut : b.database.canStartEntryPlan market.slug = false) :
      TurnGoes nowTs trigger orderbookReady answers b [] (.ok true)
  | unread (e : Exn) (hmisfit : s.misfit market = .error e) :
      TurnGoes nowTs trigger orderbookReady answers b [] (.error e)
  | skipped (reason : String) (hfree : b.database.canStartEntryPlan market.slug = true)
      (hmisfit : s.misfit market = .ok (some reason)) :
      TurnGoes nowTs trigger orderbookReady answers b ((s.skipMarket market reason).commits b)
        (.ok true)
  | capped (heligible : s.eligible market nowTs = true)
      (hfree : b.database.canStartEntryPlan market.slug = true) (hfits : s.misfit market = .ok none)
      (hcapped : s.capReached b.database answers.dayStart = true) :
      TurnGoes nowTs trigger orderbookReady answers b [] (.ok false)
  | closed (hclosed : (s.exchange.isSome && !orderbookReady &&
        decide (answers.booksReady ≠ .ok true)) = true) :
      TurnGoes nowTs trigger orderbookReady answers b [] (.ok true)
  | placed (heligible : s.eligible market nowTs = true)
      (hfree : b.database.canStartEntryPlan market.slug = true) (hfits : s.misfit market = .ok none)
      (huncapped : s.capReached b.database answers.dayStart = false)
      (hbooks : (s.exchange.isSome && !orderbookReady &&
        decide (answers.booksReady ≠ .ok true)) = false) :
      TurnGoes nowTs trigger orderbookReady answers b ((s.place market trigger answers).commits b)
        (((s.place market trigger answers).result b).map fun _ => true)

theorem considerMarket_goes (nowTs : ℤ) (trigger : Trigger) (orderbookReady : Bool)
    (answers : PlacementAnswers) (b : Bot) :
    ∃ effects result,
      (s.considerMarket market nowTs trigger orderbookReady answers).commits b = effects ∧
      (s.considerMarket market nowTs trigger orderbookReady answers).result b = result ∧
      s.TurnGoes market nowTs trigger orderbookReady answers b effects result := by
  unfold considerMarket Action.query
  simp only [bind_eq]
  split
  · rename_i hpast
    have hreturns := expireMarket_returns market b
    refine ⟨_, _, ?_, result_andThen_ok hreturns, .expired (by simpa using hpast)⟩
    rw [commits_andThen_ok hreturns, commits_return, List.append_nil]
  · rename_i heligible
    rw [commits_andThen_ok (result_read b _), result_andThen_ok (result_read b _), after_read]
    split
    · rename_i hshut
      exact ⟨_, _, rfl, rfl, .shut (by simpa using hshut)⟩
    · rename_i hfree
      cases hmisfit : s.misfit market with
      | error e =>
        exact ⟨_, _, commits_andThen_error (result_answer b _),
          result_andThen_error (result_answer b _), .unread e hmisfit⟩
      | ok misfit =>
        rw [commits_andThen_ok (result_answer b _), result_andThen_ok (result_answer b _), after_answer]
        cases misfit with
        | some reason =>
          have hreturns : (s.skipMarket market reason).result b = .ok () := rfl
          refine ⟨_, _, ?_, result_andThen_ok hreturns, .skipped reason (by simpa using hfree) hmisfit⟩
          rw [commits_andThen_ok hreturns]
          exact List.append_nil _
        | none =>
          simp only
          rw [commits_andThen_ok (result_read b _), result_andThen_ok (result_read b _), after_read]
          split
          · rename_i hcapped
            exact ⟨_, _, rfl, rfl, .capped (by simpa using heligible) (by simpa using hfree) hmisfit
              hcapped⟩
          · rename_i hcapped
            split
            · rename_i hbooks
              exact ⟨_, _, rfl, rfl, .closed hbooks⟩
            · rename_i hbooks
              refine ⟨_, _, ?_, ?_, .placed (by simpa using heligible) (by simpa using hfree) hmisfit
                (by simpa using hcapped) (by simpa using hbooks)⟩
              · cases hresult : (s.place market trigger answers).result b with
                | error e => exact commits_andThen_error hresult
                | ok done => exact (commits_andThen_ok hresult).trans (List.append_nil _)
              · rw [result_andThen]
                cases (s.place market trigger answers).result b <;> rfl

end Turn

end Service

end EventQuant
