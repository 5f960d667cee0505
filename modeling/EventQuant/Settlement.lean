import EventQuant.Exchange
import EventQuant.Knock.CleanFailure
import EventQuant.Knock.Registrations
import EventQuant.Library.Results

/-!
From the knock to the caller: what the replies a member handled in time become
of in the result that settling its entry hands back. An order id is among its
orders unless its leg had registered another one first, and then the member
says so; a result without orders says that nothing was left in doubt.
-/
namespace EventQuant

open Program Python Knock Runs

namespace Exchange

variable (x : Exchange)

theorem finalizeDualResult_returned (result r : PlacementResult) (key : SubmissionKey)
    (cancel : Except Exn Unit) (b : Bot)
    (h : (x.finalizeDualResult result key cancel).result b = .ok r) : r = result := by
  unfold finalizeDualResult at h
  split_ifs at h
  · obtain ⟨_, _, h⟩ := andThen_returned h
    simpa [eq_comm] using h
  · obtain ⟨_, _, h⟩ := andThen_returned h
    obtain ⟨_, _, h⟩ := andThen_returned h
    obtain ⟨_, _, h⟩ := andThen_returned h
    simpa [eq_comm] using h
  · obtain ⟨_, _, h⟩ := andThen_returned h
    simpa [eq_comm] using h
  · simpa [eq_comm] using h

@[simp] theorem entryResult_orders (entry : Entry) (outcome : MemberResult)
    (accepted : List PlacedOrder) : (x.entryResult entry outcome accepted).orders = accepted := by
  unfold entryResult
  by_cases hnone : accepted = []
  · subst hnone
    simp only
    split_ifs <;> rfl
  · simp only [ne_eq, hnone, not_false_eq_true, if_true]
    split_ifs <;> rfl

/-- A result handed back carries an order for each registered leg, and without
any there was nothing ambiguous. -/
theorem settleEntry_returned (entry : Entry) (outcome : MemberResult) (cancel : Except Exn Unit)
    (b : Bot) (r : PlacementResult)
    (h : (x.settleEntry entry outcome cancel).result b = .ok r) :
    outcome.accepted.mapM (x.acceptedOrder entry) = .ok r.orders ∧
      (r.orders = [] → outcome.ambiguous = []) := by
  obtain ⟨accepted, haccepted, h⟩ := andThen_returned h
  rw [result_answer] at haccepted
  simp only at h
  split_ifs at h with hdoubt
  · simp at h
  · have hr := x.finalizeDualResult_returned _ _ _ _ _ h
    rw [hr, entryResult_orders]
    refine ⟨haccepted, fun hnil => ?_⟩
    by_contra hne
    exact hdoubt ⟨by simpa using hne, hnil⟩

/-- An order recorded for each id, under its leg. -/
theorem acceptedOrder_ok (entry : Entry) (order : AcceptedOrder) (placed : PlacedOrder)
    (h : x.acceptedOrder entry order = .ok placed) :
    placed.orderId = order.orderId ∧ placed.outcome = order.outcome := by
  unfold acceptedOrder at h
  split at h
  · simp at h
  · rw [Except.ok.injEq] at h
    subst h
    exact ⟨rfl, rfl⟩

/-- The result's orders carry the registered ids, in the order of the legs. -/
theorem settleEntry_ids (entry : Entry) (outcome : MemberResult) (cancel : Except Exn Unit)
    (b : Bot) (r : PlacementResult)
    (h : (x.settleEntry entry outcome cancel).result b = .ok r) :
    r.orders.map PlacedOrder.orderId = outcome.accepted.map AcceptedOrder.orderId :=
  Results.map_of_mapM (x.settleEntry_returned entry outcome cancel b r h).1
    fun order placed hplaced => (x.acceptedOrder_ok entry order placed hplaced).1

/-- Legs of the entry all have a token. -/
theorem acceptedOrder_returns (entry : Entry) (order : AcceptedOrder)
    (hleg : order.outcome ∈ entry.legs.map Leg.outcome) :
    ∃ placed, x.acceptedOrder entry order = .ok placed := by
  have htoken : (entry.specifications.lookup order.outcome).isSome = true := by
    rw [List.lookup_isSome_iff]
    rw [entry.paired] at hleg
    obtain ⟨spec, hspec, hname⟩ := List.mem_map.mp hleg
    exact ⟨spec, hspec, by simp [hname]⟩
  obtain ⟨tokenId, htoken⟩ := Option.isSome_iff_exists.mp htoken
  unfold acceptedOrder
  rw [htoken]
  exact ⟨_, rfl⟩

theorem acceptedOrder_status (entry : Entry) (order : AcceptedOrder) (placed : PlacedOrder)
    (h : x.acceptedOrder entry order = .ok placed) :
    placed.status = replyStatus x.codec (replyValue x.codec order.status order.body) ∧
      order.outcome ∈ entry.legs.map Leg.outcome := by
  unfold acceptedOrder at h
  split at h
  · simp at h
  · rename_i tokenId htoken
    rw [Except.ok.injEq] at h
    subst h
    refine ⟨rfl, ?_⟩
    have hleg := List.lookup_isSome_iff.mp (Option.isSome_iff_exists.mpr ⟨tokenId, htoken⟩)
    obtain ⟨spec, hspec, hname⟩ := hleg
    rw [entry.paired, LawfulBEq.eq_of_beq hname]
    exact List.mem_map_of_mem hspec

/-- A set is complete exactly when each leg of the entry has an order. -/
theorem entryResult_complete (entry : Entry) (outcome : MemberResult)
    (accepted : List PlacedOrder) : (x.entryResult entry outcome accepted).complete =
      decide (accepted.length = entry.specifications.length) := by
  unfold entryResult PlacementResult.complete
  by_cases hfull : accepted.length = entry.specifications.length
  · simp [hfull]
  · simp only [hfull, if_false]
    split_ifs <;> simp

def prepared (market : Market) (price size : ℚ) (bodies : Option (List String))
    (sign : Except SigningFailure (String × String → String)) :
    Except Exn (Entry ⊕ PlacementResult) :=
  match bodies, sign with
  | some bodies, _ => (x.entry market price size bodies).map .inl
  | none, .ok body => (x.entry market price size ((x.entrySpecifications market).map body)).map .inl
  | none, .error (.notReady message) =>
    .ok (.inr { orders := [], error := some message, retryable := true })
  | none, .error (.raised e) => .error e

theorem prepareEntry_result (market : Market) (price size : ℚ)
    (sign : Except SigningFailure (String × String → String)) (b : Bot) :
    (x.prepareEntry market price size sign).result b =
      x.prepared market price size
        (b.submissions.lookup (x.account, EventQuant.submissionKey market price size)) sign := by
  unfold prepareEntry prepared
  rw [bind_eq, result_andThen, result_read]
  simp only [Except.bind]
  split <;> split <;> simp_all [result_andThen, Except.bind]

theorem prepareEntry_emits (market : Market) (price size : ℚ)
    (sign : Except SigningFailure (String × String → String)) :
    Emits (fun e => ∃ key bodies, e = Effect.sign x.account key bodies)
      (x.prepareEntry market price size sign) := by
  unfold prepareEntry
  refine emits_andThen (emits_read _) fun signed => ?_
  cases signed with
  | some bodies => exact emits_answer _
  | none =>
    rcases sign with (message | e) | body
    · exact emits_return _
    · exact emits_raise _
    · exact emits_andThen (emits_commit ⟨_, _, rfl⟩) fun _ => emits_answer _

/-- What an entry's part of a knock comes to, with what the cancel of an
incomplete set answers: its result, or why there is none. -/
def settled (entry : Entry) (outcome : MemberResult) (cancel : Except Exn Unit) :
    Except Exn PlacementResult := do
  let accepted ← outcome.accepted.mapM (x.acceptedOrder entry)
  let ambiguous := outcome.ambiguous.map (ambiguousText x.codec)
  if ambiguous ≠ [] ∧ accepted = [] then
    .error (.ambiguousPlacement
      ("staggered submission remained ambiguous: " ++ joinUnique ambiguous) true outcome.attempts)
  else if accepted.length = entry.specifications.length ∨ accepted = [] then
    .ok (x.entryResult entry outcome accepted)
  else cancel.map fun _ => x.entryResult entry outcome accepted

theorem settleEntry_result (entry : Entry) (outcome : MemberResult) (cancel : Except Exn Unit)
    (b : Bot) :
    (x.settleEntry entry outcome cancel).result b = x.settled entry outcome cancel := by
  unfold settleEntry settled
  rw [bind_eq, result_andThen, result_answer]
  cases outcome.accepted.mapM (x.acceptedOrder entry) with
  | error e => rfl
  | ok accepted =>
    simp only [Except.bind, bind]
    split_ifs with hdoubt hover
    · rfl
    · unfold finalizeDualResult
      simp only [entryResult_complete, entryResult_orders, decide_eq_true_eq]
      split_ifs with hfull hsome
      · rfl
      · exact absurd (hover.resolve_left hfull) hsome
      · rfl
      · rfl
    · rw [not_or] at hover
      unfold finalizeDualResult
      rw [entryResult_complete, if_neg (by simpa using hover.1), entryResult_orders,
        if_pos hover.2]
      cases cancel <;> rfl

/-- A result handed back was finalized, and settling commits nothing else. -/
theorem settleEntry_finalizes (entry : Entry) (outcome : MemberResult) (cancel : Except Exn Unit)
    (b : Bot) (r : PlacementResult)
    (h : (x.settleEntry entry outcome cancel).result b = .ok r) :
    r.complete = decide (outcome.accepted.length = entry.specifications.length) ∧
      (x.finalizeDualResult r entry.submissionKey cancel).result b = .ok r ∧
      (x.settleEntry entry outcome cancel).commits b =
        (x.finalizeDualResult r entry.submissionKey cancel).commits b := by
  obtain ⟨accepted, haccepted, hfinal⟩ := andThen_returned h
  have hlength := (Results.forall₂_of_mapM haccepted).length_eq
  have hcommits := commits_andThen_ok (p := answer (outcome.accepted.mapM (x.acceptedOrder entry)))
    (f := fun accepted =>
      let ambiguous := outcome.ambiguous.map (ambiguousText x.codec)
      if ambiguous ≠ [] ∧ accepted = [] then
        raise (.ambiguousPlacement
          ("staggered submission remained ambiguous: " ++ joinUnique ambiguous) true
            outcome.attempts)
      else x.finalizeDualResult (x.entryResult entry outcome accepted) entry.submissionKey cancel)
    haccepted
  simp only at hfinal hcommits
  split_ifs at hfinal hcommits with hdoubt
  · simp at hfinal
  · have hr := x.finalizeDualResult_returned _ _ _ _ _ hfinal
    refine ⟨by rw [hr, entryResult_complete, hlength], ?_⟩
    rw [← hr] at hfinal hcommits
    exact ⟨hfinal, hcommits⟩

/-- An incomplete set that is handed back was cancelled, by a cancel that
returned. -/
theorem settleEntry_incomplete (entry : Entry) (outcome : MemberResult) (cancel : Except Exn Unit)
    (b : Bot) (r : PlacementResult)
    (h : (x.settleEntry entry outcome cancel).result b = .ok r) :
    r.complete = decide (outcome.accepted.length = entry.specifications.length) ∧
      (r.complete = false → r.orders ≠ [] → cancel = .ok () ∧
        .cancel x.account (r.orders.map PlacedOrder.orderId) ∈
          (x.settleEntry entry outcome cancel).commits b) := by
  obtain ⟨hcomplete, hfinal, hcommits⟩ := x.settleEntry_finalizes entry outcome cancel b r h
  refine ⟨hcomplete, fun hincomplete horders => ?_⟩
  rw [hcommits]
  unfold finalizeDualResult at hfinal ⊢
  simp only [hincomplete, Bool.false_eq_true, if_false, if_pos horders] at hfinal ⊢
  obtain ⟨_, -, hfinal⟩ := andThen_returned hfinal
  obtain ⟨u, hcancel, -⟩ := andThen_returned hfinal
  refine ⟨hcancel, ?_⟩
  rw [bind_eq, commits_andThen_ok (result_commit _ _)]
  exact List.mem_append_left _ (List.mem_singleton_self _)

/-- With something registered under legs of the entry, and a cancel that
returns where the set is incomplete, a result is handed back. -/
theorem settleEntry_handsBack (entry : Entry) (outcome : MemberResult) (cancel : Except Exn Unit)
    (b : Bot) (hlegs : ∀ order ∈ outcome.accepted, order.outcome ∈ entry.legs.map Leg.outcome)
    (hsome : outcome.accepted ≠ [])
    (hcancel : outcome.accepted.length = entry.specifications.length ∨ cancel = .ok ()) :
    ∃ r, (x.settleEntry entry outcome cancel).result b = .ok r := by
  obtain ⟨accepted, haccepted⟩ := Results.mapM_returns fun order horder =>
    x.acceptedOrder_returns entry order (hlegs order horder)
  have hlength := (Results.forall₂_of_mapM haccepted).length_eq
  have hne : accepted ≠ [] := by
    rw [← List.length_pos_iff] at hsome ⊢
    omega
  refine ⟨x.entryResult entry outcome accepted, ?_⟩
  unfold settleEntry
  rw [bind_eq, result_andThen, result_answer, haccepted]
  simp only [Except.bind, hne, and_false, if_false]
  unfold finalizeDualResult
  rcases hcancel with hfull | rfl
  · rw [if_pos (by rw [entryResult_complete, ← hlength]; exact decide_eq_true hfull)]
    simp [result_andThen, Except.bind]
  · split_ifs <;> simp [result_andThen, Except.bind]

end Exchange

def pairMarket : Market := ⟨"btc-updown-5m-0", "0xc0", 0, 300, "up-token", "down-token", 5, 1 / 100⟩

def liveReply (orderId : String) : Value :=
  .object [("success", .bool true), ("orderID", .string orderId), ("status", .string "live")]

def pairExchange : Exchange where
  codec.loads body :=
    (["0xa1", "0xb2"].find? fun orderId => liveBody orderId = body).map liveReply
  codec.repr _ := ""
  codec.compact _ := ""
  account := "primary"
  entrySubmission := .single

def pairEntry : Entry where
  market := pairMarket
  price := 1 / 10
  size := 10
  specifications := [("up", "up-token"), ("down", "down-token")]
  legs := pairMember.legs
  submissionKey := submissionKey pairMarket (1 / 10) 10
  paired := rfl

def conflictTrack : Track :=
  (((pairTrack.onSlot pairLimits 0).onSlot pairLimits 0).onReply 0 (upSend 1)
    (upAccepted "0xa1")).onReply 0 (upSend 3) (upAccepted "0xb2")

theorem conflictTrack_reachable : World.Reachable pairPlan ⟨0, pairLimits, [conflictTrack]⟩ := by
  obtain ⟨venue, clock, r, hstart, hrun⟩ := pairTrack_reachable
  refine ⟨venue, clock, r, hstart, ?_⟩
  have hsecond := hrun.tail (.slot _ 0 (le_refl 0) 0)
  have hthird := hsecond.tail (.slot _ 0 (le_refl 0) 0)
  have hfirst := hthird.tail (.reply _ 0 (le_refl 0) (upSend 1) (upAccepted "0xa1") _ rfl
    (by decide) rfl)
  exact hfirst.tail (.reply _ 0 (le_refl 0) (upSend 3) (upAccepted "0xb2") _ rfl (by decide) rfl)

/-- Every in-time accepting reply's id is among the orders that settling the
member's entry hands back, unless its leg had registered another id first;
that one is among them then, and the member's ambiguous items name both. With
a leg registered and a cancel that returns, a result is handed back. -/
theorem accepted_orders_kept (x : Exchange) (entry : Entry) (plan : Plan) (w : World)
    (hw : World.Reachable plan w) (i : ℕ) (t : Track) (ht : w.tracks[i]? = some t)
    (hentry : t.state.plan.legs = entry.legs) (b : Bot) :
    (t.state.result.accepted ≠ [] →
      ∃ r, (x.settleEntry entry t.state.result (.ok ())).result b = .ok r) ∧
    ∀ cancel r, (x.settleEntry entry t.state.result cancel).result b = .ok r →
      ∀ before h after, t.handled = before ++ h :: after → h.Accepts →
        (∃ o ∈ r.orders, o.outcome = h.reply.outcome ∧
          o.orderId = h.reply.verdict.orderId) ∨
        (∃ first ∈ before, first.Accepts ∧ first.reply.outcome = h.reply.outcome ∧
          first.reply.verdict.orderId ≠ h.reply.verdict.orderId ∧
          (∃ o ∈ r.orders, o.outcome = h.reply.outcome ∧
            o.orderId = first.reply.verdict.orderId) ∧
          Item.text (MemberState.conflictText h.reply.outcome first.reply.verdict.orderId
            h.reply.verdict.orderId) ∈ t.state.result.ambiguous) := by
  obtain ⟨m, _, _, hrun⟩ := hw.track ht
  have hbooks := Track.run_books hrun
  have hregistrations := Track.run_registrations hrun
  constructor
  · intro hsome
    refine x.settleEntry_handsBack entry t.state.result _ b (fun order horder => ?_) hsome
      (.inr rfl)
    obtain ⟨leg, hleg, hlookup⟩ := List.mem_filterMap.mp horder
    rw [hregistrations.named _ _ hlookup, ← hentry]
    exact List.mem_map_of_mem hleg
  · intro cancel r hr before h after hsplit hh
    obtain ⟨hplaced, _⟩ := x.settleEntry_returned entry t.state.result cancel b r hr
    -- a registered leg's order is among the result's, under its id
    have horder : ∀ a, t.state.accepted.lookup h.reply.outcome = some a →
        ∃ o ∈ r.orders, o.outcome = h.reply.outcome ∧ o.orderId = a.orderId := by
      intro a ha
      obtain ⟨o, ho, hok⟩ := Results.exists_result hplaced (Track.mem_result hbooks ha)
      obtain ⟨hid, houtcome⟩ := x.acceptedOrder_ok entry a o hok
      exact ⟨o, ho, houtcome.trans (hregistrations.named _ a ha), hid⟩
    obtain ⟨a, ha, hsame | ⟨⟨first, hfirst, hfirstAccepts, hleg, hid⟩, hother, hsaid⟩⟩ :=
      hregistrations.told before h after hsplit hh
    · obtain ⟨o, ho, houtcome, hoid⟩ := horder a ha
      exact Or.inl ⟨o, ho, houtcome, hoid.trans hsame⟩
    · refine Or.inr ⟨first, hfirst, hfirstAccepts, hleg, hid ▸ hother, ?_, ?_⟩
      · rw [hid]
        exact horder a ha
      · rw [hid]
        exact hsaid

theorem accepted_orders_kept_conflict :
    ∃ r, (pairExchange.settleEntry pairEntry conflictTrack.state.result (.ok ())).result
        (Bot.boot Database.empty) = .ok r ∧ ∃ o ∈ r.orders, o.orderId = "0xa1" := by
  obtain ⟨hback, hkept⟩ := accepted_orders_kept pairExchange pairEntry pairPlan _
    conflictTrack_reachable 0 conflictTrack rfl rfl (Bot.boot Database.empty)
  obtain ⟨r, hr⟩ := hback (by decide)
  rcases hkept _ r hr [] ⟨upSend 1, upAccepted "0xa1", false⟩ _ rfl ⟨rfl, rfl, rfl, rfl⟩ with
    ⟨o, ho, _, hid⟩ | ⟨first, hfirst, _⟩
  · exact ⟨r, hr, o, ho, hid⟩
  · exact absurd hfirst List.not_mem_nil

/-- The order a conflicting reply names is in no row of the result. -/
theorem accepted_orders_kept_lost :
    ∃ w t b r h, World.Reachable pairPlan w ∧ w.run.finished (w.clock + drainTime) = true ∧
      w.tracks[0]? = some t ∧
      (pairExchange.settleEntry pairEntry t.state.result (.ok ())).result b = .ok r ∧
      h ∈ t.handled ∧ h.Accepts ∧ ∀ o ∈ r.orders, o.orderId ≠ h.reply.verdict.orderId := by
  obtain ⟨r, hr⟩ := pairExchange.settleEntry_handsBack pairEntry conflictTrack.state.result (.ok ())
    (Bot.boot Database.empty) (by decide) (by decide) (.inr rfl)
  refine ⟨_, conflictTrack, _, r, ⟨upSend 3, upAccepted "0xb2", false⟩, conflictTrack_reachable,
    by decide, rfl, hr, by decide, ⟨rfl, rfl, rfl, rfl⟩, ?_⟩
  intro o ho hsame
  have hids := pairExchange.settleEntry_ids _ _ _ _ r hr
  have hmem : o.orderId ∈ conflictTrack.state.result.accepted.map AcceptedOrder.orderId :=
    hids ▸ List.mem_map_of_mem ho
  rw [hsame] at hmem
  exact absurd hmem (by decide)

/-- A member's clean result, and so a result without orders from settling its
entry, leaves no send without a verdict against it exactly when no request was
still out and every reply past the drain was such a verdict. -/
theorem clean_failure (plan : Plan) (w : World) (hw : World.Reachable plan w) (i : ℕ) (t : Track)
    (ht : w.tracks[i]? = some t) :
    (t.state.result.Clean → (t.Decided ↔ t.Drained)) ∧
    ∀ (x : Exchange) (entry : Entry) (cancel : Except Exn Unit) (b : Bot) (r : PlacementResult),
      (x.settleEntry entry t.state.result cancel).result b = .ok r → r.orders = [] →
        (t.Decided ↔ t.Drained) := by
  obtain ⟨m, _, _, hrun⟩ := hw.track ht
  have hclean : t.state.result.Clean → (t.Decided ↔ t.Drained) :=
    Track.decided_iff_drained (Track.run_books hrun) (Track.run_spoken hrun)
  refine ⟨hclean, fun x entry cancel b r hr hnone => ?_⟩
  obtain ⟨hplaced, hambiguous⟩ := x.settleEntry_returned entry _ cancel b r hr
  rw [hnone] at hplaced
  have hlength := (Results.forall₂_of_mapM hplaced).length_eq
  exact hclean ⟨List.length_eq_zero_iff.mp hlength, hambiguous hnone⟩

def refusedTrack : Track :=
  (((pairTrack.onSlot pairLimits 0).onReply 0 (upSend 1) (refusedReply "up")).onReply 0 downSend
    (refusedReply "down")).change (·.onStopping 0)

theorem refusedTrack_reachable : World.Reachable pairPlan ⟨0, pairLimits, [refusedTrack]⟩ := by
  obtain ⟨venue, clock, r, hstart, hrun⟩ := pairTrack_reachable
  have hsecond := hrun.tail (.slot _ 0 (le_refl 0) 0)
  have hup := hsecond.tail (.reply _ 0 (le_refl 0) (upSend 1) (refusedReply "up") _ rfl
    (by decide) rfl)
  have hdown := hup.tail (.reply _ 0 (le_refl 0) downSend (refusedReply "down") _ rfl
    (by decide) rfl)
  exact ⟨venue, clock, r, hstart, hdown.tail (.stopping _ 0 (le_refl 0))⟩

theorem clean_failure_refused :
    refusedTrack.Decided ∧ ∃ r,
      (pairExchange.settleEntry pairEntry refusedTrack.state.result (.ok ())).result
        (Bot.boot Database.empty) = .ok r ∧ r.orders = [] ∧
      (refusedTrack.Decided ↔ refusedTrack.Drained) := by
  obtain ⟨hclean, hsettled⟩ := clean_failure pairPlan _ refusedTrack_reachable 0 refusedTrack rfl
  have hintime : ∀ h ∈ refusedTrack.handled, h.late = false := by decide
  refine ⟨(hclean ⟨by decide, by decide⟩).mpr ⟨rfl, fun h hh hlate => ?_⟩, _, rfl, rfl, ?_⟩
  · rw [hintime h hh] at hlate
    cases hlate
  · exact hsettled pairExchange pairEntry (.ok ()) (Bot.boot Database.empty) _ rfl rfl

/-- A send with no reply by the end of the drain leaves a clean result. -/
theorem clean_failure_unanswered :
    ∃ w t, World.Reachable pairPlan w ∧ w.run.finished (w.clock + drainTime) = true ∧
      w.tracks[0]? = some t ∧ t.state.result.Clean ∧ ¬ t.Decided := by
  obtain ⟨venue, clock, r, hstart, hrun⟩ := pairTrack_reachable
  refine ⟨_, _, ⟨venue, clock, r, hstart, hrun.tail (.stopping _ 0 (le_refl 0))⟩, by decide, rfl,
    ⟨by decide, by decide⟩, fun hdecided => ?_⟩
  obtain ⟨h, hh, _⟩ := hdecided (upSend 1) (by decide)
  exact absurd hh (List.not_mem_nil)

end EventQuant
