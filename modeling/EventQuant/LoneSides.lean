import EventQuant.Settlement

/-!
An incomplete pair at the venue. The replies do not say all that a knock left
there: a send without a verdict may have registered its leg. Against every
state of the venue that agrees with the replies, settling an incomplete pair
cancels the orders the member registered, and no others.
-/
namespace EventQuant

open Program Knock

namespace Knock.Track

def Unanswered (t : Track) (outcome : String) : Prop :=
  ∀ h ∈ t.handled, h.reply.outcome = outcome → ¬ h.reply.Accepts

def LegDecided (t : Track) (outcome : String) : Prop :=
  ∀ s ∈ t.sent, s.leg.outcome = outcome → ∃ h ∈ t.handled, h.send = s ∧ h.reply.Against

/-- What the venue may hold of each leg: the orders its replies named; without
one, whatever a send that never got a verdict has registered, and all of a
leg's sends are of one signed order. -/
structure Truth (t : Track) (held : String → Set String) : Prop where
  accepted : ∀ h ∈ t.handled, h.reply.Accepts → h.reply.verdict.orderId ∈ held h.reply.outcome
  named : ∀ outcome, ¬ t.Unanswered outcome → ∀ orderId ∈ held outcome,
    ∃ h ∈ t.handled, h.reply.Accepts ∧ h.reply.outcome = outcome ∧ h.reply.verdict.orderId = orderId
  decided : ∀ outcome, t.Unanswered outcome → t.LegDecided outcome → held outcome = ∅
  one : ∀ outcome, t.Unanswered outcome → (held outcome).Subsingleton

def answered (t : Track) (outcome : String) : Set String :=
  {orderId | ∃ h ∈ t.handled, h.reply.Accepts ∧ h.reply.outcome = outcome ∧
    h.reply.verdict.orderId = orderId}

theorem answered_unanswered {t : Track} {outcome : String} (h : t.Unanswered outcome) :
    t.answered outcome = ∅ := by
  refine Set.eq_empty_iff_forall_notMem.mpr fun orderId hnamed => ?_
  obtain ⟨x, hx, haccepts, houtcome, -⟩ := hnamed
  exact h x hx houtcome haccepts

/-- The venue may hold just what the replies named. -/
theorem truth_answered (t : Track) : t.Truth t.answered where
  accepted h hh haccepts := ⟨h, hh, haccepts, rfl, rfl⟩
  named _ _ _ hnamed := hnamed
  decided _ hnone _ := answered_unanswered hnone
  one _ hnone := by
    rw [answered_unanswered hnone]
    exact Set.subsingleton_empty

/-- A leg without a verdict may also have registered, under any id. -/
theorem truth_registered {t : Track} {outcome : String} (hnone : t.Unanswered outcome)
    (hopen : ¬ t.LegDecided outcome) (orderId : String) :
    t.Truth (Function.update t.answered outcome {orderId}) where
  accepted h hh haccepts := by
    have hother : h.reply.outcome ≠ outcome := fun hsame => hnone h hh hsame haccepts
    rw [Function.update_of_ne hother]
    exact t.truth_answered.accepted h hh haccepts
  named other hanswered := by
    have hother : other ≠ outcome := fun hsame => hanswered (hsame ▸ hnone)
    rw [Function.update_of_ne hother]
    exact t.truth_answered.named other hanswered
  decided other hother hdecided := by
    have hne : other ≠ outcome := fun hsame => hopen (hsame ▸ hdecided)
    rw [Function.update_of_ne hne]
    exact t.truth_answered.decided other hother hdecided
  one other hother := by
    by_cases hsame : other = outcome
    · rw [hsame, Function.update_self]
      exact Set.subsingleton_singleton
    · rw [Function.update_of_ne hsame]
      exact t.truth_answered.one other hother

end Knock.Track

namespace Exchange

variable (x : Exchange)

/-- The only cancel a settled entry sends is for its own orders. -/
theorem settleEntry_cancels (entry : Entry) (outcome : MemberResult) (cancel : Except Exn Unit)
    (b : Bot) (r : PlacementResult) (h : (x.settleEntry entry outcome cancel).result b = .ok r)
    {account : String} {orderIds : List String}
    (hsent : .cancel account orderIds ∈ (x.settleEntry entry outcome cancel).commits b) :
    orderIds = outcome.accepted.map AcceptedOrder.orderId := by
  rw [← x.settleEntry_ids entry outcome cancel b r h]
  obtain ⟨-, hfinal, hcommits⟩ := x.settleEntry_finalizes entry outcome cancel b r h
  rw [hcommits] at hsent
  unfold finalizeDualResult at hfinal hsent
  simp only [bind_eq] at hfinal hsent
  split_ifs at hfinal hsent
  · rw [commits_andThen_ok (result_commit _ _), commits_commit] at hsent
    simp at hsent
  · obtain ⟨_, -, hfinal⟩ := andThen_returned hfinal
    obtain ⟨u, hcancel, -⟩ := andThen_returned hfinal
    rw [commits_andThen_ok (result_commit _ _), commits_andThen_ok hcancel,
      commits_andThen_ok (result_commit _ _)] at hsent
    have hboth : account = x.account ∧ orderIds = r.orders.map PlacedOrder.orderId := by
      simpa using hsent
    exact hboth.2
  · rw [commits_andThen_ok (result_commit _ _), commits_commit] at hsent
    simp at hsent
  · simp at hsent

def CancelSent (sent : List Effect) (account orderId : String) : Prop :=
  ∃ orderIds, .cancel account orderIds ∈ sent ∧ orderId ∈ orderIds

/-- An incomplete result with an accepted order cancels every order the venue
may hold of the pair, whatever it made of the sends without a verdict, exactly
when every order a reply named is among the accepted ones and each leg that no
reply accepted has a verdict against every send. -/
theorem lone_side_cancelled_iff (entry : Entry) (t : Track) (cancel : Except Exn Unit) (b : Bot)
    (r : PlacementResult) (hr : (x.settleEntry entry t.state.result cancel).result b = .ok r)
    (hsome : t.state.result.accepted ≠ []) (hincomplete : r.complete = false) :
    (∀ held, t.Truth held → ∀ outcome, ∀ orderId ∈ held outcome,
      CancelSent ((x.settleEntry entry t.state.result cancel).commits b) x.account orderId) ↔
    (∀ h ∈ t.handled, h.reply.Accepts →
      h.reply.verdict.orderId ∈ t.state.result.accepted.map AcceptedOrder.orderId) ∧
    ∀ outcome, t.Unanswered outcome → t.LegDecided outcome := by
  have hids := x.settleEntry_ids entry _ cancel b r hr
  have horders : r.orders ≠ [] := by
    intro hnone
    rw [hnone] at hids
    exact hsome (List.map_eq_nil_iff.mp hids.symm)
  have hcancelled := ((x.settleEntry_incomplete entry _ cancel b r hr).2 hincomplete horders).2
  have hsent : ∀ orderId,
      CancelSent ((x.settleEntry entry t.state.result cancel).commits b) x.account orderId ↔
        orderId ∈ t.state.result.accepted.map AcceptedOrder.orderId := by
    intro orderId
    constructor
    · intro h
      obtain ⟨orderIds, hcommit, hmem⟩ := h
      exact x.settleEntry_cancels entry _ cancel b r hr hcommit ▸ hmem
    · intro hmem
      exact ⟨_, hcancelled, hids.symm ▸ hmem⟩
  simp only [hsent]
  constructor
  · intro hall
    refine ⟨fun h hh haccepts => ?_, fun outcome hnone => ?_⟩
    · exact hall _ t.truth_answered _ _ (t.truth_answered.accepted h hh haccepts)
    · by_contra hopen
      -- the order could have any id, one of no accepted order too
      obtain ⟨orderId, hfresh⟩ := Infinite.exists_notMem_finset
        (t.state.result.accepted.map AcceptedOrder.orderId).toFinset
      refine hfresh (List.mem_toFinset.mpr ?_)
      refine hall _ (Track.truth_registered hnone hopen orderId) outcome orderId ?_
      rw [Function.update_self]
      exact Set.mem_singleton orderId
  · intro hcondition held htruth outcome orderId hheld
    obtain ⟨hnamed, hdecided⟩ := hcondition
    by_cases hnone : t.Unanswered outcome
    · rw [htruth.decided outcome hnone (hdecided outcome hnone)] at hheld
      exact absurd hheld (Set.notMem_empty orderId)
    · obtain ⟨h, hh, haccepts, -, hid⟩ := htruth.named outcome hnone orderId hheld
      exact hid ▸ hnamed h hh haccepts

end Exchange

/-- Both legs are sent once; the up order registers, and the down send gets
this reply. The bot is stopped then. -/
def halfTrack (rep : Reply) : Track :=
  (((pairTrack.onSlot pairLimits 0).onReply 0 (upSend 1) (upAccepted "0xa1")).onReply 0 downSend
    rep).change (·.onStopping 0)

theorem halfTrack_reachable (status : ℤ) (trace : String) (transient : Bool) :
    World.Reachable pairPlan ⟨0, pairLimits, [halfTrack (plainReply "down" status trace transient)]⟩ := by
  obtain ⟨venue, clock, r, hstart, hrun⟩ := pairTrack_reachable
  refine ⟨venue, clock, r, hstart, ?_⟩
  have hsecond := hrun.tail (.slot _ 0 (le_refl 0) 0)
  have hup := hsecond.tail (.reply _ 0 (le_refl 0) (upSend 1) (upAccepted "0xa1") _ rfl
    (by decide) rfl)
  have hdown := hup.tail (.reply _ 0 (le_refl 0) downSend (plainReply "down" status trace transient) _ rfl
    (by decide) rfl)
  exact hdown.tail (.stopping _ 0 (le_refl 0))

theorem halfTrack_sent (rep : Reply) : (halfTrack rep).sent = [upSend 1, downSend] := rfl

theorem halfTrack_handled (status : ℤ) (trace : String) (transient : Bool) :
    (halfTrack (plainReply "down" status trace transient)).handled =
      [⟨upSend 1, upAccepted "0xa1", false⟩,
        ⟨downSend, plainReply "down" status trace transient, false⟩] := rfl

theorem halfTrack_unanswered (status : ℤ) (trace : String) (transient : Bool) :
    (halfTrack (plainReply "down" status trace transient)).Unanswered "down" := by
  intro h hh houtcome haccepts
  rw [halfTrack_handled] at hh
  rcases List.mem_cons.mp hh with rfl | hh
  · exact absurd houtcome (by decide)
  · obtain rfl := List.mem_singleton.mp hh
    exact absurd haccepts.2.2 Bool.false_ne_true

theorem lone_side_cancelled_refused :
    ∃ r, (pairExchange.settleEntry pairEntry (halfTrack (refusedReply "down")).state.result
        (.ok ())).result (Bot.boot Database.empty) = .ok r ∧
      ∀ held, (halfTrack (refusedReply "down")).Truth held → ∀ outcome, ∀ orderId ∈ held outcome,
        Exchange.CancelSent ((pairExchange.settleEntry pairEntry
          (halfTrack (refusedReply "down")).state.result (.ok ())).commits
            (Bot.boot Database.empty)) "primary" orderId := by
  obtain ⟨r, hr⟩ := pairExchange.settleEntry_handsBack pairEntry
    (halfTrack (refusedReply "down")).state.result (.ok ()) (Bot.boot Database.empty) (by decide) (by decide)
    (.inr rfl)
  have hincomplete := (pairExchange.settleEntry_incomplete _ _ _ _ r hr).1
  refine ⟨r, hr, (pairExchange.lone_side_cancelled_iff pairEntry (halfTrack (refusedReply "down"))
    (.ok ()) (Bot.boot Database.empty) r hr (by decide) hincomplete).mpr ⟨?_, ?_⟩⟩
  · intro h hh haccepts
    rw [refusedReply, halfTrack_handled] at hh
    rcases List.mem_cons.mp hh with rfl | hh
    · decide
    · obtain rfl := List.mem_singleton.mp hh
      exact absurd haccepts.2.2 (by decide)
  · intro outcome hnone s hs hleg
    rw [halfTrack_sent] at hs
    rcases List.mem_cons.mp hs with rfl | hs
    · have hup := hnone ⟨upSend 1, upAccepted "0xa1", false⟩ List.mem_cons_self hleg
      exact absurd ⟨rfl, rfl, rfl⟩ hup
    · obtain rfl := List.mem_singleton.mp hs
      exact ⟨_, List.mem_cons_of_mem _ List.mem_cons_self, rfl, rfl, rfl, rfl⟩

/-- The down send got no verdict: the venue may hold its order, and no cancel
names it. -/
theorem lone_side_cancelled_hidden :
    ∃ w t r held, World.Reachable pairPlan w ∧ w.run.finished w.clock = true ∧
      w.tracks[0]? = some t ∧
      (pairExchange.settleEntry pairEntry t.state.result (.ok ())).result (Bot.boot Database.empty) =
        .ok r ∧ r.complete = false ∧ t.state.result.accepted ≠ [] ∧ t.Truth held ∧
      "0xb2" ∈ held "down" ∧
      ¬ Exchange.CancelSent ((pairExchange.settleEntry pairEntry t.state.result (.ok ())).commits
        (Bot.boot Database.empty)) "primary" "0xb2" := by
  obtain ⟨r, hr⟩ := pairExchange.settleEntry_handsBack pairEntry
    (halfTrack (limitedReply "down")).state.result (.ok ()) (Bot.boot Database.empty) (by decide) (by decide)
    (.inr rfl)
  have hincomplete := (pairExchange.settleEntry_incomplete _ _ _ _ r hr).1
  have hopen : ¬ (halfTrack (limitedReply "down")).LegDecided "down" := by
    intro hdecided
    obtain ⟨h, hh, hsend, hagainst⟩ := hdecided downSend (by decide) rfl
    rw [limitedReply, halfTrack_handled] at hh
    rcases List.mem_cons.mp hh with rfl | hh
    · exact absurd hsend (by decide)
    · obtain rfl := List.mem_singleton.mp hh
      exact absurd hagainst.2.1 (by decide)
  refine ⟨_, halfTrack (limitedReply "down"), r, _, halfTrack_reachable 429 "rate_limited" true, by decide,
    rfl, hr, hincomplete, by decide,
    Track.truth_registered (halfTrack_unanswered 429 "rate_limited" true) hopen "0xb2", ?_, ?_⟩
  · rw [Function.update_self]
    exact Set.mem_singleton _
  · intro hsent
    obtain ⟨orderIds, hcommit, hmem⟩ := hsent
    rw [pairExchange.settleEntry_cancels _ _ _ _ r hr hcommit] at hmem
    exact absurd hmem (by decide)

end EventQuant
