import Mathlib
import EventQuant.Knock.MemberSpec

/-!
What a track's history says of its member's counters, for members with any
legs at all: each send is numbered by its place, each is either out or
answered once, the count in flight is the number out, and only a leg of the
member is ever sent or registered.
-/
namespace EventQuant.Knock

open Runs

namespace Track

structure Books (t : Track) : Prop where
  attempts : t.sent.length = t.state.attempts
  inFlight : t.state.inFlight = t.outstanding.length
  numbered : ∀ (k : ℕ) (s : Send), t.sent[k]? = some s → s.attempt = k + 1
  settled : (t.outstanding ++ t.handled.map Handled.send).Perm t.sent
  capped : t.outstanding.length ≤ inFlightCap
  sends : ∀ s ∈ t.sent, s.leg ∈ t.state.plan.legs
  registered : ∀ o ∈ t.state.accepted, o ∈ t.state.plan.legs.map Leg.outcome

theorem start_books (m : Member) : Books (start (MemberState.start m)) where
  attempts := rfl
  inFlight := rfl
  numbered k s hs := by simp [start] at hs
  settled := .refl _
  capped := Nat.zero_le _
  sends s hs := by simp [start] at hs
  registered o ho := absurd ho (AList.notMem_empty o)

/-- Every send is out or answered. -/
theorem Books.balance {t : Track} (h : Books t) :
    t.sent.length = t.outstanding.length + t.handled.length := by
  rw [← h.settled.length_eq]
  simp

theorem Books.sent_of_outstanding {t : Track} (h : Books t) {s : Send} (hs : s ∈ t.outstanding) :
    s ∈ t.sent :=
  h.settled.subset (List.mem_append_left _ hs)

/-- No two sends are alike: their numbers differ. -/
theorem Books.sent_nodup {t : Track} (h : Books t) : t.sent.Nodup := by
  rw [List.nodup_iff_getElem?_ne_getElem?]
  intro i j hij hj heq
  have hi := h.numbered i _ (List.getElem?_eq_getElem (hij.trans hj))
  have hat : t.sent[j]? = some t.sent[i] := by
    rw [← heq]
    exact List.getElem?_eq_getElem (hij.trans hj)
  have hplace := h.numbered j _ hat
  omega

/-- The books read nothing of the member that a quiet change touches. -/
theorem Books.quiet {t : Track} (h : Books t) {m : MemberState}
    (hm : MemberState.Quiet t.state m) : Books { t with state := m } where
  attempts := h.attempts.trans hm.attempts.symm
  inFlight := hm.inFlight.trans h.inFlight
  numbered := h.numbered
  settled := h.settled
  capped := h.capped
  sends s hs := hm.plan ▸ h.sends s hs
  registered o ho := by
    rw [hm.plan]
    exact h.registered o (hm.accepted ▸ ho)

theorem Books.onSlot {t : Track} (h : Books t) (limits : Limits) (now : ℤ) :
    Books (t.onSlot limits now) := by
  rcases t.state.onSlot_cases limits now with
    ⟨m, hslot, hquiet⟩ | ⟨leg, hslot, hopen, hroom, hturn⟩
  · simp only [Track.onSlot, hslot]
    exact h.quiet hquiet
  · simp only [Track.onSlot, hslot]
    have hcount := h.inFlight
    have hattempts := h.attempts
    have hleg : leg ∈ t.state.plan.legs :=
      t.state.mem_turn_legs leg (List.mem_of_getElem? hturn)
    exact {
      attempts := by simp [MemberState.fire, hattempts]
      inFlight := by simp [MemberState.fire, hcount]
      numbered := by
        intro k s hs
        rw [List.getElem?_append] at hs
        split at hs
        · exact h.numbered k s hs
        · obtain ⟨hk, rfl⟩ := List.getElem?_eq_some_iff.mp hs
          simp only [List.length_singleton] at hk
          simp only [List.getElem_singleton, MemberState.fire]
          omega
      settled := by
        rw [List.append_assoc]
        refine .trans ?_ (h.settled.append_right _)
        rw [List.append_assoc]
        exact .append_left _ List.perm_append_comm
      capped := by simp only [List.length_append, List.length_singleton]; omega
      sends := by
        intro s hs
        rcases List.mem_append.mp hs with hs | hs
        · exact h.sends s hs
        · rw [List.mem_singleton] at hs
          subst hs
          exact hleg
      registered := h.registered }

theorem Books.onReply {t : Track} (h : Books t) (now : ℤ) (send : Send) (rep : Reply)
    (hsend : send ∈ t.outstanding) (hleg : rep.outcome = send.leg.outcome) :
    Books (t.onReply now send rep) := by
  have hpos : 0 < t.outstanding.length := List.length_pos_of_mem hsend
  have herase : (t.outstanding.erase send).length = t.outstanding.length - 1 :=
    List.length_erase_of_mem hsend
  have hcount := h.inFlight
  have hcapped := h.capped
  -- the history with the request taken off the count, whatever the reply says
  have hcounted : Books { t.onReply now send rep with state := t.state.counted } := {
    attempts := h.attempts
    inFlight := by simp only [MemberState.counted, Track.onReply, herase]; omega
    numbered := h.numbered
    settled := by
      simp only [Track.onReply, List.map_append, List.map_cons, List.map_nil]
      refine .trans ?_ h.settled
      rw [← List.append_assoc]
      refine .trans List.perm_append_comm ?_
      exact .append_right _ (List.perm_cons_erase hsend).symm
    capped := by simp only [Track.onReply, herase]; omega
    sends := h.sends
    registered := h.registered }
  rcases t.state.onReply_cases now rep with hquiet | ⟨_, _, hquiet, _⟩
  · exact hcounted.quiet hquiet
  · have hkept : Books { t.onReply now send rep with state := t.state.counted.keep rep } := {
      hcounted with
      registered := by
        intro o ho
        rcases (AList.mem_insert _).mp ho with rfl | hold
        · rw [hleg]
          exact List.mem_map_of_mem (h.sends send (h.sent_of_outstanding hsend))
        · exact h.registered o hold }
    exact hkept.quiet hquiet

theorem Step.books {t t' : Track} (h : Step t t') (ht : Books t) : Books t' := by
  cases h with
  | idle => exact ht
  | slot limits now => exact ht.onSlot limits now
  | reply now send rep hsend hleg => exact ht.onReply now send rep hsend hleg
  | failed now failure => exact ht.quiet (t.state.onFailed_quiet now failure)
  | stopping now => exact ht.quiet (t.state.onStopping_quiet now)
  | timer limits now => exact ht.quiet (t.state.onTimer_quiet limits now)

theorem run_books {m : Member} {t : Track} (h : Run Step (start (MemberState.start m)) t) :
    Books t :=
  run_preserves Books (fun _ _ hstep ht => Step.books hstep ht) h (start_books m)

/-- A step never changes the member's plan. -/
theorem Step.plan {t t' : Track} (h : Step t t') : t'.state.plan = t.state.plan := by
  cases h with
  | idle => rfl
  | slot limits now =>
    rcases t.state.onSlot_cases limits now with ⟨m, hslot, hquiet⟩ | ⟨leg, hslot, _⟩
    · simpa only [Track.onSlot, hslot] using hquiet.plan
    · simp only [Track.onSlot, hslot, MemberState.fire]
  | reply now send rep hsend hleg =>
    rcases t.state.onReply_cases now rep with hquiet | ⟨_, _, hquiet, _⟩
    · exact hquiet.plan
    · exact hquiet.plan
  | failed now failure => exact (t.state.onFailed_quiet now failure).plan
  | stopping now => exact (t.state.onStopping_quiet now).plan
  | timer limits now => exact (t.state.onTimer_quiet limits now).plan

theorem run_plan {m : MemberState} {t : Track} (h : Run Step (start m) t) :
    t.state.plan = m.plan :=
  run_preserves (fun u => u.state.plan = m.plan) (fun _ _ hstep hu => hstep.plan.trans hu) h rfl

/-- A stop is for good and ends the sends, a leg's id stays, and so does
what the member found ambiguous. -/
structure Kept (t t' : Track) : Prop where
  stopped : t.state.stopped = true →
    t'.state.stopped = true ∧ t'.state.attempts = t.state.attempts
  ids : ∀ (o : String) (a : AcceptedOrder), t.state.accepted.lookup o = some a →
    ∃ a', t'.state.accepted.lookup o = some a' ∧ a'.orderId = a.orderId
  ambiguous : ∀ i ∈ t.state.ambiguous.list, i ∈ t'.state.ambiguous.list

theorem Kept.refl (t : Track) : Kept t t :=
  ⟨fun h => ⟨h, rfl⟩, fun _ a ha => ⟨a, ha, rfl⟩, fun _ hi => hi⟩

theorem Kept.trans {t₁ t₂ t₃ : Track} (h : Kept t₁ t₂) (h' : Kept t₂ t₃) : Kept t₁ t₃ where
  stopped hs := by
    obtain ⟨hs', hattempts⟩ := h.stopped hs
    exact ⟨(h'.stopped hs').1, (h'.stopped hs').2.trans hattempts⟩
  ids o a ha := by
    obtain ⟨b, hb, hba⟩ := h.ids o a ha
    obtain ⟨c, hc, hcb⟩ := h'.ids o b hb
    exact ⟨c, hc, hcb.trans hba⟩
  ambiguous i hi := h'.ambiguous i (h.ambiguous i hi)

theorem Kept.quiet {t t' : Track} (h : MemberState.Quiet t.state t'.state) : Kept t t' where
  stopped hs := ⟨(h.stopped hs).1, h.attempts⟩
  ids o a ha := ⟨a, by rw [h.accepted]; exact ha, rfl⟩
  ambiguous := h.ambiguous

theorem Kept.onReply (t : Track) (now : ℤ) (send : Send) (rep : Reply) :
    Kept t (t.onReply now send rep) := by
  have hcounted : Kept t { t with state := t.state.counted } :=
    ⟨fun h => ⟨h, rfl⟩, fun _ a ha => ⟨a, ha, rfl⟩, fun _ hi => hi⟩
  rcases t.state.onReply_cases now rep with hquiet | ⟨_, ⟨_, _, _, hsame⟩, hquiet, _⟩
  · exact hcounted.trans (Kept.quiet hquiet)
  · have hkeep : Kept t { t with state := t.state.counted.keep rep } := by
      refine ⟨fun h => ⟨h, rfl⟩, fun o a ha => ?_, fun _ hi => hi⟩
      by_cases ho : o = rep.outcome
      · subst ho
        exact ⟨_, AList.lookup_insert _, (hsame a ha).symm⟩
      · exact ⟨a, (AList.lookup_insert_ne ho).trans ha, rfl⟩
    exact hkeep.trans (Kept.quiet hquiet)

theorem Step.kept {t t' : Track} (h : Step t t') : Kept t t' := by
  cases h with
  | idle => exact Kept.refl t
  | slot limits now =>
    rcases t.state.onSlot_cases limits now with ⟨m, hslot, hquiet⟩ | ⟨leg, hslot, hopen, _, _⟩
    · simp only [Track.onSlot, hslot]
      exact Kept.quiet hquiet
    · simp only [Track.onSlot, hslot]
      exact ⟨fun h => absurd h (by simp [hopen]), fun _ a ha => ⟨a, ha, rfl⟩, fun _ hi => hi⟩
  | reply now send rep hsend hleg => exact Kept.onReply t now send rep
  | failed now failure => exact Kept.quiet (t.state.onFailed_quiet now failure)
  | stopping now => exact Kept.quiet (t.state.onStopping_quiet now)
  | timer limits now => exact Kept.quiet (t.state.onTimer_quiet limits now)

theorem run_kept {t t' : Track} (h : Run Step t t') : Kept t t' :=
  run_relates Kept (fun _ => True) Kept.refl (fun _ _ _ => Kept.trans)
    (fun _ _ _ _ => trivial) (fun _ _ hstep _ => hstep.kept) h trivial

end Track

namespace World

theorem step_plans {w w' : World} (h : Step w w') :
    w'.tracks.map (fun t => t.state.plan) = w.tracks.map (fun t => t.state.plan) := by
  apply List.ext_getElem?
  intro i
  rw [List.getElem?_map, List.getElem?_map]
  cases ht : w.tracks[i]? with
  | none =>
    have hlength := step_length h
    have hi := List.getElem?_eq_none_iff.mp ht
    rw [List.getElem?_eq_none (by omega)]
  | some t =>
    obtain ⟨t', ht', hstep⟩ := step_track h ht
    simp [ht', hstep.plan]

/-- The members of a reached world are the plan's, in its order. -/
theorem Reachable.plans {plan : Plan} {w : World} (h : Reachable plan w) :
    w.tracks.map (fun t => t.state.plan) = plan.members := by
  obtain ⟨venue, clock, r, hstart, hrun⟩ := h
  have hbegin : (start clock r).tracks.map (fun t => t.state.plan) = plan.members := by
    simp [start, (RunState.start_members hstart).1, Function.comp_def, Track.start,
      MemberState.start]
  exact run_preserves (fun v => v.tracks.map (fun t => t.state.plan) = plan.members)
    (fun _ _ hstep hv => (step_plans hstep).trans hv) hrun hbegin

theorem Reachable.books {plan : Plan} {w : World} (h : Reachable plan w) {i : ℕ} {t : Track}
    (ht : w.tracks[i]? = some t) : Track.Books t := by
  obtain ⟨m, _, _, hrun⟩ := h.track ht
  exact Track.run_books hrun

end World

end EventQuant.Knock
