import Mathlib
import EventQuant.Knock.Books

/-!
What holds of every member in every world the coordinator reaches: the count
of requests in flight, the cap, the turn of the legs, and that a stop and a
registered id are for good. The members' legs are told apart by their
outcomes.
-/
namespace EventQuant.Knock

open Runs

namespace MemberState

/-- With some leg still to register, some leg is not registered. -/
theorem unregistered_ne_nil (m : MemberState) (hlegs : (m.plan.legs.map Leg.outcome).Nodup)
    (hregistered : ∀ o ∈ m.accepted, o ∈ m.plan.legs.map Leg.outcome)
    (hopen : m.accepted.entries.length ≠ m.plan.legs.length) : m.unregistered ≠ [] := by
  intro hnil
  apply hopen
  have hall : ∀ o, o ∈ m.accepted.keys ↔ o ∈ m.plan.legs.map Leg.outcome := by
    intro o
    constructor
    · exact fun ho => hregistered o (AList.mem_keys.mp ho)
    · intro ho
      obtain ⟨leg, hleg, rfl⟩ := List.mem_map.mp ho
      have hnone := List.filter_eq_nil_iff.mp hnil leg hleg
      apply AList.mem_keys.mp
      rw [← AList.lookup_isSome]
      simpa [Option.isSome_iff_ne_none] using hnone
  have hperm := (List.perm_ext_iff_of_nodup m.accepted.keys_nodup hlegs).mpr hall
  simpa [AList.keys, List.keys] using hperm.length_eq

end MemberState

namespace Track

/-- With legs told apart by their outcomes, each send carries the leg at its
number's place in the legs not registered then, and a member still sending
has a leg to go. -/
structure Inv (t : Track) : Prop extends Books t where
  legs : (t.state.plan.legs.map Leg.outcome).Nodup
  turns : ∀ (k : ℕ) (s : Send), t.sent[k]? = some s → s.turn[k % s.turn.length]? = some s.leg
  remaining : t.state.stopped = false →
    t.state.accepted.entries.length ≠ t.state.plan.legs.length

theorem start_inv (m : Member) (hne : m.legs ≠ []) (hlegs : (m.legs.map Leg.outcome).Nodup) :
    Inv (start (MemberState.start m)) where
  toBooks := start_books m
  legs := hlegs
  turns k s hs := by simp [start] at hs
  remaining _ h := hne (List.length_eq_zero_iff.mp h.symm)

/-- A member still sending has a leg to send, so the turn is over these. -/
theorem Inv.turn_eq {t : Track} (h : Inv t) (hopen : t.state.stopped = false) :
    t.state.unregistered ≠ [] ∧ t.state.turn = t.state.unregistered := by
  have hne := MemberState.unregistered_ne_nil t.state h.legs h.registered (h.remaining hopen)
  exact ⟨hne, by simp [MemberState.turn, hne]⟩

/-- The invariant reads nothing of the member that a quiet change touches. -/
theorem Inv.quiet {t : Track} (h : Inv t) {m : MemberState}
    (hm : MemberState.Quiet t.state m) : Inv { t with state := m } where
  toBooks := h.toBooks.quiet hm
  legs := hm.plan ▸ h.legs
  turns := h.turns
  remaining hopen := by
    have hbefore : t.state.stopped = false := by
      by_contra hstopped
      have hafter := (hm.stopped (by simpa using hstopped)).1
      simp [hafter] at hopen
    rw [hm.plan, hm.accepted]
    exact h.remaining hbefore

theorem Inv.onSlot {t : Track} (h : Inv t) (limits : Limits) (now : ℤ) :
    Inv (t.onSlot limits now) := by
  have hbooks := h.toBooks.onSlot limits now
  rcases t.state.onSlot_cases limits now with
    ⟨m, hslot, hquiet⟩ | ⟨leg, hslot, hopen, hroom, hturn⟩
  · simp only [Track.onSlot, hslot]
    exact h.quiet hquiet
  · simp only [Track.onSlot, hslot] at hbooks ⊢
    rw [(h.turn_eq hopen).2] at hturn
    exact {
      toBooks := hbooks
      legs := h.legs
      turns := by
        intro k s hs
        rw [List.getElem?_append] at hs
        split at hs
        · exact h.turns k s hs
        · rename_i hk
          obtain ⟨hlast, rfl⟩ : k = t.sent.length ∧ _ = s := by
            simpa [List.getElem?_singleton, Nat.sub_eq_zero_iff_le,
              (Nat.le_antisymm_iff.trans (and_iff_left (Nat.not_lt.mp hk)))] using hs
          rw [hlast, h.attempts]
          exact hturn
      remaining := h.remaining }

theorem Inv.onReply {t : Track} (h : Inv t) (now : ℤ) (send : Send) (rep : Reply)
    (hsend : send ∈ t.outstanding) (hleg : rep.outcome = send.leg.outcome) :
    Inv (t.onReply now send rep) := by
  have hbooks := h.toBooks.onReply now send rep hsend hleg
  have hplan : (t.onReply now send rep).state.plan = t.state.plan :=
    (Step.reply t now send rep hsend hleg).plan
  refine ⟨hbooks, by rw [hplan]; exact h.legs, h.turns, fun hstill => ?_⟩
  rw [hplan]
  rcases t.state.onReply_cases now rep with hquiet | ⟨_, _, hquiet, hopen⟩
  · have hbefore : t.state.stopped = false := by
      by_contra hstopped
      have hcounted : t.state.counted.stopped = true := by
        simpa [MemberState.counted] using hstopped
      simp [Track.onReply, (hquiet.stopped hcounted).1] at hstill
    have haccepted : (t.onReply now send rep).state.accepted = t.state.accepted := hquiet.accepted
    rw [haccepted]
    exact h.remaining hbefore
  · have haccepted : (t.onReply now send rep).state.accepted =
        (t.state.counted.keep rep).accepted := hquiet.accepted
    rw [haccepted]
    exact hopen hstill

theorem Step.inv {t t' : Track} (h : Step t t') (ht : Inv t) : Inv t' := by
  cases h with
  | idle => exact ht
  | slot limits now => exact ht.onSlot limits now
  | reply now send rep hsend hleg => exact ht.onReply now send rep hsend hleg
  | failed now failure => exact ht.quiet (t.state.onFailed_quiet now failure)
  | stopping now => exact ht.quiet (t.state.onStopping_quiet now)
  | timer limits now => exact ht.quiet (t.state.onTimer_quiet limits now)

theorem run_inv {m : Member} (hne : m.legs ≠ []) (hlegs : (m.legs.map Leg.outcome).Nodup)
    {t : Track} (h : Run Step (start (MemberState.start m)) t) : Inv t :=
  run_preserves Inv (fun _ _ hstep ht => Step.inv hstep ht) h (start_inv m hne hlegs)

/-- Consecutive sends over one set of legs go round it: as many of them as
there are legs carry each leg once. -/
theorem Inv.round {t : Track} (h : Inv t) (block : List Send) (legs : List Leg)
    (hblock : block <:+: t.sent) (hturn : ∀ s ∈ block, s.turn = legs)
    (hlength : block.length = legs.length) : (block.map Send.leg).Perm legs := by
  obtain ⟨before, after, hsent⟩ := hblock
  have hrotate : block.map Send.leg = legs.rotate before.length := by
    apply List.ext_getElem
    · simp [hlength]
    · intro k hk hk'
      have hkb : k < block.length := by simpa using hk
      have hat : t.sent[before.length + k]? = some block[k] := by
        rw [← hsent, List.append_assoc, List.getElem?_append_right (Nat.le_add_right _ _),
          Nat.add_sub_cancel_left, List.getElem?_append_left hkb, List.getElem?_eq_getElem hkb]
      have hleg := h.turns _ _ hat
      rw [hturn _ (List.getElem_mem hkb)] at hleg
      rw [List.getElem_map, List.getElem_rotate]
      have hplace := (List.getElem?_eq_some_iff.mp hleg).2
      simpa [Nat.add_comm] using hplace.symm
  rw [hrotate]
  exact List.rotate_perm legs before.length

end Track

/-- The coordinator's invariants, for every plan, every sequence of its events
and every member whose legs have distinct outcomes: the count of requests in
flight, a stop for good, no send of a registered leg, the legs in turn, and
ids that stay. -/
theorem coordinator_invariants (plan : Plan) (w : World) (hw : World.Reachable plan w)
    (i : ℕ) (t : Track) (ht : w.tracks[i]? = some t)
    (hlegs : (t.state.plan.legs.map Leg.outcome).Nodup) :
    (t.state.inFlight = t.state.attempts - t.handled.length ∧
      0 ≤ t.state.inFlight ∧ t.state.inFlight ≤ inFlightCap) ∧
    (t.state.stopped = true → ∀ w', Run World.Step w w' →
      ∃ t', w'.tracks[i]? = some t' ∧ t'.state.stopped = true ∧
        t'.state.attempts = t.state.attempts) ∧
    ((∀ s ∈ t.sent, s.leg ∈ s.turn) ∧
      (t.state.stopped = false → t.state.unregistered ≠ [])) ∧
    (∀ block legs, block <:+: t.sent → (∀ s ∈ block, s.turn = legs) →
      block.length = legs.length → (block.map Send.leg).Perm legs) ∧
    (∀ o a, t.state.accepted.lookup o = some a → ∀ w', Run World.Step w w' →
      ∃ t' a', w'.tracks[i]? = some t' ∧ t'.state.accepted.lookup o = some a' ∧
        a'.orderId = a.orderId) := by
  obtain ⟨m, _, hne, hrun⟩ := hw.track ht
  have hplan : t.state.plan = m := Track.run_plan hrun
  have hinv : Track.Inv t := Track.run_inv hne (hplan ▸ hlegs) hrun
  refine ⟨⟨?_, ?_, ?_⟩, ?_, ⟨?_, fun hopen => (hinv.turn_eq hopen).1⟩, hinv.round, ?_⟩
  · have hattempts := hinv.attempts
    have hbalance := hinv.balance
    rw [hinv.inFlight]
    omega
  · rw [hinv.inFlight]
    omega
  · rw [hinv.inFlight]
    exact_mod_cast hinv.capped
  · intro hstopped w' hw'
    obtain ⟨t', ht', htrack⟩ := World.run_track hw' ht
    exact ⟨t', ht', (Track.run_kept htrack).stopped hstopped⟩
  · intro s hs
    obtain ⟨k, hk⟩ := List.mem_iff_getElem?.mp hs
    exact List.mem_of_getElem? (hinv.turns k s hk)
  · intro o a ha w' hw'
    obtain ⟨t', ht', htrack⟩ := World.run_track hw' ht
    obtain ⟨a', ha', hid⟩ := (Track.run_kept htrack).ids o a ha
    exact ⟨t', a', ht', ha', hid⟩

def stoppedTrack : Track :=
  (((pairTrack.onSlot pairLimits 0).onReply 0 (upSend 1) (upAccepted "0xa1")).onSlot
    pairLimits 0).change (·.onStopping 0)

theorem stoppedTrack_reachable : World.Reachable pairPlan ⟨0, pairLimits, [stoppedTrack]⟩ := by
  obtain ⟨venue, clock, r, hstart, hrun⟩ := pairTrack_reachable
  have hsecond := hrun.tail (.slot _ 0 (le_refl 0) 0)
  have hup := hsecond.tail (.reply _ 0 (le_refl 0) (upSend 1) (upAccepted "0xa1") _ rfl
    (by decide) rfl)
  have hthird := hup.tail (.slot _ 0 (le_refl 0) 0)
  exact ⟨venue, clock, r, hstart, hthird.tail (.stopping _ 0 (le_refl 0))⟩

theorem coordinator_invariants_stopped :
    (stoppedTrack.state.inFlight = 3 - stoppedTrack.handled.length ∧
      0 ≤ stoppedTrack.state.inFlight ∧ stoppedTrack.state.inFlight ≤ inFlightCap) ∧
    (∀ w', Run World.Step ⟨0, pairLimits, [stoppedTrack]⟩ w' →
      ∃ t', w'.tracks[0]? = some t' ∧ t'.state.stopped = true ∧ t'.state.attempts = 3) ∧
    (∀ s ∈ stoppedTrack.sent, s.leg ∈ s.turn) ∧
    ([upSend 1, downSend].map Send.leg).Perm pairMember.legs ∧
    ∀ w', Run World.Step ⟨0, pairLimits, [stoppedTrack]⟩ w' →
      ∃ t' a', w'.tracks[0]? = some t' ∧ t'.state.accepted.lookup "up" = some a' ∧
        a'.orderId = "0xa1" := by
  obtain ⟨hflight, hstop, ⟨hleg, -⟩, hround, hids⟩ := coordinator_invariants pairPlan _
    stoppedTrack_reachable 0 stoppedTrack rfl (by decide)
  exact ⟨hflight, hstop rfl, hleg, hround _ _ (by decide) (by decide) rfl, hids "up" _ rfl⟩

end EventQuant.Knock
