import Mathlib
import EventQuant.Knock.Books

/-!
One knock after the other over the same connections. A request is out from the
slot that sends it until the venue answers; its reply then waits for the
coordinator of the knock that sent it, or is dropped when that knock is over.
The count each member keeps is its own knock's, so it stands for what the
account has out only where the knock began with nothing of it out.
-/
namespace EventQuant.Knock

open Runs Venue

/-- A request on its connection, and the knock that sent it. -/
structure Request where
  account : String
  knock : ℕ
  send : Send
  lane : ℕ
  deriving DecidableEq

/-- The knock in progress, if one is, and the requests out at the venue.
`replied` holds the answers its coordinator has not come to yet. -/
structure Traffic where
  knock : ℕ
  world : Option World
  out : List Request
  replied : List Request

namespace Traffic

def quiet : Traffic := ⟨0, none, [], []⟩

def outOf (account : String) (s : Traffic) : ℕ := (s.out.map Request.account).count account

/-- `(*Venue).InFlight`: how many requests each connection is carrying. -/
def carrying (s : Traffic) : List ℕ :=
  (List.range lanes).map fun lane => (s.out.map Request.lane).count lane

/-- A slot of one member; the request it sends takes a stream at once. -/
def onSlot (w : World) (now : ℤ) (index : ℕ) (t : Track) (s : Traffic) : Traffic :=
  let world : World := ⟨now, w.limits, w.tracks.modify index (·.onSlot w.limits now)⟩
  match t.state.onSlot w.limits now with
  | (_, none) => { s with world := some world }
  | (m, some leg) =>
    let send : Send := ⟨leg, m.attempts, t.state.unregistered⟩
    { s with
      world := some world
      out := s.out ++ [⟨t.state.plan.account, s.knock, send, pick s.carrying⟩] }

/-- The venue answers, and the stream is free; only the knock that sent the
request takes its reply. -/
def onAnswer (r : Request) (s : Traffic) : Traffic :=
  { s with
    out := s.out.erase r
    replied := if r.knock = s.knock ∧ s.world.isSome then s.replied ++ [r] else s.replied }

/-- The members of a knock are accounts of the fleet, each once. -/
structure FleetPlan (fleet : Finset String) (plan : Plan) : Prop where
  accounts : ∀ m ∈ plan.members, m.account ∈ fleet
  distinct : (plan.members.map Member.account).Nodup

/-- A knock begins, goes on, hears from the venue, and returns, with or
without every reply. -/
inductive Step (fleet : Finset String) : Traffic → Traffic → Prop
  | begin (s : Traffic) (plan : Plan) (venue : Except String Unit) (r : RunState) (clock : ℤ)
      (hidle : s.world = none) (hplan : FleetPlan fleet plan)
      (hstart : RunState.start plan venue = .ok r) :
      Step fleet s { s with knock := s.knock + 1, world := some (World.start clock r) }
  | slot (s : Traffic) (w : World) (now : ℤ) (hnow : w.clock ≤ now) (index : ℕ) (t : Track)
      (hw : s.world = some w) (ht : w.tracks[index]? = some t) :
      Step fleet s (s.onSlot w now index t)
  | answer (s : Traffic) (r : Request) (hr : r ∈ s.out) : Step fleet s (s.onAnswer r)
  | reply (s : Traffic) (w : World) (now : ℤ) (hnow : w.clock ≤ now) (r : Request)
      (rep : Reply) (t : Track) (hw : s.world = some w) (hr : r ∈ s.replied)
      (ht : w.tracks[rep.member]? = some t) (haccount : t.state.plan.account = r.account)
      (hsend : r.send ∈ t.outstanding) (hleg : rep.outcome = r.send.leg.outcome) :
      Step fleet s { s with
        world := some ⟨now, w.limits, w.tracks.modify rep.member (·.onReply now r.send rep)⟩
        replied := s.replied.erase r }
  | notice (s : Traffic) (w w' : World) (hw : s.world = some w) (hstep : World.Step w w')
      (hout : w'.tracks.map Track.outstanding = w.tracks.map Track.outstanding) :
      Step fleet s { s with world := some w' }
  | finish (s : Traffic) (w : World) (now : ℤ) (hnow : w.clock ≤ now) (hw : s.world = some w)
      (hdone : w.run.finished now = true) :
      Step fleet s { s with world := none, replied := [] }

/-- A knock begins only with nothing out of any of its accounts. -/
def Rested (s s' : Traffic) : Prop :=
  s.world = none → ∀ (w : World) (t : Track), s'.world = some w → t ∈ w.tracks → s.outOf t.state.plan.account = 0

/-- A member's count covers all that its account has out and all the replies
not handled yet; every account and every connection keeps its bound. -/
structure Inv (fleet : Finset String) (s : Traffic) : Prop where
  reached : ∀ w, s.world = some w → ∃ plan, FleetPlan fleet plan ∧ World.Reachable plan w
  accounts : ∀ r ∈ s.out, r.account ∈ fleet
  onLane : ∀ r ∈ s.out, r.lane < lanes
  dropped : s.world = none → s.replied = []
  counted : ∀ (w : World) (i : ℕ) (t : Track), s.world = some w → w.tracks[i]? = some t →
    s.outOf t.state.plan.account + (s.replied.map Request.account).count t.state.plan.account ≤
      t.outstanding.length
  capped : ∀ account, s.outOf account ≤ inFlightCap
  streams : ∀ lane, (s.out.map Request.lane).count lane ≤ streamsPerLane

theorem quiet_inv (fleet : Finset String) : Inv fleet quiet where
  reached w hw := by simp [quiet] at hw
  accounts r hr := by simp [quiet] at hr
  onLane r hr := by simp [quiet] at hr
  dropped _ := rfl
  counted w i t hw := by simp [quiet] at hw
  capped account := by simp [quiet, outOf]
  streams lane := by simp [quiet]

/-- Two members of one knock are different accounts. -/
theorem FleetPlan.index_eq {fleet : Finset String} {plan : Plan} (h : FleetPlan fleet plan)
    {w : World} (hw : World.Reachable plan w) {i j : ℕ} {t u : Track}
    (ht : w.tracks[i]? = some t) (hu : w.tracks[j]? = some u)
    (hsame : t.state.plan.account = u.state.plan.account) : i = j := by
  have hnodup := h.distinct
  rw [← hw.plans, List.map_map] at hnodup
  have hi : i < (w.tracks.map (Member.account ∘ fun t => t.state.plan)).length := by
    simpa using (List.getElem?_eq_some_iff.mp ht).1
  refine (List.getElem?_inj hi hnodup).mp ?_
  simp [ht, hu, hsame]

theorem FleetPlan.mem {fleet : Finset String} {plan : Plan} (h : FleetPlan fleet plan)
    {w : World} (hw : World.Reachable plan w) {i : ℕ} {t : Track}
    (ht : w.tracks[i]? = some t) : t.state.plan.account ∈ fleet := by
  apply h.accounts
  rw [← hw.plans]
  exact List.mem_map_of_mem (List.mem_of_getElem? ht)

/-- Within the fleet's bound there is always a stream to spare for one more. -/
theorem Inv.spare {fleet : Finset String} {s : Traffic} (h : Inv fleet s)
    (hfleet : fleet.card ≤ fleetAccounts) (account : String) (hmem : account ∈ fleet)
    (hroom : s.outOf account < inFlightCap) : ∃ load ∈ s.carrying, load < streamsPerLane := by
  by_contra hfull
  push Not at hfull
  have hlanes : ∀ lane ∈ Finset.range lanes, streamsPerLane ≤ (s.out.map Request.lane).count lane :=
    fun lane hlane => hfull _ (List.mem_map.mpr ⟨lane, by simpa using hlane, rfl⟩)
  have hcarried : ∑ lane ∈ Finset.range lanes, (s.out.map Request.lane).count lane =
      s.out.length := by
    have hsum : ∑ lane ∈ Finset.range lanes, (s.out.map Request.lane : Multiset ℕ).count lane =
        (s.out.map Request.lane : Multiset ℕ).card :=
      Multiset.sum_count_eq_card (by simpa using h.onLane)
    simpa using hsum
  have hsent : ∑ account ∈ fleet, s.outOf account = s.out.length := by
    have hsum : ∑ account ∈ fleet, (s.out.map Request.account : Multiset String).count account =
        (s.out.map Request.account : Multiset String).card :=
      Multiset.sum_count_eq_card (by simpa using h.accounts)
    simpa [outOf] using hsum
  have hleast : lanes * streamsPerLane ≤ s.out.length := by
    have hsum := Finset.card_nsmul_le_sum _ _ _ hlanes
    rw [hcarried] at hsum
    simpa using hsum
  have hmost : ∑ account ∈ fleet, s.outOf account < ∑ _account ∈ fleet, inFlightCap :=
    Finset.sum_lt_sum (fun a _ => h.capped a) ⟨account, hmem, hroom⟩
  rw [hsent, Finset.sum_const_nat (fun _ _ => rfl)] at hmost
  have htotal : fleet.card * inFlightCap ≤ fleetAccounts * inFlightCap :=
    Nat.mul_le_mul_right _ hfleet
  have hshare : fleetAccounts * inFlightCap = lanes * streamsPerLane := by decide
  omega

theorem carrying_getD (s : Traffic) {lane : ℕ} (hlane : lane < lanes) :
    s.carrying.getD lane 0 = (s.out.map Request.lane).count lane := by
  simp [carrying, List.getD_eq_getElem?_getD, hlane]

theorem pick_lt_lanes (s : Traffic) : pick s.carrying < lanes := by
  have hlt := pick_lt s.carrying (by simp [carrying, lanes])
  simpa [carrying] using hlt

theorem outOf_erase {s : Traffic} {r : Request} (hr : r ∈ s.out) (account : String) :
    (s.onAnswer r).outOf account + (if r.account = account then 1 else 0) = s.outOf account := by
  have hperm := ((List.perm_cons_erase hr).map Request.account).count_eq account
  simp only [outOf, onAnswer, hperm, List.map_cons, List.count_cons, beq_iff_eq]

theorem count_replied_onAnswer (s : Traffic) (r : Request) (account : String) :
    ((s.onAnswer r).replied.map Request.account).count account ≤
      (s.replied.map Request.account).count account +
        (if r.account = account then 1 else 0) := by
  unfold onAnswer
  simp only
  split
  · simp only [List.map_append, List.map_cons, List.map_nil, List.count_append,
      List.count_singleton, beq_iff_eq, le_refl]
  · exact Nat.le_add_right _ _

theorem count_replied_erase {s : Traffic} {r : Request} (hr : r ∈ s.replied) (account : String) :
    ((s.replied.erase r).map Request.account).count account +
      (if r.account = account then 1 else 0) = (s.replied.map Request.account).count account := by
  have hperm := ((List.perm_cons_erase hr).map Request.account).count_eq account
  simp only [hperm, List.map_cons, List.count_cons, beq_iff_eq]

theorem Inv.onAnswer {fleet : Finset String} {s : Traffic} (h : Inv fleet s) (r : Request)
    (hr : r ∈ s.out) : Inv fleet (s.onAnswer r) where
  reached := h.reached
  accounts q hq := h.accounts q (List.mem_of_mem_erase hq)
  onLane q hq := h.onLane q (List.mem_of_mem_erase hq)
  dropped hidle := by
    have hnone : s.world = none := hidle
    simp [Traffic.onAnswer, hnone, h.dropped hnone]
  counted w i t hw ht := by
    have hcount := h.counted w i t hw ht
    have hout := outOf_erase hr t.state.plan.account
    have hreplied := count_replied_onAnswer s r t.state.plan.account
    omega
  capped account := by
    have hout := outOf_erase hr account
    have hcap := h.capped account
    omega
  streams lane := by
    have hless : ((s.out.erase r).map Request.lane).count lane ≤
        (s.out.map Request.lane).count lane := (List.erase_sublist.map Request.lane).count_le lane
    exact hless.trans (h.streams lane)

theorem Inv.onSlot {fleet : Finset String} (hfleet : fleet.card ≤ fleetAccounts) {s : Traffic}
    (h : Inv fleet s) (w : World) (now : ℤ) (hnow : w.clock ≤ now) (index : ℕ) (t : Track)
    (hw : s.world = some w) (ht : w.tracks[index]? = some t) :
    Inv fleet (s.onSlot w now index t) := by
  obtain ⟨plan, hplan, hreach⟩ := h.reached w hw
  obtain ⟨venue, clock, run, hstart, hrun⟩ := hreach
  have hreach : World.Reachable plan w := ⟨venue, clock, run, hstart, hrun⟩
  have hnext : World.Reachable plan ⟨now, w.limits, w.tracks.modify index (·.onSlot w.limits now)⟩ :=
    ⟨venue, clock, run, hstart, hrun.tail (.slot w now hnow index)⟩
  -- the other members' tracks are what they were
  have htracks : ∀ (i : ℕ) (u : Track), (w.tracks.modify index (·.onSlot w.limits now))[i]? = some u →
      (i = index ∧ u = t.onSlot w.limits now) ∨ (i ≠ index ∧ w.tracks[i]? = some u) := by
    intro i u hu
    rw [List.getElem?_modify] at hu
    by_cases hi : index = i
    · subst hi
      exact Or.inl ⟨rfl, by simpa [ht, eq_comm] using hu⟩
    · exact Or.inr ⟨Ne.symm hi, by simpa [hi] using hu⟩
  rcases t.state.onSlot_cases w.limits now with
    ⟨m, hslot, hquiet⟩ | ⟨leg, hslot, hopen, hroom, hturn⟩
  · have hsame : s.onSlot w now index t = { s with
        world := some ⟨now, w.limits, w.tracks.modify index (·.onSlot w.limits now)⟩ } := by
      simp only [Traffic.onSlot, hslot]
    rw [hsame]
    exact {
      reached := by
        rintro _ ⟨⟩
        exact ⟨plan, hplan, hnext⟩
      accounts := h.accounts
      onLane := h.onLane
      dropped := by simp
      counted := by
        rintro _ i u ⟨⟩ hu
        rcases htracks i u hu with ⟨rfl, rfl⟩ | ⟨_, hu⟩
        · have hsame : t.onSlot w.limits now = { t with state := m } := by
            simp only [Track.onSlot, hslot]
          rw [hsame]
          simp only [hquiet.plan]
          exact h.counted w i t hw ht
        · exact h.counted w i u hw hu
      capped := h.capped
      streams := h.streams }
  · have hbooks := hreach.books ht
    have hcount := h.counted w index t hw ht
    have hunder : s.outOf t.state.plan.account < inFlightCap := by
      have hflight := hbooks.inFlight
      omega
    have hmem := hplan.mem hreach ht
    have hspare := pick_spare _ (h.spare hfleet _ hmem hunder)
    rw [carrying_getD s (pick_lt_lanes s)] at hspare
    have hsends : s.onSlot w now index t = { s with
        world := some ⟨now, w.limits, w.tracks.modify index (·.onSlot w.limits now)⟩
        out := s.out ++ [⟨t.state.plan.account, s.knock,
          ⟨leg, t.state.fire.attempts, t.state.unregistered⟩, pick s.carrying⟩] } := by
      simp only [Traffic.onSlot, hslot]
    have hsent : t.onSlot w.limits now = { t with
        state := t.state.fire
        sent := t.sent ++ [⟨leg, t.state.fire.attempts, t.state.unregistered⟩]
        outstanding := t.outstanding ++ [⟨leg, t.state.fire.attempts, t.state.unregistered⟩] } := by
      simp only [Track.onSlot, hslot]
    rw [hsends]
    exact {
      reached := by
        rintro _ ⟨⟩
        exact ⟨plan, hplan, hnext⟩
      accounts := by
        intro r hr
        rcases List.mem_append.mp hr with hr | hr
        · exact h.accounts r hr
        · rw [List.mem_singleton] at hr
          exact hr ▸ hmem
      onLane := by
        intro r hr
        rcases List.mem_append.mp hr with hr | hr
        · exact h.onLane r hr
        · rw [List.mem_singleton] at hr
          exact hr ▸ pick_lt_lanes s
      dropped := by simp
      counted := by
        rintro _ i u ⟨⟩ hu
        rcases htracks i u hu with ⟨rfl, rfl⟩ | ⟨hi, hu⟩
        · rw [hsent]
          simp only [outOf, MemberState.fire, List.map_append, List.map_cons, List.map_nil,
            List.count_append, List.count_singleton_self, List.length_append,
            List.length_singleton] at hcount ⊢
          omega
        · have hother : t.state.plan.account ≠ u.state.plan.account :=
            fun hsame => hi (hplan.index_eq hreach ht hu hsame).symm
          have hcountu := h.counted w i u hw hu
          simpa [outOf, List.count_singleton, hother] using hcountu
      capped := by
        intro account
        have hcap := h.capped account
        simp only [outOf, List.map_append, List.map_cons, List.map_nil, List.count_append,
          List.count_singleton, beq_iff_eq] at hcap hunder ⊢
        split
        · rename_i hsame
          subst hsame
          omega
        · exact hcap
      streams := by
        intro lane
        have hstreams := h.streams lane
        simp only [List.map_append, List.map_cons, List.map_nil, List.count_append,
          List.count_singleton, beq_iff_eq]
        split
        · rename_i hsame
          subst hsame
          omega
        · exact hstreams }

/-- A knock that begins with nothing out of its accounts counts from zero. -/
theorem Inv.begin {fleet : Finset String} {s : Traffic} (h : Inv fleet s) (plan : Plan)
    (venue : Except String Unit) (r : RunState) (clock : ℤ) (hidle : s.world = none)
    (hplan : FleetPlan fleet plan) (hstart : RunState.start plan venue = .ok r)
    (hrested : ∀ t ∈ (World.start clock r).tracks, s.outOf t.state.plan.account = 0) :
    Inv fleet { s with knock := s.knock + 1, world := some (World.start clock r) } where
  reached := by
    rintro _ ⟨⟩
    exact ⟨plan, hplan, venue, clock, r, hstart, .refl⟩
  accounts := h.accounts
  onLane := h.onLane
  dropped := by simp
  counted := by
    rintro _ i t ⟨⟩ ht
    have hnone := hrested t (List.mem_of_getElem? ht)
    have hreplied := h.dropped hidle
    simp only [outOf] at hnone
    simp [outOf, hnone, hreplied]
  capped := h.capped
  streams := h.streams

theorem Inv.reply {fleet : Finset String} {s : Traffic} (h : Inv fleet s) (w : World) (now : ℤ)
    (hnow : w.clock ≤ now) (r : Request) (rep : Reply) (t : Track) (hw : s.world = some w)
    (hr : r ∈ s.replied) (ht : w.tracks[rep.member]? = some t)
    (haccount : t.state.plan.account = r.account) (hsend : r.send ∈ t.outstanding)
    (hleg : rep.outcome = r.send.leg.outcome) :
    Inv fleet { s with
      world := some ⟨now, w.limits, w.tracks.modify rep.member (·.onReply now r.send rep)⟩
      replied := s.replied.erase r } := by
  obtain ⟨plan, hplan, venue, clock, run, hstart, hrun⟩ := h.reached w hw
  have hreach : World.Reachable plan w := ⟨venue, clock, run, hstart, hrun⟩
  have hplans := (Track.Step.reply t now r.send rep hsend hleg).plan
  have hpos : 0 < t.outstanding.length := List.length_pos_of_mem hsend
  have herase : (t.outstanding.erase r.send).length = t.outstanding.length - 1 :=
    List.length_erase_of_mem hsend
  exact {
    reached := by
      rintro _ ⟨⟩
      exact ⟨plan, hplan, venue, clock, run, hstart,
        hrun.tail (.reply w now hnow r.send rep t ht hsend hleg)⟩
    accounts := h.accounts
    onLane := h.onLane
    dropped := by simp
    counted := by
      rintro _ i u ⟨⟩ hu
      rw [List.getElem?_modify] at hu
      by_cases hi : rep.member = i
      · subst hi
        obtain rfl : t.onReply now r.send rep = u := by simpa [ht] using hu
        have hcount := h.counted w _ t hw ht
        have hfewer := count_replied_erase hr t.state.plan.account
        rw [if_pos haccount.symm] at hfewer
        simp only [outOf, hplans] at hcount ⊢
        simp only [Track.onReply, herase]
        omega
      · have hu' : w.tracks[i]? = some u := by simpa [hi] using hu
        have hcount := h.counted w i u hw hu'
        have hfewer := count_replied_erase hr u.state.plan.account
        simp only [outOf] at hcount ⊢
        omega
    capped := h.capped
    streams := h.streams }

/-- An event that sends nothing and answers nothing moves no count. -/
theorem Inv.notice {fleet : Finset String} {s : Traffic} (h : Inv fleet s) (w w' : World)
    (hw : s.world = some w) (hstep : World.Step w w')
    (hout : w'.tracks.map Track.outstanding = w.tracks.map Track.outstanding) :
    Inv fleet { s with world := some w' } := by
  obtain ⟨plan, hplan, venue, clock, run, hstart, hrun⟩ := h.reached w hw
  exact {
    reached := by
      rintro _ ⟨⟩
      exact ⟨plan, hplan, venue, clock, run, hstart, hrun.tail hstep⟩
    accounts := h.accounts
    onLane := h.onLane
    dropped := by simp
    counted := by
      rintro _ i t' ⟨⟩ ht'
      have hi : i < w.tracks.length := by
        rw [← World.step_length hstep]
        exact (List.getElem?_eq_some_iff.mp ht').1
      have ht := List.getElem?_eq_getElem hi
      obtain ⟨u, hu, htrack⟩ := World.step_track hstep ht
      rw [ht', Option.some.injEq] at hu
      subst hu
      have hsame : t'.outstanding = w.tracks[i].outstanding := by
        have hat := congrArg (fun l => l[i]?) hout
        simpa [ht', hi] using hat
      have hcount := h.counted w i _ hw ht
      rw [hsame, htrack.plan]
      exact hcount
    capped := h.capped
    streams := h.streams }

theorem Step.inv {fleet : Finset String} (hfleet : fleet.card ≤ fleetAccounts) {s s' : Traffic}
    (hstep : Step fleet s s') (hrested : Rested s s') (h : Inv fleet s) : Inv fleet s' := by
  cases hstep with
  | begin plan venue r clock hidle hplan hstart =>
    exact h.begin plan venue r clock hidle hplan hstart
      (fun t ht => hrested hidle _ t rfl ht)
  | slot w now hnow index t hw ht => exact h.onSlot hfleet w now hnow index t hw ht
  | answer r hr => exact h.onAnswer r hr
  | reply w now hnow r rep t hw hr ht haccount hsend hleg =>
    exact h.reply w now hnow r rep t hw hr ht haccount hsend hleg
  | notice w w' hw hnotice hout => exact h.notice w w' hw hnotice hout
  | finish w now hnow hw hdone =>
    exact {
      reached := by simp
      accounts := h.accounts
      onLane := h.onLane
      dropped := fun _ => rfl
      counted := by simp
      capped := h.capped
      streams := h.streams }

/-- Over any sequence of knocks that each begin with nothing out of their
accounts, no account ever has more than its share of requests out, and no
connection carries more than it may. -/
theorem order_budget (fleet : Finset String) (hfleet : fleet.card ≤ fleetAccounts) (s : Traffic)
    (hrun : Run (fun u v => Step fleet u v ∧ Rested u v) quiet s) :
    (∀ account, s.outOf account ≤ inFlightCap) ∧ ∀ load ∈ s.carrying, load ≤ streamsPerLane := by
  have hinv : Inv fleet s := run_preserves (Inv fleet)
    (fun _ _ hstep hu => Step.inv hfleet hstep.1 hstep.2 hu) hrun (quiet_inv fleet)
  refine ⟨hinv.capped, fun load hload => ?_⟩
  obtain ⟨lane, _, rfl⟩ := List.mem_map.mp hload
  exact hinv.streams lane

theorem pairPlan_fleet (market : String) :
    FleetPlan {"primary"} { pairPlan with market := market } :=
  ⟨by simp [pairPlan, pairMember], by simp [pairPlan]⟩

/-- One request is answered and its knock returns; the next knock begins with
nothing out, and sends. -/
theorem rested_knocks :
    ∃ s, Run (fun u v => Step {"primary"} u v ∧ Rested u v) quiet s ∧ s.knock = 2 ∧
      s.outOf "primary" = 1 := by
  have hfirst : Run (fun u v => Step {"primary"} u v ∧ Rested u v) quiet _ :=
    .single ⟨.begin quiet _ (.ok ()) pairRun 0 rfl (pairPlan_fleet "0xc0") pairPlan_starts,
      fun _ _ _ _ _ => rfl⟩
  have hsent := hfirst.tail ⟨.slot _ (World.start 0 pairRun) 0 (le_refl _) 0 _ rfl rfl,
    by intro h; cases h⟩
  have hanswered := hsent.tail ⟨.answer _
    ⟨"primary", 1, ⟨⟨"up", "up-order"⟩, 1, pairMember.legs⟩, 0⟩ (by decide), by intro h; cases h⟩
  have hstopped := hanswered.tail ⟨.notice _ _ _ rfl (.stopping _ 0 (le_refl _)) rfl,
    by intro h; cases h⟩
  have hreturned := hstopped.tail ⟨.finish _ _ drainTime (by decide) rfl (by decide),
    by intro h; cases h⟩
  have hsecond := hreturned.tail ⟨.begin _ _ (.ok ()) pairRun drainTime rfl (pairPlan_fleet "0xc1")
    pairPlan_starts, fun _ _ _ _ _ => rfl⟩
  have hagain := hsecond.tail ⟨.slot _ (World.start drainTime pairRun) drainTime (le_refl _) 0 _
    rfl rfl, by intro h; cases h⟩
  exact ⟨_, hagain, rfl, by decide⟩

theorem order_budget_rested :
    ∃ s, Run (fun u v => Step {"primary"} u v ∧ Rested u v) quiet s ∧ s.knock = 2 ∧
      s.outOf "primary" = 1 ∧ (∀ account, s.outOf account ≤ inFlightCap) ∧
      ∀ load ∈ s.carrying, load ≤ streamsPerLane := by
  obtain ⟨s, hrun, hknock, hout⟩ := rested_knocks
  exact ⟨s, hrun, hknock, hout, order_budget {"primary"} (by decide) s hrun⟩

/-- Slots the venue does not answer, 20 ms apart, each put one more request
out, up to the cap of the knock's own count. -/
theorem unanswered_slots (s : Traffic) (hidle : s.world = none) (plan : Plan)
    (hplan : FleetPlan {"primary"} plan) (hstart : RunState.start plan (.ok ()) = .ok pairRun)
    (clock : ℤ) (hclock : 0 ≤ clock) (hend : clock ≤ 200000 * 1000000) (k : ℕ)
    (hk : k ≤ inFlightCap) :
    ∃ s' t, Run (Step {"primary"}) s s' ∧
      s'.world = some ⟨clock + 20000000 * k, ⟨240000, 300000⟩, [t]⟩ ∧
      t.state = { MemberState.start pairMember with attempts := k, inFlight := k } ∧
      s'.outOf "primary" = s.outOf "primary" + k := by
  have hcap : inFlightCap = 300 := rfl
  induction k with
  | zero =>
    refine ⟨_, Track.start (MemberState.start pairMember),
      .single (.begin s plan (.ok ()) pairRun clock hidle hplan hstart), ?_, rfl, rfl⟩
    simp [World.start, pairRun]
  | succ k ih =>
    obtain ⟨s', t, hrun, hw, hstate, hout⟩ := ih (by omega)
    have hlast : clock + 20000000 * k ≤ clock + 20000000 * (k + 1 : ℕ) := by omega
    have hslot : ∃ leg, t.state.onSlot ⟨240000, 300000⟩ (clock + 20000000 * (k + 1 : ℕ)) =
        (t.state.fire, some leg) := by
      have hopen : t.state.stopped = false := by rw [hstate]; rfl
      have hflight : t.state.inFlight = k := by rw [hstate]
      have hearly : t.state.pastDeadline ⟨240000, 300000⟩ (clock + 20000000 * (k + 1 : ℕ)) =
          (t.state, false) := by
        unfold MemberState.pastDeadline unixMilli
        rw [if_neg (by simp only; omega), if_neg (by simp only; omega)]
      have hturn : t.state.turn = pairMember.legs := by rw [hstate]; rfl
      have hplace : t.state.attempts % t.state.turn.length < t.state.turn.length :=
        Nat.mod_lt _ (by rw [hturn]; decide)
      refine ⟨t.state.turn[t.state.attempts % t.state.turn.length], ?_⟩
      unfold MemberState.onSlot
      rw [if_neg (by simp [hopen]), hearly]
      simp only
      rw [if_neg (by rw [hflight]; omega), List.getElem?_eq_getElem hplace]
      rfl
    obtain ⟨leg, hslot⟩ := hslot
    refine ⟨_, t.onSlot ⟨240000, 300000⟩ (clock + 20000000 * (k + 1 : ℕ)),
      hrun.tail (.slot s' _ _ hlast 0 t hw rfl), ?_, ?_, ?_⟩
    · simp only [Traffic.onSlot, hslot]
      rfl
    · simp only [Track.onSlot, hslot, MemberState.fire]
      rw [hstate]
      simp
    · have haccount : t.state.plan.account = "primary" := by rw [hstate]; rfl
      simp only [Traffic.onSlot, hslot, outOf, List.map_append, List.map_cons, List.map_nil,
        List.count_append, haccount, List.count_singleton_self] at hout ⊢
      omega

/-- The account's knock fills its count, stops, and returns at the end of its
drain with every reply still out; the next knock counts from zero again. -/
theorem order_budget_second_knock :
    ∃ s, Run (Step {"primary"}) quiet s ∧ inFlightCap < s.outOf "primary" := by
  obtain ⟨s, t, hrun, hw, hstate, hout⟩ := unanswered_slots quiet rfl _ (pairPlan_fleet "0xc0")
    pairPlan_starts 0 (by decide) (by decide) inFlightCap (le_refl _)
  have hstop := hrun.tail (.notice s _ _ hw
    (.stopping _ (0 + 20000000 * (inFlightCap : ℕ)) (le_refl _)) rfl)
  have hdrained : (0 : ℤ) + 20000000 * (inFlightCap : ℕ) ≤
      0 + 20000000 * (inFlightCap : ℕ) + drainTime := by decide
  have hreturn := hstop.tail (.finish _ _ _ hdrained rfl (by
    simp [World.run, Track.change, hstate, RunState.finished, RunState.pending,
      MemberState.onStopping, MemberState.stop, MemberState.due, MemberState.start]))
  obtain ⟨s', t', hrun', _, _, hout'⟩ := unanswered_slots { s with world := none, replied := [] }
    rfl _ (pairPlan_fleet "0xc1") pairPlan_starts 9000000000 (by decide) (by decide) 1 (by decide)
  refine ⟨s', hreturn.trans hrun', ?_⟩
  rw [hout']
  simp only [outOf] at hout ⊢
  simp only [quiet, List.map_nil, List.count_nil] at hout
  omega

end Traffic

end EventQuant.Knock
