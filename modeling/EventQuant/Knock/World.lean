import EventQuant.Knock.Coordinator
import EventQuant.Library.Runs

/-!
The coordinator together with what it cannot see: the sends that are out and
the replies it has handled. A track is one member with its own history; a
world is every track under the knock's common bounds. The world's steps are
the coordinator's events, a reply only to a send that is out, and each of them
acts on every track by itself.
-/
namespace EventQuant.Knock

open Runs

/-- A send, its number, and the legs not registered when it went out. -/
structure Send where
  leg : Leg
  attempt : ℕ
  turn : List Leg
  deriving DecidableEq, Repr

/-- A reply the coordinator handled; a late one reached it past the member's
drain and was counted only. -/
structure Handled where
  send : Send
  reply : Reply
  late : Bool
  deriving DecidableEq, Repr

structure Track where
  state : MemberState
  sent : List Send
  outstanding : List Send
  handled : List Handled

namespace Track

def start (m : MemberState) : Track := ⟨m, [], [], []⟩

def onSlot (limits : Limits) (now : ℤ) (t : Track) : Track :=
  match t.state.onSlot limits now with
  | (m, none) => { t with state := m }
  | (m, some leg) =>
    let send : Send := ⟨leg, m.attempts, t.state.unregistered⟩
    { t with state := m, sent := t.sent ++ [send], outstanding := t.outstanding ++ [send] }

def onReply (now : ℤ) (send : Send) (rep : Reply) (t : Track) : Track where
  state := t.state.onReply now rep
  sent := t.sent
  outstanding := t.outstanding.erase send
  handled := t.handled ++ [⟨send, rep, t.state.stopped && decide (t.state.drainUntil < now)⟩]

def change (f : MemberState → MemberState) (t : Track) : Track := { t with state := f t.state }

/-- What one event of the coordinator does to one member. -/
inductive Step : Track → Track → Prop
  | idle (t : Track) : Step t t
  | slot (t : Track) (limits : Limits) (now : ℤ) : Step t (t.onSlot limits now)
  | reply (t : Track) (now : ℤ) (send : Send) (rep : Reply)
      (hsend : send ∈ t.outstanding) (hleg : rep.outcome = send.leg.outcome) :
      Step t (t.onReply now send rep)
  | failed (t : Track) (now : ℤ) (failure : String) :
      Step t (t.change (·.onFailed now failure))
  | stopping (t : Track) (now : ℤ) : Step t (t.change (·.onStopping now))
  | timer (t : Track) (limits : Limits) (now : ℤ) : Step t (t.change (·.onTimer limits now))

end Track

/-- The clock is the last reading an event was handled at. -/
structure World where
  clock : ℤ
  limits : Limits
  tracks : List Track

namespace World

def run (w : World) : RunState := ⟨w.limits, w.tracks.map Track.state⟩

def start (clock : ℤ) (r : RunState) : World := ⟨clock, r.limits, r.members.map Track.start⟩

/-- One event of the coordinator, at a reading no earlier than the last. -/
inductive Step : World → World → Prop
  | slot (w : World) (now : ℤ) (hnow : w.clock ≤ now) (index : ℕ) :
      Step w ⟨now, w.limits, w.tracks.modify index (·.onSlot w.limits now)⟩
  | reply (w : World) (now : ℤ) (hnow : w.clock ≤ now) (send : Send) (rep : Reply) (t : Track)
      (ht : w.tracks[rep.member]? = some t) (hsend : send ∈ t.outstanding)
      (hleg : rep.outcome = send.leg.outcome) :
      Step w ⟨now, w.limits, w.tracks.modify rep.member (·.onReply now send rep)⟩
  | giveUp (w : World) (now : ℤ) (hnow : w.clock ≤ now) (bound : ℤ) :
      Step w ⟨now, { w.limits with knockUntil := min w.limits.knockUntil bound }, w.tracks⟩
  | failed (w : World) (now : ℤ) (hnow : w.clock ≤ now) (failure : String) :
      Step w ⟨now, w.limits, w.tracks.map (Track.change (·.onFailed now failure))⟩
  | stopping (w : World) (now : ℤ) (hnow : w.clock ≤ now) :
      Step w ⟨now, w.limits, w.tracks.map (Track.change (·.onStopping now))⟩
  | timer (w : World) (now : ℤ) (hnow : w.clock ≤ now) :
      Step w ⟨now, w.limits, w.tracks.map (Track.change (·.onTimer w.limits now))⟩

def Reachable (plan : Plan) (w : World) : Prop :=
  ∃ venue clock r, RunState.start plan venue = .ok r ∧ Run Step (start clock r) w

end World

section Refinement

theorem Track.state_onSlot (limits : Limits) (now : ℤ) (t : Track) :
    (t.onSlot limits now).state = (t.state.onSlot limits now).1 := by
  unfold Track.onSlot
  split <;> rename_i h <;> rw [h]

/-- Every step of a world is the coordinator's handling of one event. -/
theorem World.step_run {w w' : World} (h : World.Step w w') :
    ∃ now e, w'.run = (w.run.handle now e).1 := by
  cases h with
  | slot now hnow index =>
    refine ⟨now, .slot index, ?_⟩
    simp only [World.run, RunState.handle, RunState.onSlot, List.getElem?_map]
    cases hi : w.tracks[index]? with
    | none =>
      simp only [Option.map_none]
      rw [List.modify_eq_set_getElem?]
      simp [hi]
    | some t =>
      simp only [Option.map_some]
      rw [List.modify_eq_set_getElem?]
      simp [hi, List.map_set, Track.state_onSlot]
  | reply now hnow send rep t ht hsend hleg =>
    refine ⟨now, .reply rep, ?_⟩
    simp only [World.run, RunState.handle]
    congr 1
    rw [List.modify_eq_set_getElem?, List.modify_eq_set_getElem?]
    simp [ht, List.map_set, Track.onReply]
  | giveUp now hnow bound => exact ⟨now, .giveUp bound, rfl⟩
  | failed now hnow failure =>
    exact ⟨now, .failed failure, by simp [World.run, RunState.handle, Track.change]⟩
  | stopping now hnow => exact ⟨now, .stopping, by simp [World.run, RunState.handle, Track.change]⟩
  | timer now hnow => exact ⟨now, .timer, by simp [World.run, RunState.handle, Track.change]⟩

end Refinement

section Tracks

theorem World.modify_track {w : World} {i j : ℕ} {t : Track} (f : Track → Track)
    (ht : w.tracks[i]? = some t) :
    (w.tracks.modify j f)[i]? = some (if j = i then f t else t) := by
  rw [List.getElem?_modify]
  split <;> simp [ht]

/-- A step of the world is a step of each of its tracks. -/
theorem World.step_track {w w' : World} (h : World.Step w w') {i : ℕ} {t : Track}
    (ht : w.tracks[i]? = some t) : ∃ t', w'.tracks[i]? = some t' ∧ Track.Step t t' := by
  cases h with
  | slot now hnow index =>
    refine ⟨_, modify_track _ ht, ?_⟩
    split
    · exact .slot t w.limits now
    · exact .idle t
  | reply now hnow send rep u hu hsend hleg =>
    refine ⟨_, modify_track _ ht, ?_⟩
    split
    · rename_i hmember
      rw [hmember, ht, Option.some.injEq] at hu
      exact .reply t now send rep (hu ▸ hsend) hleg
    · exact .idle t
  | giveUp now hnow bound => exact ⟨t, ht, .idle t⟩
  | failed now hnow failure => exact ⟨_, by simp [ht], .failed t now failure⟩
  | stopping now hnow => exact ⟨_, by simp [ht], .stopping t now⟩
  | timer now hnow => exact ⟨_, by simp [ht], .timer t w.limits now⟩

theorem World.run_track {w w' : World} (h : Run World.Step w w') {i : ℕ} {t : Track}
    (ht : w.tracks[i]? = some t) : ∃ t', w'.tracks[i]? = some t' ∧ Run Track.Step t t' := by
  induction h with
  | refl => exact ⟨t, ht, .refl⟩
  | tail _ hstep ih =>
    obtain ⟨u, hu, hrun⟩ := ih
    obtain ⟨t', ht', hlast⟩ := World.step_track hstep hu
    exact ⟨t', ht', hrun.tail hlast⟩

theorem World.step_length {w w' : World} (h : World.Step w w') :
    w'.tracks.length = w.tracks.length := by
  cases h <;> simp

/-- Every track of a reached world began as a member with at least one leg. -/
theorem World.Reachable.track {plan : Plan} {w : World} (h : Reachable plan w) {i : ℕ}
    {t : Track} (ht : w.tracks[i]? = some t) :
    ∃ m ∈ plan.members, m.legs ≠ [] ∧ Run Track.Step (Track.start (MemberState.start m)) t := by
  obtain ⟨venue, clock, r, hstart, hrun⟩ := h
  have hlength : w.tracks.length = (World.start clock r).tracks.length :=
    run_preserves (fun v => v.tracks.length = (World.start clock r).tracks.length)
      (fun _ _ hstep hu => (World.step_length hstep).trans hu) hrun rfl
  have hi : i < (World.start clock r).tracks.length := by
    rw [← hlength]
    exact (List.getElem?_eq_some_iff.mp ht).1
  obtain ⟨t', ht', htrack⟩ := World.run_track hrun (List.getElem?_eq_getElem hi)
  rw [ht, Option.some.injEq] at ht'
  subst ht'
  obtain ⟨hmembers, hlegs⟩ := RunState.start_members hstart
  have hm : i < plan.members.length := by
    simpa [World.start, hmembers] using hi
  refine ⟨plan.members[i], List.getElem_mem hm, hlegs _ (List.getElem_mem hm), ?_⟩
  simpa [World.start, hmembers] using htrack

end Tracks

section Pair

def pairMember : Member := ⟨"primary", 0, [⟨"up", "up-order"⟩, ⟨"down", "down-order"⟩]⟩

def pairPlan : Plan where
  market := "0xc0"
  intervalMs := 20
  knockUntilMs := 240000
  marketEndMs := 300000
  members := [pairMember]
  preview := none

def pairRun : RunState := ⟨⟨240000, 300000⟩, [MemberState.start pairMember]⟩

theorem pairPlan_starts : RunState.start pairPlan (.ok ()) = .ok pairRun := by
  have hinterval : ¬ nanoseconds 20 ≤ 0 := by decide +kernel
  simp [RunState.start, pairPlan, hinterval, pairRun, pairMember]

def pairTrack : Track :=
  (Track.start (MemberState.start pairMember)).onSlot ⟨240000, 300000⟩ 0

theorem pairTrack_reachable :
    World.Reachable pairPlan ⟨0, ⟨240000, 300000⟩, [pairTrack]⟩ :=
  ⟨.ok (), 0, pairRun, pairPlan_starts, .single (.slot _ 0 (le_refl 0) 0)⟩

def pairLimits : Limits := ⟨240000, 300000⟩

def upSend (attempt : ℕ) : Send := ⟨⟨"up", "up-order"⟩, attempt, pairMember.legs⟩

def downSend : Send := ⟨⟨"down", "down-order"⟩, 2, pairMember.legs⟩

def liveBody (orderId : String) : String :=
  "\x7b\"success\":true,\"orderID\":\"" ++ orderId ++ "\",\"status\":\"live\"\x7d"

def upAccepted (orderId : String) : Reply where
  member := 0
  outcome := "up"
  returned := 100
  status := 200
  body := liveBody orderId
  verdict := ⟨"accepted", false, true, orderId, "", false⟩
  failure := none

def plainReply (outcome : String) (status : ℤ) (trace : String) (transient : Bool) : Reply where
  member := 0
  outcome := outcome
  returned := 100
  status := status
  body := ""
  verdict := ⟨trace, transient, false, "", "", false⟩
  failure := none

def refusedReply (outcome : String) : Reply := plainReply outcome 400 "rejected" false

def limitedReply (outcome : String) : Reply := plainReply outcome 429 "rate_limited" true

end Pair

end EventQuant.Knock
