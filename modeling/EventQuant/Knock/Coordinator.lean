import Mathlib
import EventQuant.Knock.Plan
import EventQuant.Venue.Reply

/-!
The knock's coordinator: each member's counters, registered orders and
collected replies, and what a slot, a reply, the deadline, a stop or a failure
does to them. One clock in nanoseconds serves for the source's monotonic and
wall readings, and each event is handled at one reading of it.
-/
namespace EventQuant.Knock

open Venue

def drainTime : ℤ := 3 * 1000000000

def fleetAccounts : ℕ := 5

/-- The most requests one account may have outstanding: its even share of the
connections' streams at the full fleet. -/
def inFlightCap : ℕ := lanes * streamsPerLane / fleetAccounts

def knockBudgetError : String := "no acceptance within the knocking budget"
def marketEndedError : String := "market ended before both orders were accepted"
def stoppedError : String := "knocking stopped: the bot is shutting down"

/-- `time.UnixMilli` of a clock reading, and back. -/
def unixMilli (now : ℤ) : ℤ := now / 1000000
def ofUnixMilli (ms : ℤ) : ℤ := ms * 1000000

/-- The coordinator's `member`. A `registered` of 0 says that no order has
registered; `drainUntil` counts once the member has stopped. -/
structure MemberState where
  plan : Member
  attempts : ℕ
  heldBack : ℕ
  inFlight : ℤ
  accepted : AList (fun _ : String => AcceptedOrder)
  registered : ℤ
  errors : Items
  ambiguous : Items
  stopped : Bool
  gaveUp : Bool
  drainUntil : ℤ

/-- The wall-clock bounds the coordinator holds all members to. -/
structure Limits where
  knockUntil : ℤ
  marketEndMs : ℤ
  deriving DecidableEq, Repr

/-- A reply as the sending goroutine hands it over; `failure` is our own
failure before anything was sent. -/
structure Reply where
  member : ℕ
  outcome : String
  returned : ℤ
  status : ℤ
  body : String
  verdict : Venue.Class
  failure : Option String
  deriving DecidableEq, Repr

namespace MemberState

def start (plan : Member) : MemberState where
  plan := plan
  attempts := 0
  heldBack := 0
  inFlight := 0
  accepted := ∅
  registered := 0
  errors := Items.new
  ambiguous := Items.new
  stopped := false
  gaveUp := false
  drainUntil := 0

def stop (now : ℤ) (m : MemberState) : MemberState :=
  if m.stopped then m else { m with stopped := true, drainUntil := now + drainTime }

def pastDeadline (limits : Limits) (now : ℤ) (m : MemberState) : MemberState × Bool :=
  if limits.marketEndMs ≤ unixMilli now then
    (stop now { m with errors := m.errors.text marketEndedError }, true)
  else if limits.knockUntil ≤ unixMilli now then
    (stop now { m with errors := m.errors.text knockBudgetError, gaveUp := true }, true)
  else (m, false)

def unregistered (m : MemberState) : List Leg :=
  m.plan.legs.filter fun leg => (m.accepted.lookup leg.outcome).isNone

/-- One leg per slot, turning over the legs not registered yet; all of them
once every leg has registered. -/
def turn (m : MemberState) : List Leg :=
  if m.unregistered = [] then m.plan.legs else m.unregistered

/-- The leg that goes out on this slot, if any does. A member without legs,
which `Run` refuses, would divide by zero in the source. -/
def onSlot (limits : Limits) (now : ℤ) (m : MemberState) : MemberState × Option Leg :=
  if m.stopped then (m, none)
  else match m.pastDeadline limits now with
    | (ended, true) => (ended, none)
    | (_, false) =>
      if (inFlightCap : ℤ) ≤ m.inFlight then ({ m with heldBack := m.heldBack + 1 }, none)
      else match m.turn[m.attempts % m.turn.length]? with
        | none => (m, none)
        | some leg =>
          ({ m with attempts := m.attempts + 1, inFlight := m.inFlight + 1 }, some leg)

def conflictText (outcome earlier later : String) : String :=
  "conflicting " ++ outcome ++ " order ids: " ++ earlier ++ ", " ++ later

def keep (rep : Reply) (m : MemberState) : MemberState :=
  { m with
    accepted := m.accepted.insert rep.outcome
      ⟨rep.outcome, rep.verdict.orderId, rep.status, rep.body⟩
    registered :=
      if m.registered = 0 ∨ rep.returned < m.registered then rep.returned else m.registered }

/-- An accepting reply. A second id for a leg stops the member and says so;
the first one stays. -/
def accept (now : ℤ) (rep : Reply) (m : MemberState) : MemberState :=
  match m.accepted.lookup rep.outcome with
  | some earlier =>
    if earlier.orderId = rep.verdict.orderId then m.keep rep
    else
      let text := conflictText rep.outcome earlier.orderId rep.verdict.orderId
      stop now { m with ambiguous := m.ambiguous.text text }
  | none => m.keep rep

def record (now : ℤ) (rep : Reply) (m : MemberState) : MemberState :=
  if rep.verdict.accepted then m.accept now rep
  else { m with errors := m.errors.reply rep.status rep.body }

/-- Sending stops once every leg has registered, and on a verdict other than
"not open yet"; the replies still out are drained. -/
def conclude (now : ℤ) (rep : Reply) (m : MemberState) : MemberState :=
  if m.accepted.entries.length = m.plan.legs.length then m.stop now
  else if !rep.verdict.accepted && !rep.verdict.notReady then m.stop now
  else m

def counted (m : MemberState) : MemberState := { m with inFlight := m.inFlight - 1 }

/-- A reply past the member's own drain no longer changes what it came to. -/
def onReply (now : ℤ) (rep : Reply) (m : MemberState) : MemberState :=
  if m.stopped && decide (m.drainUntil < now) then m.counted
  else match rep.failure with
    | some failure => stop now { m.counted with ambiguous := m.ambiguous.text failure }
    | none =>
      if rep.verdict.transient then
        { m.counted with ambiguous := m.ambiguous.firstOf rep.status rep.body }
      else (m.counted.record now rep).conclude now rep

def onFailed (now : ℤ) (failure : String) (m : MemberState) : MemberState :=
  if m.stopped then m
  else stop now { m with ambiguous := m.ambiguous.text ("knock failed: " ++ failure) }

def onStopping (now : ℤ) (m : MemberState) : MemberState :=
  if m.stopped then m else stop now { m with errors := m.errors.text stoppedError }

/-- The deadline holds even if no slot comes to check it. -/
def onTimer (limits : Limits) (now : ℤ) (m : MemberState) : MemberState :=
  if m.stopped then m else (m.pastDeadline limits now).1

/-- When the coordinator must look at this member again without a slot or a
reply; `none` once it is done. -/
def due (limits : Limits) (now : ℤ) (m : MemberState) : Option ℤ :=
  if m.stopped = false then some (ofUnixMilli (min limits.knockUntil limits.marketEndMs))
  else if 0 < m.inFlight ∧ now < m.drainUntil then some m.drainUntil
  else none

def result (m : MemberState) : MemberResult where
  account := m.plan.account
  attempts := m.attempts
  heldBack := m.heldBack
  accepted := m.plan.legs.filterMap fun leg => m.accepted.lookup leg.outcome
  registeredMs := if m.registered = 0 then none else some m.registered
  errors := m.errors.list
  ambiguous := m.ambiguous.list
  gaveUp := m.gaveUp

end MemberState

/-- The coordinator's own part of a `run`: the bounds and every member. -/
structure RunState where
  limits : Limits
  members : List MemberState

/-- What comes to the coordinator. -/
inductive Event
  | slot (member : ℕ)
  | reply (rep : Reply)
  | giveUp (bound : ℤ)
  | failed (failure : String)
  | stopping
  | timer
  deriving DecidableEq, Repr

namespace RunState

/-- `Run` up to the coordinator's first event. `venue` is what connecting to
the exchange endpoint answers. -/
def start (plan : Plan) (venue : Except String Unit) : Except String RunState :=
  if nanoseconds plan.intervalMs ≤ 0 then .error "interval_ms must be above 0"
  else if plan.members = [] then .error "a knock needs at least one member"
  else match plan.preview.elim (.ok ()) Preview.check with
    | .error refusal => .error refusal
    | .ok _ => match venue with
      | .error refusal => .error refusal
      | .ok _ => match plan.members.find? (fun m => m.legs = []) with
        | some m => .error ("member " ++ m.account ++ " has no orders")
        | none =>
          .ok ⟨⟨plan.knockUntilMs, plan.marketEndMs⟩, plan.members.map MemberState.start⟩

/-- A knock that starts has a member for each one of the plan, each with an
order to send. -/
theorem start_members {plan : Plan} {venue : Except String Unit} {r : RunState}
    (h : start plan venue = .ok r) :
    r.members = plan.members.map MemberState.start ∧ ∀ m ∈ plan.members, m.legs ≠ [] := by
  unfold start at h
  split_ifs at h
  split at h
  · cases h
  · split at h
    · cases h
    · split at h
      · cases h
      · rename_i hfind
        cases h
        exact ⟨rfl, by simpa using hfind⟩

def onSlot (now : ℤ) (index : ℕ) (r : RunState) : RunState × Option Leg :=
  match r.members[index]? with
  | none => (r, none)
  | some m =>
    ({ r with members := r.members.set index (m.onSlot r.limits now).1 },
      (m.onSlot r.limits now).2)

def handle (now : ℤ) (r : RunState) : Event → RunState × Option Leg
  | .slot index => r.onSlot now index
  | .reply rep => ({ r with members := r.members.modify rep.member (·.onReply now rep) }, none)
  | .giveUp bound =>
    ({ r with limits := { r.limits with knockUntil := min r.limits.knockUntil bound } }, none)
  | .failed failure => ({ r with members := r.members.map (·.onFailed now failure) }, none)
  | .stopping => ({ r with members := r.members.map (·.onStopping now) }, none)
  | .timer => ({ r with members := r.members.map (·.onTimer r.limits now) }, none)

/-- `pending`: the earliest moment any member is due, `none` when all are
done. -/
def pending (now : ℤ) (r : RunState) : Option ℤ :=
  (r.members.filterMap (·.due r.limits now)).min?

def finished (now : ℤ) (r : RunState) : Bool := (r.pending now).isNone

def result (r : RunState) : List MemberResult := r.members.map MemberState.result

end RunState

end EventQuant.Knock
