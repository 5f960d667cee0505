import EventQuant.Library.Runs
import EventQuant.Service.Calls
import EventQuant.Service.Health

/-!
The service's loop, tick after tick, with time passing and the workers running
between any two of its steps. A tick drains what the workers report, sweeps the
orders that are due, looks at the workers' health once and then gives each
queued market its turn; a placement holds the loop for as long as it takes.
-/
namespace EventQuant

open Program Store Python

namespace Service

variable (s : Service)

/-- The turn comes to `_place`. -/
def places (market : Market) (nowTs : ℤ) (orderbookReady : Bool) (answers : PlacementAnswers)
    (db : Database) : Bool :=
  s.eligible market nowTs && db.canStartEntryPlan market.slug &&
    (match s.misfit market with
      | .ok none => true
      | _ => false) &&
    !s.capReached db answers.dayStart &&
    !(s.exchange.isSome && !orderbookReady && decide (answers.booksReady ≠ .ok true))

/-- `self.geoblock_worker` and `self.user_stream_worker` exist in a live run. -/
def healthyWith (geoblock stream : Bool) : Bool := !s.live || (geoblock && stream)

end Service

/-- A pass over markets, and whether the tick may still discover more. -/
structure Pass where
  turns : List (Market × Trigger)
  nowTs : ℤ
  discovery : Bool

/-- Where the loop is in its tick. -/
inductive Phase
  | draining
  | swept
  | passing (pass : Pass)
  | starting (market : Market) (trigger : Trigger) (answers : PlacementAnswers) (pass : Pass)
  | stopped

/-- A `_place` as it began: its market and the two flags at that moment. -/
structure Start where
  slug : String
  geoblock : Bool
  stream : Bool
  deriving DecidableEq, Repr

structure Loop where
  bot : Bot
  clock : ℚ
  geoblock : GeoblockWorker
  stream : UserStreamWorker
  phase : Phase
  starts : List Start

inductive LoopEvent
  | elapse (seconds : ℚ≥0)
  | geoblockRunOnce (answer : Except Exn Value)
  | streamSetHealth (healthy : Bool)
  | streamStopped
  | activate (update : ActivationUpdate)
  | drain (c : ServiceCall)
  | drainGeoblock
  | sweep (answers : CancelAnswers)
  | check
  | take (answers : PlacementAnswers)
  | start (held : ℚ≥0)
  | discover (markets : List Market)
  | endTick

def ServiceCall.isDrain : ServiceCall → Bool
  | drainReconciliationUpdates _ _ _ | drainUserStreamUpdates _ _ _ => true
  | _ => false

namespace Loop

variable (s : Service) (gammaNeeded : Bool)

def init (b : Bot) (clock : ℚ) : Loop :=
  ⟨b, clock, GeoblockWorker.init, UserStreamWorker.init, .draining, []⟩

/-- One queued market's turn, up to its `_place` if it comes to that. -/
def takeTurn (l : Loop) (answers : PlacementAnswers) (market : Market) (trigger : Trigger)
    (rest : Pass) : Loop :=
  if s.places market rest.nowTs trigger.isActivation answers l.bot.database then
    { l with phase := .starting market trigger answers rest }
  else
    let turn := s.considerMarket market rest.nowTs trigger trigger.isActivation answers
    { l with
      bot := turn.after l.bot
      phase :=
        match turn.result l.bot with
        | .ok true => .passing rest
        | .ok false => .passing { rest with turns := [] }
        | .error _ => .stopped }

/-- What each step does; a step that is not the phase's own changes nothing. -/
def next (l : Loop) (e : LoopEvent) : Loop :=
  match e, l.phase with
  | .elapse seconds, _ => { l with clock := l.clock + seconds }
  | .geoblockRunOnce answer, _ => { l with geoblock := l.geoblock.runOnce s.codec answer }
  | .streamSetHealth healthy, _ => { l with stream := l.stream.setHealth healthy }
  | .streamStopped, _ => { l with stream := l.stream.stopped }
  | .activate update, .draining => { l with bot := l.bot.apply (.enqueue update) }
  | .drain c, .draining => if c.isDrain then { l with bot := c.after s l.bot } else l
  | .drainGeoblock, .draining =>
    { l with
      geoblock := { l.geoblock with updates := [] }
      phase := if l.geoblock.updates.any GeoblockUpdate.blocked then .stopped else .draining }
  | .sweep answers, .draining =>
    { l with bot := (s.cancelDueOrders l.clock answers).after l.bot, phase := .swept }
  | .check, .swept =>
    if s.healthyWith l.geoblock.healthy l.stream.healthy then
      { l with
        bot := l.bot.apply .takeActivations
        phase := .passing
          { turns := l.bot.activations.map fun u =>
              (u.market, .activation u.marketDiscoveredTsMs u.marketParametersDetectedTsMs)
            nowTs := ⌊l.clock⌋
            discovery := gammaNeeded } }
    else { l with phase := .draining }
  | .take answers, .passing ⟨(market, trigger) :: turns, nowTs, discovery⟩ =>
    l.takeTurn s answers market trigger ⟨turns, nowTs, discovery⟩
  | .start held, .starting market trigger answers rest =>
    { l with
      bot := (s.place market trigger answers).after l.bot
      clock := l.clock + held
      starts := l.starts ++ [⟨market.slug, l.geoblock.healthy, l.stream.healthy⟩]
      phase :=
        match (s.place market trigger answers).result l.bot with
        | .ok _ => .passing rest
        | .error _ => .stopped }
  | .discover markets, .passing ⟨[], _, true⟩ =>
    { l with phase := .passing ⟨markets.map fun market => (market, .gamma), ⌊l.clock⌋, false⟩ }
  | .endTick, .passing ⟨[], _, _⟩ => { l with phase := .draining }
  | _, _ => l

end Loop

end EventQuant
