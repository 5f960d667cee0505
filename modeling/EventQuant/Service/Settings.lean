import EventQuant.Fleet
import EventQuant.Settlement

/-!
What a run of the service is set up with. Only a live run has an exchange; a
fleet trades buy-only plans, and each of its members enters the way the run
does.
-/
namespace EventQuant

open Python

structure Service where
  plan : TradePlan
  decimals : Decimals
  maxReservedUsd : Option ℚ
  maxDailyFilledCost : Option ℚ
  cancelBeforeEndSeconds : ℕ
  live : Bool
  entrySubmission : EntrySubmission
  placementIntervalMs : ℚ
  codec : Codec
  runId : ℕ
  runStartedTs : ℤ
  fleet : Option Fleet
  fleetLive : fleet.isSome → live = true
  fleetBuyOnly : fleet.isSome → plan.buyOnly = true
  fleetMode : ∀ f ∈ fleet, ∀ m ∈ f.members, m.exchange.entrySubmission = entrySubmission

namespace Service

variable (s : Service)

def orderSize : ℚ := s.plan.orderSize s.decimals

def marketReserve : ℚ := s.plan.marketReserve s.decimals

def solo : Exchange := ⟨s.codec, "primary", s.entrySubmission⟩

/-- `self.exchange`. -/
def exchange : Option Exchange :=
  if s.live then some ((s.fleet.map fun f => f.primary.exchange).getD s.solo) else none

end Service

def pairService : Service where
  plan := ⟨1 / 10, [], 1⟩
  decimals := .context
  maxReservedUsd := none
  maxDailyFilledCost := none
  cancelBeforeEndSeconds := 0
  live := true
  entrySubmission := .single
  placementIntervalMs := 20
  codec := pairExchange.codec
  runId := 1
  runStartedTs := 0
  fleet := none
  fleetLive := fun h => absurd h (by simp)
  fleetBuyOnly := fun h => absurd h (by simp)
  fleetMode := fun f hf => absurd hf (by simp)

end EventQuant
