import EventQuant.Service.Drains

/-!
The health of the two workers new placements wait for: the geoblock check and
the primary user stream. Each runs on a thread of its own; it sets or clears its
flag and queues what changed for the service to drain.
-/
namespace EventQuant

open Python

/-- `API_UNRESTRICTED_FRONTEND_ONLY_COUNTRIES`. -/
def apiUnrestrictedCountries : List String := ["IE", "JP", "MT", "NL"]

/-- `is_api_trading_blocked`. -/
def isApiTradingBlocked (codec : Codec) (result : Value) : Bool :=
  match result.get "blocked" with
  | .bool true =>
    decide (upper (((result.get "country").or (.string "")).str codec) ∉ apiUnrestrictedCountries)
  | _ => false

structure GeoblockUpdate where
  available : Bool
  blocked : Bool
  changed : Bool
  recovered : Bool
  result : Option Value := none
  error : Option String := none

structure GeoblockWorker where
  healthy : Bool
  attempted : Bool
  updates : List GeoblockUpdate

namespace GeoblockWorker

def init : GeoblockWorker := ⟨false, false, []⟩

def put (w : GeoblockWorker) (update : GeoblockUpdate) : List GeoblockUpdate :=
  if update.changed || update.blocked then w.updates ++ [update] else w.updates

/-- `run_once`, with what the venue answers. -/
def runOnce (w : GeoblockWorker) (codec : Codec) : Except Exn Value → GeoblockWorker
  | .error e =>
    { healthy := false
      attempted := true
      updates := w.put
        { available := false
          blocked := false
          changed := !w.attempted || w.healthy
          recovered := false
          error := some e.text } }
  | .ok result =>
    let blocked := isApiTradingBlocked codec result
    { healthy := !blocked
      attempted := true
      updates := w.put
        { available := true
          blocked := blocked
          changed := !w.attempted || w.healthy == blocked
          recovered := w.attempted && !w.healthy && !blocked
          result := some result } }

end GeoblockWorker

/-- The part of `UserStreamWorker` its health is kept in. -/
structure UserStreamWorker where
  healthy : Bool
  attempted : Bool
  updates : List StreamUpdate

namespace UserStreamWorker

def init : UserStreamWorker := ⟨false, false, []⟩

/-- `_set_health`, the flag and its report at once. -/
def setHealth (w : UserStreamWorker) (healthy : Bool) : UserStreamWorker where
  healthy := healthy
  attempted := true
  updates :=
    if !w.attempted || w.healthy != healthy then
      w.updates ++ [.state healthy (healthy && w.attempted && !w.healthy)]
    else w.updates

def stopped (w : UserStreamWorker) : UserStreamWorker := { w with healthy := false }

end UserStreamWorker

/-- A check the flag does not survive: it failed, or trading is blocked. -/
def clearsGeoblock (codec : Codec) : Except Exn Value → Bool
  | .error _ => true
  | .ok result => isApiTradingBlocked codec result

theorem GeoblockWorker.runOnce_healthy (w : GeoblockWorker) (codec : Codec)
    (answer : Except Exn Value) : (w.runOnce codec answer).healthy = !clearsGeoblock codec answer := by
  cases answer <;> rfl

end EventQuant
