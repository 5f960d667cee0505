import Mathlib
import EventQuant.Python.Value

/-!
The status texts an order's row carries: who writes them and who reads them.
Each writer makes its own text of what the venue reports; the service's
sweeps look for statuses on four separately written lists.
-/
namespace EventQuant

open Python

/-- `TERMINAL_ORDER_STATES`: no sweep looks at these again. -/
def terminalStates : List String :=
  ["cancelled", "canceled", "closed", "filled", "matched", "expired", "rejected", "failed",
    "terminal_unknown"]

/-- The statuses `tracked_open_orders` and the reserve sum select. -/
def trackedStates : List String :=
  ["open", "live", "delayed", "unmatched", "simulated", "cancel_requested"]

/-- The statuses `due_open_orders` selects. -/
def dueStates : List String := ["open", "live", "delayed", "unmatched", "simulated"]

def activeExitStates : List String :=
  ["open", "live", "delayed", "unmatched", "cancel_requested"]

/-- `str(raw.get("status") or "open").lower()`: the reply to a placement and
both adoptions of an ambiguous one. -/
def replyStatus (codec : Codec) (raw : Value) : String :=
  lower (((raw.get "status").or (.string "open")).str codec)

/-- The status half of `normalize_order`. -/
def normalizeStatus (text : String) : String :=
  let status := removePrefix "order_status_" (lower text)
  if status = "cancelled_market_resolved" ∨ status = "canceled_market_resolved" then "cancelled"
  else status

/-- The status text `normalize_order` reads off an order. -/
def statusText (codec : Codec) (raw : Value) : String :=
  (raw.firstOf ["status", "type"] (.string "unknown")).str codec

def normalizeOrder (codec : Codec) (raw : Value) : Except String (String × DecimalValue) :=
  match toDecimal codec
      (raw.firstOf ["size_matched", "sizeMatched", "matched_size"] (.string "0")) with
  | .error failure => .error failure
  | .ok matched => .ok (normalizeStatus (statusText codec raw), matched)

/-- An order event of the user stream, as the client library types it. -/
structure UserOrderPayload where
  id : String
  orderEventType : String
  status : String
  sizeMatched : ℚ
  originalSize : ℚ
  deriving DecidableEq, Repr

structure UserOrderUpdate where
  orderId : String
  status : String
  matchedSize : ℚ
  eventType : String
  deriving DecidableEq, Repr

/-- `UserStreamWorker._normalize_order`. -/
def UserOrderPayload.normalize (payload : UserOrderPayload) : UserOrderUpdate where
  orderId := payload.id
  status :=
    if payload.orderEventType = "CANCELLATION" ∨ payload.status = "CANCELED" then "cancelled"
    else if payload.originalSize ≤ payload.sizeMatched then "filled"
    else if payload.status = "DELAYED" ∨ payload.status = "UNMATCHED" then lower payload.status
    else "live"
  matchedSize := payload.sizeMatched
  eventType := payload.orderEventType

def Visible (status : String) : Prop := status ∈ trackedStates ∨ status ∈ terminalStates

instance (status : String) : Decidable (Visible status) := by
  unfold Visible
  infer_instance

/-- No status is both, and the narrower lists are within the wider one. -/
theorem terminal_not_tracked (status : String) (h : status ∈ terminalStates) :
    status ∉ trackedStates := by
  revert status
  decide

theorem due_tracked (status : String) (h : status ∈ dueStates) : status ∈ trackedStates := by
  revert status
  decide

/-- The stream's own words are on the lists, whatever the venue sent. -/
theorem normalize_visible (payload : UserOrderPayload) : Visible payload.normalize.status := by
  unfold UserOrderPayload.normalize
  simp only
  split
  · decide
  · split
    · decide
    · split
      · rename_i h
        rcases h with h | h <;> rw [h] <;> decide
      · decide

end EventQuant
