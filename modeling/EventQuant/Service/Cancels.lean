import EventQuant.Service.Settings

/-!
Cancelling what the books say is open: before a market ends, and on the way
out. Each order is cancelled by the account that owns it; a row is marked
before its cancel is sent and again by what the venue answers.
-/
namespace EventQuant

open Program Python

abbrev CancelAnswers := String → Except Exn Value

namespace Service

variable (s : Service)

/-- `mark_orders`; an empty list writes nothing. -/
def markOrders (orderIds : List String) (status : String) : Action Unit :=
  if orderIds = [] then return' () else Action.write (.markOrders orderIds status)

def groupRows (primary : String) (rows : List (OrderRow × MarketRow)) :
    List (String × List String) :=
  let owner := fun row : OrderRow => if row.account = "" then primary else row.account
  ((rows.map fun row => owner row.1).eraseDups).map fun account =>
    (account, (rows.filter fun row => owner row.1 = account).map fun row => row.1.orderId)

def cancelGroups (f : Fleet) (answers : CancelAnswers) :
    List (String × List String) → Action (List String × List String)
  | [] => return' ([], [])
  | (account, orderIds) :: rest => do
    let m ← answer (f.member account)
    commit (.cancel account orderIds)
    let result ← answer (answers account)
    let (canceled, terminal) ← answer (classifyCancelResult m.exchange.codec result)
    let (canceledRest, terminalRest) ← cancelGroups f answers rest
    return' (canceled ++ canceledRest, terminal ++ terminalRest)

/-- `_cancel_rows`: the ids cancelled and those already over. -/
def cancelRows (x : Exchange) (rows : List (OrderRow × MarketRow)) (answers : CancelAnswers) :
    Action (List String × List String) :=
  match s.fleet with
  | none => do
    commit (.cancel x.account (rows.map fun row => row.1.orderId))
    let result ← answer (answers x.account)
    answer (classifyCancelResult x.codec result)
  | some f => cancelGroups f answers (groupRows f.primary.name rows)

def cancelAndMark (rows : List (OrderRow × MarketRow)) (answers : CancelAnswers) : Action Unit :=
  let orderIds := rows.map fun row => row.1.orderId
  if orderIds = [] then return' ()
  else match s.exchange with
    | none => markOrders orderIds "simulated_closed"
    | some x => do
      markOrders orderIds "cancel_requested"
      let cancelled ← handle
        (do
          let ids ← s.cancelRows x rows answers
          return' (some ids))
        fun _ => return' none
      match cancelled with
      | none => return' ()
      | some (canceled, terminal) => do
        markOrders canceled "cancelled"
        markOrders terminal "terminal_unknown"

/-- `_cancel_due_orders`, at a reading of the clock. -/
def cancelDueOrders (nowTs : ℚ) (answers : CancelAnswers) : Action Unit :=
  if s.cancelBeforeEndSeconds = 0 then return' ()
  else do
    let due ← Action.query fun db => db.dueOpenOrders (nowTs + s.cancelBeforeEndSeconds)
    s.cancelAndMark due answers

/-- `_cancel_tracked_orders`. -/
def cancelTrackedOrders (answers : CancelAnswers) : Action Unit := do
  let tracked ← Action.query Database.trackedOpenOrders
  s.cancelAndMark tracked answers

end Service

end EventQuant
