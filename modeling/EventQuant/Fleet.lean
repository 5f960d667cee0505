import Mathlib
import EventQuant.Exchange

/-!
Several accounts as one fleet: every member signs, one knock carries them all,
each settles its own part, and the fleet keeps the entry that registered first
and cancels the others.
-/
namespace EventQuant

open Program Python
open Knock (MemberResult)

/-- The member's name is its exchange's account. -/
structure FleetMember where
  exchange : Exchange
  size : ℚ
  phaseOffsetMs : ℚ

def FleetMember.name (m : FleetMember) : String := m.exchange.account

structure MemberPlacement where
  member : String
  result : Option PlacementResult
  error : Option String := none
  deriving DecidableEq, Repr

def MemberPlacement.registered (p : MemberPlacement) : Bool := p.result.any (·.complete)

/-- What the knock's watch on the market record saw: when it saw the record
turned, and the moment the bursts were timed from. -/
structure PreviewSeen where
  seenMs : ℤ
  anchorMs : ℤ
  deriving DecidableEq, Repr

/-- `orders`, with each order's account, are what the caller records. -/
structure FleetPlacement where
  placements : List MemberPlacement
  kept : Option String
  orders : List PlacedOrder
  cancelledOrderIds : List String
  cancelErrors : List String
  keptBy : Option String
  venueRegisteredTsMs : Option (List (String × ℤ))
  preview : Option PreviewSeen
  deriving DecidableEq, Repr

namespace FleetPlacement

def attempts (p : FleetPlacement) : ℕ :=
  (p.placements.map fun m => (m.result.map PlacementResult.attempts).getD 0).sum

def errorPart (m : MemberPlacement) : Option String :=
  match m.error, m.result.bind PlacementResult.error with
  | some error, _ => some (m.member ++ ": " ++ error)
  | none, some error => some (m.member ++ ": " ++ error)
  | none, none => none

def error (p : FleetPlacement) : Option String :=
  if p.kept.isSome then none
  else
    let parts := String.intercalate "; " (p.placements.filterMap errorPart)
    some (if parts = "" then "no member registered an order" else parts)

/-- Every member failed cleanly, is to be tried again and holds nothing. -/
def retryable (p : FleetPlacement) : Bool :=
  p.kept.isNone && p.placements.all fun m => m.result.any fun r => r.retryable && r.orders.isEmpty

def gaveUp (p : FleetPlacement) : Bool :=
  p.kept.isNone && p.placements.all fun m => m.result.any fun r => r.gaveUp && r.orders.isEmpty

end FleetPlacement

/-- A fleet has a member, and no two of one name. -/
structure Fleet where
  members : List FleetMember
  keepBest : Bool
  nonempty : members ≠ []
  distinct : (members.map FleetMember.name).Nodup

/-- What a member's own calls answer while it is placed: its signing, its
part of the knock plan, the cancels of an incomplete set and of a laggard. -/
structure MemberAnswers where
  sign : Except SigningFailure (String × String → String)
  join : Except Exn Unit
  cancelIncomplete : Except Exn Unit
  cancelLaggard : Except Exn Value

/-- What the venue, the knock library and the user streams answer to one
`place`. `stamps` are the reads of the registration clock, in turn until its
deadline; `none` stands for a fleet without one. -/
structure FleetAnswers where
  member : String → MemberAnswers
  knock : Except Exn (List MemberResult × Option PreviewSeen)
  stamps : Option (List (String → Option ℤ))

namespace Fleet

variable (f : Fleet)

def primary : FleetMember := f.members.head f.nonempty

def member (name : String) : Except Exn FleetMember :=
  match f.members.find? fun m => m.name = name with
  | some m => .ok m
  | none => .error (.other "KeyError" ("'" ++ name ++ "'"))

def prepare (market : Market) (price : ℚ) (answers : FleetAnswers) (m : FleetMember) :
    Action (Entry ⊕ MemberPlacement) :=
  handle
    (do
      let prepared ← m.exchange.prepareEntry market price m.size (answers.member m.name).sign
      match prepared with
      | .inl entry => return' (.inl entry)
      | .inr result => return' (.inr ⟨m.name, some result, none⟩))
    fun e => return' (.inr ⟨m.name, none, some e.text⟩)

/-- The member's part of the knock plan, or why it has none. -/
def join (answers : FleetAnswers) (m : FleetMember) :
    Entry ⊕ MemberPlacement → Entry ⊕ MemberPlacement
  | .inr placement => .inr placement
  | .inl entry =>
    match (answers.member m.name).join with
    | .error e => .inr ⟨m.name, none, some e.text⟩
    | .ok _ => .inl entry

def handOver (market : Market) (knocking : List (FleetMember × (Entry ⊕ MemberPlacement))) :
    Action Unit :=
  forEach knocking fun p =>
    match p.2 with
    | .inl entry => commit (.knock ⟨p.1.name, market.slug, entry.submissionKey, entry.legs⟩)
    | .inr _ => return' ()

def settleMember (answers : FleetAnswers) (m : FleetMember) (entry : Entry)
    (outcome : MemberResult) : Action MemberPlacement :=
  handle
    (do
      let result ← m.exchange.settleEntry entry outcome (answers.member m.name).cancelIncomplete
      return' ⟨m.name, some result, none⟩)
    fun e => return' ⟨m.name, none, some e.text⟩

/-- The members in order: those in the knock settle the library's results,
which come in the plan's order; the others keep what they ended with. -/
def settleMembers (answers : FleetAnswers) :
    List (FleetMember × (Entry ⊕ MemberPlacement)) → List MemberResult →
      Action (List MemberPlacement)
  | [], [] => return' []
  | [], _ :: _ => raise (.other "ValueError" "zip() argument 2 is longer than argument 1")
  | (_, .inr placement) :: rest, outcomes => do
    let placements ← settleMembers answers rest outcomes
    return' (placement :: placements)
  | (_, .inl _) :: _, [] =>
    raise (.other "ValueError" "zip() argument 2 is shorter than argument 1")
  | (m, .inl entry) :: rest, outcome :: outcomes => do
    let placement ← settleMember answers m entry outcome
    let placements ← settleMembers answers rest outcomes
    return' (placement :: placements)

def failed (e : Exn) (p : FleetMember × (Entry ⊕ MemberPlacement)) : MemberPlacement :=
  match p.2 with
  | .inr placement => placement
  | .inl _ => ⟨p.1.name, none, some e.text⟩

def joined (answers : FleetAnswers) (prepared : List (Entry ⊕ MemberPlacement)) :
    List (FleetMember × (Entry ⊕ MemberPlacement)) :=
  f.members.zip (List.zipWith (join answers) f.members prepared)

/-- What every member's part came to: all sign, then one knock carries those
that can join it. -/
def knockMembers (market : Market) (price : ℚ) (answers : FleetAnswers) :
    Action (List MemberPlacement × Option PreviewSeen) := do
  let prepared ← collect f.members (prepare market price answers)
  let joined := f.joined answers prepared
  if joined.any fun p => p.2.isLeft then do
    handOver market joined
    match answers.knock with
    | .error e => return' (joined.map (failed e), none)
    | .ok (outcomes, seen) => do
      let placements ← settleMembers answers joined outcomes
      return' (placements, seen)
  else do
    let placements ← settleMembers answers joined []
    return' (placements, none)

/-- One read of the registration clock: every registered member's earliest
stamp, if each of its orders has one. -/
def stampsAt (registered : List MemberPlacement) (clock : String → Option ℤ) :
    Option (List (String × ℤ)) :=
  registered.mapM fun p =>
    ((p.result.map PlacementResult.orders).getD []).mapM (fun order => clock order.orderId)
      |>.bind fun stamps => stamps.min?.map fun stamp => (p.member, stamp)

/-- `_venue_stamps`: the first complete read before the deadline. -/
def venueStamps (registered : List MemberPlacement) (answers : FleetAnswers) :
    Option (List (String × ℤ)) :=
  answers.stamps.bind fun reads => reads.findSome? (stampsAt registered)

def replyKey (p : MemberPlacement) : WithTop ℤ :=
  match p.result.bind PlacementResult.registeredTsMs with
  | some stamp => (stamp : WithTop ℤ)
  | none => ⊤

-- `argmin` over the integers has to find an order that computes
local instance stampOrder : Preorder ℤ := Int.instLinearOrder.toPreorder

/-- `_choose`: the member registered first, on the venue's clock when it has
every registered member's time and on the replies otherwise. -/
def choose (placements : List MemberPlacement) (answers : FleetAnswers) :
    Option String × Option String × Option (List (String × ℤ)) :=
  let registered := placements.filter MemberPlacement.registered
  if registered = [] then (none, none, none)
  else match venueStamps registered answers with
    | some stamps =>
      ((registered.argmin fun p => (stamps.lookup p.member).getD 0).map MemberPlacement.member,
        some "venue", some stamps)
    | none => ((registered.argmin replyKey).map MemberPlacement.member, some "reply", none)

/-- `_cancel_outcome`, word for word what the service makes of a cancel. -/
def cancelOutcome (codec : Codec) (result : Value) : Except Exn (List String × List String) :=
  classifyCancelResult codec result

def afterCancel (canceled terminal : List String) (order : PlacedOrder) : PlacedOrder :=
  if order.orderId ∈ canceled then { order with status := "cancelled" }
  else if order.orderId ∈ terminal then { order with status := "terminal_unknown" }
  else { order with status := "cancel_requested" }

def laggard (kept : Option String) (p : MemberPlacement) : Bool :=
  f.keepBest && kept.isSome && decide (some p.member ≠ kept) && p.registered

/-- One placement's orders as they are recorded, the ids cancelled and what
went wrong with the cancel. -/
def settlePlacement (kept : Option String) (answers : FleetAnswers) (p : MemberPlacement) :
    Action (List PlacedOrder × List String × List String) :=
  let stamped := ((p.result.map PlacementResult.orders).getD []).map fun order =>
    { order with account := p.member }
  if stamped = [] then return' ([], [], [])
  else if !f.laggard kept p then return' (stamped, [], [])
  else do
    let cancelled ← handle
      (do
        let m ← answer (f.member p.member)
        commit (.cancel m.name (stamped.map PlacedOrder.orderId))
        let result ← answer (answers.member m.name).cancelLaggard
        return' (Except.ok (m.exchange.codec, result)))
      fun e => return' (Except.error e)
    match cancelled with
    | .error e =>
      return' (stamped.map fun order => { order with status := "cancel_requested" }, [],
        [p.member ++ ": " ++ e.text])
    | .ok (codec, result) => do
      let (canceled, terminal) ← answer (cancelOutcome codec result)
      return' (stamped.map (afterCancel canceled terminal),
        (stamped.map PlacedOrder.orderId).filter (· ∈ canceled), [])

/-- `_settle`: the orders to record, the ids cancelled, the cancel errors. -/
def settle (placements : List MemberPlacement) (kept : Option String) (answers : FleetAnswers) :
    Action (List PlacedOrder × List String × List String) := do
  let parts ← collect placements (f.settlePlacement kept answers)
  return' ((parts.map fun part => part.1).flatten, (parts.map fun part => part.2.1).flatten,
    (parts.map fun part => part.2.2).flatten)

/-- `Fleet.place`. -/
def place (market : Market) (price : ℚ) (answers : FleetAnswers) : Action FleetPlacement := do
  let (placements, seen) ← f.knockMembers market price answers
  let (kept, keptBy, stamps) := choose placements answers
  let (orders, cancelled, errors) ← f.settle placements kept answers
  return' ⟨placements, kept, orders, cancelled, errors, keptBy, stamps, seen⟩

end Fleet

end EventQuant
