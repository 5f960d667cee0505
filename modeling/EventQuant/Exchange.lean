import EventQuant.Bot
import EventQuant.Venue.Reply
import EventQuant.Knock.Coordinator

/-!
One account at the exchange: signing a market's entry once, reading what its
knock came to, finding an ambiguous submission among the open orders, and the
exits. What the venue answers to a call is an argument of the call.
-/
namespace EventQuant

open Program Python Venue
open Knock (Leg MemberResult AcceptedOrder Item)

/-- `account` names the account in the knock and in the histories; the rows of
a run without a fleet carry no account. -/
structure Exchange where
  codec : Codec
  account : String
  entrySubmission : EntrySubmission

/-- One account's signed entry for a market, ready to knock: a body for each
leg the account trades. -/
structure Entry where
  market : Market
  price : ℚ
  size : ℚ
  specifications : List (String × String)
  legs : List Leg
  submissionKey : SubmissionKey
  paired : legs.map Leg.outcome = specifications.map Prod.fst

/-- Why an entry was not signed: the venue is not ready, or anything else. -/
inductive SigningFailure
  | notReady (message : String)
  | raised (e : Exn)
  deriving DecidableEq, Repr

def submissionKey (market : Market) (price size : ℚ) : SubmissionKey :=
  ⟨market.conditionId, market.upTokenId, market.downTokenId, price, size⟩

/-- `_exception_text`. -/
def exceptionText (codec : Codec) (status : ℤ) (errorMsg : Value) : String :=
  "PolyApiException[status_code=" ++ toString status ++ ", error_message=" ++
    errorMsg.str codec ++ "]"

/-- `_parsed`. -/
def parsed (codec : Codec) (body : String) : Value := (codec.loads body).getD (.string body)

/-- `reply_value`: a 200 is its JSON or its text, any other status folds into
a rejection. -/
def replyValue (codec : Codec) (status : ℤ) (body : String) : Value :=
  if status = 200 then parsed codec body
  else
    let errorMsg := parsed codec body
    let message := ((errorMsg.get "error").or errorMsg).or
      (.string (exceptionText codec status errorMsg))
    .object [("errorMsg", .string (message.str codec)), ("success", .bool false)]

/-- `error_text`. -/
def errorText (codec : Codec) : Item → String
  | .text text => text
  | .reply status body =>
    let text := (replyValue codec status body).str codec
    if text = "" then "partial placement" else text

/-- `ambiguous_text`. -/
def ambiguousText (codec : Codec) : Item → String
  | .text text => text
  | .reply status body =>
    if status = 0 then
      "PolyApiException: PolyApiException[status_code=None, error_message=Request exception!]"
    else "PolyApiException: " ++ exceptionText codec status (parsed codec body)

/-- `_order_id(raw) or raw.get("id")`, where it counts as true. -/
def orderIdOf (codec : Codec) (raw : Value) : Option String :=
  let named := (fromValue codec raw).orderId
  if named ≠ "" then some named
  else if (raw.get "id").truthy then some ((raw.get "id").str codec)
  else none

/-- An open order as the two reconciliations match it. -/
structure Listed where
  tokenId : String
  price : DecimalValue
  size : DecimalValue
  side : String
  raw : Value

def invalidDecimal (failure : String) : Exn := .other "InvalidOperation" failure

def listed (codec : Codec) (raw : Value) : Except Exn Listed :=
  if raw.isObject then
    match toDecimal codec ((raw.get "price").or (.string "0")) with
    | .error failure => .error (invalidDecimal failure)
    | .ok price =>
      match toDecimal codec
          (raw.firstOf ["original_size", "originalSize", "size"] (.string "0")) with
      | .error failure => .error (invalidDecimal failure)
      | .ok size =>
        .ok ⟨(raw.firstOf ["asset_id", "assetId"] (.string "")).str codec, price, size,
          upper (((raw.get "side").or (.string "")).str codec), raw⟩
  else .error (.other "AttributeError" "object has no attribute 'get'")

/-- `a == b` of a decimal and a number. -/
def sameNumber (a : DecimalValue) (b : ℚ) : Except Exn Bool :=
  match a.same (.finite b) with
  | some same => .ok same
  | none => .error (invalidDecimal invalidOperation)

def Listed.agrees (tokens : List String) (side : String) (price size : ℚ) (row : Listed) :
    Except Exn Bool :=
  if row.tokenId ∈ tokens ∧ row.side = side then do
    if ← sameNumber row.price price then sameNumber row.size size else return false
  else return false

def exactMatch (codec : Codec) (tokens : List String) (side : String) (price size : ℚ)
    (raw : Value) : Except Exn (Option Listed) := do
  let row ← listed codec raw
  if ← row.agrees tokens side price size then return some row else return none

def exactMatches (codec : Codec) (tokens : List String) (side : String) (price size : ℚ)
    (rows : List Value) : Except Exn (List Listed) :=
  (rows.mapM (exactMatch codec tokens side price size)).map (·.filterMap id)

/-- `_classify_cancel_result`: the orders cancelled, and those the venue says
are already over. -/
def classifyCancelResult (codec : Codec) (result : Value) :
    Except Exn (List String × List String) :=
  match result with
  | .object fields =>
    match ((fields.lookup "canceled").getD (.array [])).iterate with
    | .error failure => .error (.other "TypeError" failure)
    | .ok canceled =>
      match result.get "not_canceled" with
      | .object reasons =>
        .ok (canceled.map (Value.str codec),
          (reasons.filter fun reason =>
            contains "already canceled or matched" (lower (reason.2.str codec))).map Prod.fst)
      | _ => .ok (canceled.map (Value.str codec), [])
  | _ => .ok ([], [])

namespace Exchange

variable (x : Exchange)

/-- `_entry_specifications`: the legs the mode trades, with their tokens. -/
def entrySpecifications (market : Market) : List (String × String) :=
  match x.entrySubmission with
  | .soloUp => [("up", market.upTokenId)]
  | .soloDown => [("down", market.downTokenId)]
  | .single => [("up", market.upTokenId), ("down", market.downTokenId)]

/-- The entry of the signed bodies, one for each leg (`zip(strict=True)`). -/
def entry (market : Market) (price size : ℚ) (bodies : List String) : Except Exn Entry :=
  if h : (x.entrySpecifications market).length = bodies.length then
    .ok
      { market := market
        price := price
        size := size
        specifications := x.entrySpecifications market
        legs := List.zipWith (fun spec body => ⟨spec.1, body⟩) (x.entrySpecifications market) bodies
        submissionKey := EventQuant.submissionKey market price size
        paired := by
          apply List.ext_getElem
          · simp [h]
          · intro i hi hi'
            simp }
  else .error (.other "ValueError" "zip() arguments have different lengths")

/-- Signs this account's entry, or takes what was signed for it before. -/
def prepareEntry (market : Market) (price size : ℚ)
    (sign : Except SigningFailure (String × String → String)) :
    Action (Entry ⊕ PlacementResult) := do
  let key := EventQuant.submissionKey market price size
  let signed ← read fun b => b.submissions.lookup (x.account, key)
  match signed with
  | some bodies => answer ((x.entry market price size bodies).map .inl)
  | none =>
    match sign with
    | .error (.notReady message) =>
      return' (.inr { orders := [], error := some message, retryable := true })
    | .error (.raised e) => raise e
    | .ok body => do
      let bodies := (x.entrySpecifications market).map body
      commit (.sign x.account key bodies)
      answer ((x.entry market price size bodies).map .inl)

/-- `_finalize_dual_result`: an incomplete set is cancelled, and what was
signed is dropped unless the placement is to be tried again. -/
def finalizeDualResult (result : PlacementResult) (key : SubmissionKey)
    (cancel : Except Exn Unit) : Action PlacementResult :=
  if result.complete then do
    commit (.forget x.account key)
    return' result
  else if result.orders ≠ [] then do
    commit (.cancel x.account (result.orders.map PlacedOrder.orderId))
    answer cancel
    commit (.forget x.account key)
    return' result
  else if !result.retryable then do
    commit (.forget x.account key)
    return' result
  else return' result

def acceptedOrder (entry : Entry) (order : AcceptedOrder) : Except Exn PlacedOrder :=
  match entry.specifications.lookup order.outcome with
  | none => .error (.other "KeyError" ("'" ++ order.outcome ++ "'"))
  | some tokenId =>
    .ok
      { orderId := order.orderId
        outcome := order.outcome
        tokenId := tokenId
        price := entry.price
        size := entry.size
        status := replyStatus x.codec (replyValue x.codec order.status order.body)
        side := .buy
        role := .entry
        account := "" }

/-- What the registered legs and the collected errors amount to. -/
def entryResult (entry : Entry) (outcome : MemberResult) (accepted : List PlacedOrder) :
    PlacementResult :=
  let expected := entry.specifications.length
  if accepted.length = expected then
    { orders := accepted
      attempts := outcome.attempts
      heldBack := outcome.heldBack
      expected := expected
      registeredTsMs := outcome.registeredMs }
  else
    let errors := joinUnique ((outcome.errors.map (errorText x.codec)).filter (· ≠ ""))
    let error := if errors = "" then "partial placement" else errors
    if accepted ≠ [] then
      { orders := accepted
        error := some error
        attempts := outcome.attempts
        heldBack := outcome.heldBack
        expected := expected
        registeredTsMs := outcome.registeredMs }
    else
      { orders := []
        error := some error
        retryable := false
        attempts := outcome.attempts
        heldBack := outcome.heldBack
        expected := expected
        gaveUp := outcome.gaveUp }

/-- `settle_entry`. With nothing registered and something in doubt it raises;
`cancel` is what the venue's cancel call would answer. -/
def settleEntry (entry : Entry) (outcome : MemberResult) (cancel : Except Exn Unit) :
    Action PlacementResult := do
  let accepted ← answer (outcome.accepted.mapM (x.acceptedOrder entry))
  let ambiguous := outcome.ambiguous.map (ambiguousText x.codec)
  if ambiguous ≠ [] ∧ accepted = [] then
    raise (.ambiguousPlacement
      ("staggered submission remained ambiguous: " ++ joinUnique ambiguous) true outcome.attempts)
  else x.finalizeDualResult (x.entryResult entry outcome accepted) entry.submissionKey cancel

/-- The one open order of each leg, as it is recorded; `none` where the venue
listed one without an id. -/
def adoptPair (price size : ℚ) (pairs : List ((String × String) × List Listed)) :
    Option (List PlacedOrder) :=
  pairs.mapM fun leg => leg.2.head?.bind fun row => (orderIdOf x.codec row.raw).map fun orderId =>
    ⟨orderId, leg.1.2, leg.1.1, price, size, replyStatus x.codec row.raw, .buy, .entry, ""⟩

/-- `reconcile_ambiguous_dual`: an ambiguous submission is adopted when each
leg has exactly one open order, cancelled when any other set is there, and
tried again when nothing is. -/
def reconcileAmbiguousDual (market : Market) (price size : ℚ) (retryableIfMissing : Bool)
    (openOrders : Except Exn (List Value)) (cancel : Except Exn Unit) :
    Action PlacementResult := do
  let rows ← answer openOrders
  let expected := dict ((x.entrySpecifications market).map Prod.swap)
  let found ← answer (exactMatches x.codec (expected.map Prod.fst) "BUY" price size rows)
  let key := EventQuant.submissionKey market price size
  let pairs := expected.map fun leg => (leg, found.filter fun row => row.tokenId = leg.1)
  if pairs.all fun leg => leg.2.length = 1 then
    match x.adoptPair price size pairs with
    | none =>
      return' { orders := [], error := some "matched open order has no order id" }
    | some orders => do
      commit (.forget x.account key)
      return' { orders := orders, expected := (x.entrySpecifications market).length }
  else
    let foundIds := (pairs.flatMap fun leg => leg.2).filterMap fun row => orderIdOf x.codec row.raw
    if foundIds ≠ [] then do
      commit (.cancel x.account foundIds)
      answer cancel
      commit (.forget x.account key)
      return'
        { orders := []
          error := some "ambiguous submission produced a partial or duplicate order set" }
    else if retryableIfMissing then
      return'
        { orders := []
          error := some "ambiguous submission did not produce exactly two orders"
          retryable := true }
    else do
      commit (.forget x.account key)
      return'
        { orders := []
          error := some "ambiguous submission did not produce exactly two orders" }

end Exchange

end EventQuant
