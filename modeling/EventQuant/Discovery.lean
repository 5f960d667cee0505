import EventQuant.Library.Results
import EventQuant.Models
import EventQuant.Python.Value

/-!
Market discovery: the events Gamma lists, page by page, and the market read out
of each. A listing that does not read is passed over where what reading it
raises is among the classes the code catches. `decimal.InvalidOperation`, which
an unreadable size raises, is none of them, and it takes every other market of
the listing with it.
-/
namespace EventQuant

open Python Results

/-- What reading an event raises, by its class. -/
inductive Raised
  | attributeError
  | invalidOperation
  | jsonDecodeError
  | keyError
  | recursionError
  | typeError
  | valueError
  deriving DecidableEq, Repr

/-- `except (KeyError, TypeError, ValueError, json.JSONDecodeError)`. -/
def Raised.caught : Raised → Bool
  | .jsonDecodeError | .keyError | .typeError | .valueError => true
  | .attributeError | .invalidOperation | .recursionError => false

/-- A market as it is read, its two sizes decimals of any kind. -/
structure ListedMarket where
  slug : String
  conditionId : String
  startTs : ℤ
  endTs : ℤ
  upTokenId : String
  downTokenId : String
  minSize : DecimalValue
  tickSize : DecimalValue
  deriving DecidableEq, Repr

def slugStart : String := "btc-updown-5m-"

def hasSlugStart (slug : String) : Bool := slugStart.toList.isPrefixOf slug.toList

/-- `slug.rsplit("-", 1)[1]` of a slug with a dash. -/
def afterLastDash (slug : String) : String :=
  String.ofList (slug.toList.reverse.takeWhile (· ≠ '-')).reverse

def field (name : String) : Value → Option Value
  | .object fields => fields.lookup name
  | _ => none

def hashable : Value → Bool
  | .array _ | .object _ => false
  | _ => true

def textKey : Value × Value → Option (String × Value)
  | (.string key, value) => some (key, value)
  | _ => none

namespace MarketDiscovery

variable (codec : Codec) (deep : String → Bool)

/-- `market[name]`. -/
def item (market : Value) (name : String) : Except Raised Value :=
  match field name market with
  | some value => .ok value
  | none => .error .keyError

/-- `json.loads`, on texts some of which nest deeper than the interpreter goes. -/
def loads : Value → Except Raised Value
  | .string text =>
    if deep text then .error .recursionError
    else match codec.loads text with
      | some value => .ok value
      | none => .error .jsonDecodeError
  | _ => .error .typeError

/-- `dict(zip(outcomes, token_ids, strict=True))`, as far as a text looks it
up. -/
def tokenByOutcome (outcomes tokenIds : Value) : Except Raised (List (String × Value)) :=
  match outcomes.iterate, tokenIds.iterate with
  | .ok names, .ok tokens =>
    if (names.zip tokens).all fun pair => hashable pair.1 then
      if names.length = tokens.length then .ok (dict ((names.zip tokens).filterMap textKey))
      else .error .valueError
    else .error .typeError
  | _, _ => .error .typeError

def tokenOf (tokens : List (String × Value)) (outcome : String) : Except Raised String :=
  match tokens.lookup outcome with
  | some token => .ok (token.str codec)
  | none => .error .keyError

/-- `Decimal(str(value))`. -/
def size (value : Value) : Except Raised DecimalValue :=
  match decimalValue (value.str codec) with
  | some d => .ok d
  | none => .error .invalidOperation

def minSize (market : Value) : Value := (market.get "orderMinSize").or (.number "5")

def tickSize (market : Value) : Value := (market.get "orderPriceMinTickSize").or (.string "0.01")

/-- `int(slug.rsplit("-", 1)[1])`. -/
def startOf (slug : String) : Except Raised ℤ :=
  match int (afterLastDash slug) with
  | some startTs => .ok startTs
  | none => .error .valueError

/-- What names a market: its start, its condition and its two tokens. -/
structure Names where
  startTs : ℤ
  conditionId : String
  upTokenId : String
  downTokenId : String

def readNames (market : Value) (slug : String) : Except Raised Names := do
  let startTs ← startOf slug
  let tokenIds ← loads codec deep (← item market "clobTokenIds")
  let outcomes ← loads codec deep (← item market "outcomes")
  let tokens ← tokenByOutcome outcomes tokenIds
  let conditionId ← item market "conditionId"
  let upTokenId ← tokenOf codec tokens "Up"
  let downTokenId ← tokenOf codec tokens "Down"
  return ⟨startTs, conditionId.str codec, upTokenId, downTokenId⟩

/-- The body of the `try`. -/
def readMarket (market : Value) (slug : String) : Except Raised ListedMarket := do
  let names ← readNames codec deep market slug
  let least ← size codec (minSize market)
  let tick ← size codec (tickSize market)
  return ⟨slug, names.conditionId, names.startTs, names.startTs + 300, names.upTokenId,
    names.downTokenId, least, tick⟩

/-- `_parse_market`. -/
def parseMarket (market : Value) (slug : String) : Except Raised (Option ListedMarket) :=
  if ¬ hasSlugStart slug then .ok none
  else if ¬ market.isObject then .error .attributeError
  else if ¬ (market.get "enableOrderBook").truthy then .ok none
  else match readMarket codec deep market slug with
    | .ok listed => .ok (some listed)
    | .error raised => if raised.caught then .ok none else .error raised

def slugOf (event : Value) : String := ((event.get "slug").or (.string "")).str codec

/-- What `market_rows` is, where the event is a dictionary. -/
def marketRows (event : Value) : Value := (event.get "markets").or (.array [])

/-- `_parse`. -/
def parse (event : Value) : Except Raised (Option ListedMarket) :=
  if ¬ event.isObject then .error .attributeError
  else match marketRows event with
    | .array [market] => parseMarket codec deep market (slugOf codec event)
    | .array _ => .ok none
    | .object fields => if fields.length = 1 then .error .keyError else .ok none
    | .string text =>
      if text.length = 1 then parseMarket codec deep (.string text) (slugOf codec event)
      else .ok none
    | .null | .bool _ | .number _ => .error .typeError

/-- `GAMMA_PAGE_SIZE`. -/
def gammaPageSize : ℕ := 100

/-- `requested`: one page, or an event for each five minutes of the window. -/
def requested (windowMinutes : ℕ) (farthestFirst : Bool) : ℕ :=
  if farthestFirst then (windowMinutes + 4) / 5 else 100

/-- The events Gamma gives for the pages asked for, by limit and offset, until a
page is not full. -/
def gather (gamma : ℕ → ℕ → List Value) (requested : ℕ) (events : List Value) : List Value :=
  if events.length < requested then
    let pageSize := min gammaPageSize (requested - events.length)
    let page := gamma pageSize events.length
    if page.length < pageSize then events ++ page
    else gather gamma requested (events ++ page)
  else events
termination_by requested - events.length
decreasing_by
  rw [List.length_append]
  have hpage : 0 < gammaPageSize := by decide
  show requested - (events.length + page.length) < requested - events.length
  omega

/-- `sorted(..., key=lambda item: item.start_ts, reverse=farthest_first)`. -/
def byStart (farthestFirst : Bool) (markets : List ListedMarket) : List ListedMarket :=
  markets.mergeSort fun a b => if farthestFirst then b.startTs ≤ a.startTs else a.startTs ≤ b.startTs

/-- `discover`. -/
def discover (gamma : ℕ → ℕ → List Value) (windowMinutes : ℕ) (farthestFirst : Bool) :
    Except Raised (List ListedMarket) := do
  let markets ← (gather gamma (requested windowMinutes farthestFirst) []).mapM (parse codec deep)
  return byStart farthestFirst (markets.filterMap id)

end MarketDiscovery

end EventQuant
