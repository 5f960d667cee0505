import EventQuant.Python.Value

/-!
What one reply to an order means for the knock, and how a reply is judged once
it reads as a value: an object by its order id and its message, anything else
as a rejection. The coordinator reads nothing of a reply but this class.
-/
namespace EventQuant.Venue

open Python

/-- `transient` is no verdict at all: the send failed, or the venue answered
429 or 5xx. An accepted reply carries the id of an order the venue holds. -/
structure Class where
  trace : String
  transient : Bool
  accepted : Bool
  orderId : String
  duplicateId : String
  notReady : Bool
  deriving DecidableEq, Repr

/-- The reply decides the send, and no order came of it. -/
def Class.Against (c : Class) : Prop := c.transient = false ∧ c.accepted = false

instance (c : Class) : Decidable c.Against := by
  unfold Class.Against
  infer_instance

/-- A letter of the pattern, in either case; `(?i)` also folds the long s. -/
def folds (c letter : Char) : Bool := lowerChar c = letter || (letter = 's' && c.toNat = 0x17F)

def dropLiteral : List Char → List Char → Option (List Char)
  | [], text => some text
  | letter :: literal, c :: text => if folds c letter then dropLiteral literal text else none
  | _ :: _, [] => none

def isSpace (c : Char) : Bool := c = '\t' || c = '\n' || c = '\x0c' || c = '\r' || c = ' '

def isHex (c : Char) : Bool := c.isDigit || ('a' ≤ c.toLower && c.toLower ≤ 'f')

def isWord (c : Char) : Bool := c.isAlphanum || c = '_'

def dropSpaces (text : List Char) : Option (List Char) :=
  match text.span isSpace with
  | ([], _) => none
  | (_, rest) => some rest

/-- `duplicateOrder` at the start of the text: the id it names. -/
def duplicateAt (text : List Char) : Option String :=
  (dropLiteral "order".toList text).bind fun rest =>
  (dropSpaces rest).bind fun rest =>
  (dropLiteral "0x".toList rest).bind fun digits =>
  if (digits.take 64).length = 64 ∧ (digits.take 64).all isHex then
    (dropSpaces (digits.drop 64)).bind fun tail =>
    (dropLiteral "is invalid.".toList tail).bind fun tail =>
    (dropLiteral "duplicated.".toList (tail.dropWhile isSpace)).map fun _ =>
      String.ofList (rest.take 66)
  else none

/-- The id a resend is answered with, at the first place the pattern matches;
empty where it matches nowhere. -/
def duplicateOrder (before : Option Char) : List Char → String
  | [] => ""
  | c :: text =>
    match if before.any isWord then none else duplicateAt (c :: text) with
    | some id => id
    | none => duplicateOrder (some c) text

/-- `pyStr`: a list or an object reads as its compact JSON. -/
def pyStr (codec : Codec) : Value → String
  | .array items => codec.compact (.array items)
  | .object fields => codec.compact (.object fields)
  | value => value.str codec

def marketNotReady : String := "the market is not yet ready to process new orders"
def orderbookMissingPrefix : String := "the orderbook "
def orderbookMissingSuffix : String := " does not exist"

def notReadyMessage (message : String) : Bool :=
  let text := lower message
  text = marketNotReady || text = "invalid token id" || text = "market not found" ||
    (orderbookMissingPrefix.toList.isPrefixOf text.toList &&
      orderbookMissingSuffix.toList.isSuffixOf text.toList)

def isFalse : Value → Bool
  | .bool b => !b
  | _ => false

/-- `FromValue`. -/
def fromValue (codec : Codec) (value : Value) : Class :=
  if value.isObject then
    let errorMsg := value.get "errorMsg"
    let message := if errorMsg.truthy then pyStr codec errorMsg else ""
    let duplicateId := duplicateOrder none message.toList
    let named := value.firstOf ["orderID", "orderId", "order_id"] (.string "")
    let orderId := if pyStr codec named = "" then duplicateId else pyStr codec named
    let accepted := duplicateId ≠ "" || (!isFalse (value.get "success") && orderId ≠ "")
    let notReady := orderId = "" && notReadyMessage message
    { trace :=
        if duplicateId ≠ "" then "duplicate"
        else if accepted then "accepted"
        else if notReady then "not_ready"
        else "rejected"
      transient := false
      accepted := accepted
      orderId := orderId
      duplicateId := duplicateId
      notReady := notReady }
  else ⟨"rejected", false, false, "", "", false⟩

end EventQuant.Venue
