import Mathlib
import EventQuant.Database
import EventQuant.Knock.Plan

/-!
The state the service acts on and each single thing it does to it. The
database outlives the process; the signed orders, the retries and the queue of
activated markets are the process's own. What was signed and what went out to
the venue is kept as a history nothing reads back.
-/
namespace EventQuant

/-- What the service catches: an `AmbiguousPlacementError`, or any other
exception by its class and text. -/
inductive Exn
  | ambiguousPlacement (message : String) (retryable : Bool) (attempts : ℕ)
  | other (kind message : String)
  deriving DecidableEq, Repr

/-- `f"{type(exc).__name__}: {exc}"`. -/
def Exn.text : Exn → String
  | ambiguousPlacement message _ _ => "AmbiguousPlacementError: " ++ message
  | other kind message => kind ++ ": " ++ message

/-- `str(exc)`. -/
def Exn.message : Exn → String
  | ambiguousPlacement message _ _ => message
  | other _ message => message

inductive EntrySubmission
  | single
  | soloUp
  | soloDown
  deriving DecidableEq, Repr

/-- `_dual_submission_key`. -/
structure SubmissionKey where
  conditionId : String
  upTokenId : String
  downTokenId : String
  price : ℚ
  size : ℚ
  deriving DecidableEq, Repr

/-- `_PlacementRetryState`. -/
structure Retry where
  attempts : ℕ
  firstStartedTsMs : ℤ
  lastFinishedTsMs : ℤ
  deriving DecidableEq, Repr

structure ActivationUpdate where
  market : Market
  marketDiscoveredTsMs : ℤ
  marketParametersDetectedTsMs : ℤ
  deriving DecidableEq, Repr

/-- An account's order bodies handed to a knock of a market. -/
structure Knocked where
  account : String
  slug : String
  key : SubmissionKey
  legs : List Knock.Leg
  deriving DecidableEq, Repr

structure Bot where
  database : Database
  submissions : AList fun _ : String × SubmissionKey => List String
  retries : AList fun _ : String => Retry
  activations : List ActivationUpdate
  signings : List (String × SubmissionKey)
  knocked : List Knocked
  cancels : List (String × List String)

inductive Effect
  | write (w : Write)
  | sign (account : String) (key : SubmissionKey) (bodies : List String)
  | forget (account : String) (key : SubmissionKey)
  | setRetry (slug : String) (retry : Retry)
  | popRetry (slug : String)
  | enqueue (update : ActivationUpdate)
  | takeActivations
  | knock (k : Knocked)
  | cancel (account : String) (orderIds : List String)
  | submitExit (tokenId : String) (price size : ℚ)

namespace Bot

def boot (db : Database) : Bot := ⟨db, ∅, ∅, [], [], [], []⟩

def apply (b : Bot) : Effect → Bot
  | .write w => { b with database := b.database.apply w }
  | .sign account key bodies =>
    { b with
      submissions := b.submissions.insert (account, key) bodies
      signings := b.signings ++ [(account, key)] }
  | .forget account key => { b with submissions := b.submissions.erase (account, key) }
  | .setRetry slug retry => { b with retries := b.retries.insert slug retry }
  | .popRetry slug => { b with retries := b.retries.erase slug }
  | .enqueue update => { b with activations := b.activations ++ [update] }
  | .takeActivations => { b with activations := [] }
  | .knock k => { b with knocked := b.knocked ++ [k] }
  | .cancel account orderIds => { b with cancels := b.cancels ++ [(account, orderIds)] }
  | .submitExit _ _ _ => b

instance : Store Bot Effect where
  apply := Bot.apply

end Bot

abbrev Action (α : Type) := Program Bot Effect Exn α

namespace Action

open Program

def write (w : Write) : Action Unit := commit (.write w)

def query {α : Type} (f : Database → α) : Action α := read fun b => f b.database

/-- `add_order`: the row refers to its market's. -/
def addOrder (now : ℤ) (slug : String) (order : PlacedOrder) : Action Unit := do
  let known ← query fun db => db.hasMarket slug
  if known then write (.addOrder now slug order)
  else raise (.other "IntegrityError" "FOREIGN KEY constraint failed")

end Action

end EventQuant
