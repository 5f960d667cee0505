import Mathlib
import EventQuant.Library.Precision
import EventQuant.Venue.Lanes

/-!
One market's knock as Python hands it over, and what comes back: the plan
with its members and legs, the preview it may wait for, and each member's
result. Items are the distinct replies and texts a member's knocking ended
with, in the order first seen.
-/
namespace EventQuant.Knock

/-- One signed order: the exact request body, sent unchanged every time. -/
structure Leg where
  outcome : String
  body : String
  deriving DecidableEq, Repr

/-- One account's part: its phase on the shared timetable and its orders. -/
structure Member where
  account : String
  phaseMs : ℚ
  legs : List Leg
  deriving DecidableEq, Repr

structure Burst where
  fromMs : ℚ
  untilMs : ℚ
  intervalMs : ℚ
  deriving DecidableEq, Repr

structure Preview where
  url : String
  pollMs : ℚ
  bursts : List Burst
  giveUpMs : ℚ
  deriving DecidableEq, Repr

/-- The two wall-clock bounds are in milliseconds. -/
structure Plan where
  market : String
  intervalMs : ℚ
  knockUntilMs : ℤ
  marketEndMs : ℤ
  members : List Member
  preview : Option Preview
  deriving DecidableEq, Repr

/-- A registered order and the reply that carried it. -/
structure AcceptedOrder where
  outcome : String
  orderId : String
  status : ℤ
  body : String
  deriving DecidableEq, Repr

/-- Either an HTTP reply (status 0: nothing came back) or a text. -/
inductive Item
  | reply (status : ℤ) (body : String)
  | text (text : String)
  deriving DecidableEq, Repr

/-- What one account's knocking came to. -/
structure MemberResult where
  account : String
  attempts : ℕ
  heldBack : ℕ
  accepted : List AcceptedOrder
  registeredMs : Option ℤ
  errors : List Item
  ambiguous : List Item
  gaveUp : Bool
  deriving DecidableEq, Repr

/-- What decides whether an item is new: a reply's status and body, the status
alone of a reply without a verdict, or a text. The source joins these into one
string whose first byte tells the three apart. -/
inductive ItemKey
  | reply (status : ℤ) (body : String)
  | firstOf (status : ℤ)
  | text (text : String)
  deriving DecidableEq, Repr

def ItemKey.Names : ItemKey → Item → Prop
  | .reply status body, item => item = .reply status body
  | .firstOf status, item => ∃ body, item = .reply status body
  | .text said, item => item = .text said

/-- Every key seen has its item in the list, and nothing else is there. -/
structure Items where
  seen : List ItemKey
  list : List Item
  paired : List.Forall₂ ItemKey.Names seen list

namespace Items

def new : Items := ⟨[], [], .nil⟩

def note (l : Items) (key : ItemKey) (item : Item) (hnames : key.Names item) : Items :=
  if key ∈ l.seen then l
  else ⟨l.seen ++ [key], l.list ++ [item],
    List.rel_append l.paired (.cons hnames .nil)⟩

def reply (l : Items) (status : ℤ) (body : String) : Items :=
  l.note (.reply status body) (.reply status body) rfl

/-- Only the first reply of each status is kept. -/
def firstOf (l : Items) (status : ℤ) (body : String) : Items :=
  l.note (.firstOf status) (.reply status body) ⟨body, rfl⟩

def text (l : Items) (text : String) : Items :=
  l.note (.text text) (.text text) rfl

@[simp] theorem new_list : new.list = [] := rfl

/-- A key seen has an item it names. -/
theorem exists_named (l : Items) (key : ItemKey) (hseen : key ∈ l.seen) :
    ∃ item ∈ l.list, key.Names item := by
  obtain ⟨i, hi, rfl⟩ := List.getElem_of_mem hseen
  have hi' : i < l.list.length := l.paired.length_eq ▸ hi
  exact ⟨l.list[i], List.getElem_mem hi', l.paired.get hi hi'⟩

variable (l : Items) (key : ItemKey) (item : Item) (hnames : key.Names item)

theorem note_named : ∃ i ∈ (l.note key item hnames).list, key.Names i := by
  unfold note
  split
  · exact l.exists_named key ‹_›
  · exact ⟨item, by simp, hnames⟩

theorem note_list_ne_nil : (l.note key item hnames).list ≠ [] := by
  obtain ⟨i, hi, _⟩ := l.note_named key item hnames
  exact List.ne_nil_of_mem hi

theorem mem_note_list (i : Item) (hi : i ∈ l.list) : i ∈ (l.note key item hnames).list := by
  unfold note
  split
  · exact hi
  · exact List.mem_append_left _ hi

theorem firstOf_list_ne_nil (status : ℤ) (body : String) : (l.firstOf status body).list ≠ [] :=
  l.note_list_ne_nil _ _ _

/-- A text noted is in the list, then or from before. -/
theorem mem_text_list (t : String) : Item.text t ∈ (l.text t).list := by
  obtain ⟨i, hi, rfl⟩ := l.note_named (.text t) (.text t) rfl
  exact hi

end Items

/-- `math.Round`: to the nearest integer, halves away from zero. -/
def goRound (q : ℚ) : ℤ := if 0 ≤ q then ⌊q + 1 / 2⌋ else -⌊-q + 1 / 2⌋

/-- `int64` of a whole double, as amd64 has it (build.ps1): out of range it is
the least value. -/
def int64 (n : ℤ) : ℤ := if -2 ^ 63 ≤ n ∧ n < 2 ^ 63 then n else -2 ^ 63

/-- A sum of two 64-bit integers wraps around. -/
def wrap (n : ℤ) : ℤ := (n + 2 ^ 63) % 2 ^ 64 - 2 ^ 63

def wholeNs (ms : ℚ) : ℤ := goRound (Precision.binary64.round (ms * 1000000))

def nanoseconds (ms : ℚ) : ℤ := int64 (wholeNs ms)

/-- `math.Mod` by 1. -/
def goFract (q : ℚ) : ℚ := if 0 ≤ q then Int.fract q else -Int.fract (-q)

/-- Each burst has an interval and a length, and starts no earlier than the
end of the one before (`none` stands for the source's minus infinity). -/
def Burst.follow (last : Option ℚ) : List Burst → Bool
  | [] => true
  | b :: rest =>
    decide (0 < b.intervalMs) && decide (b.fromMs < b.untilMs) &&
      last.all (fun l => decide (l ≤ b.fromMs)) && Burst.follow (some b.untilMs) rest

/-- `(*Preview).check` refuses a preview the knock could not follow. The last
refusal goes on to print the bursts. -/
def Preview.check (p : Preview) : Except String Unit :=
  if p.url = "" then .error "a preview needs the market's record url"
  else if ¬ 0 < p.pollMs then .error "preview poll_ms must be above 0"
  else if ¬ 0 < p.giveUpMs then .error "preview give_up_ms must be above 0"
  else if Burst.follow none p.bursts then .ok ()
  else .error "preview bursts must follow one another, each with an interval above 0"

end EventQuant.Knock
