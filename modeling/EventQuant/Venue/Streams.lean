import EventQuant.Library.Runs
import EventQuant.Venue.Lanes

/-!
The connections while they are picked and given back. A count is read and
changed in one go, but a pick reads one connection after another, and a stream
may be given back between two of its reads; nothing keeps two picks apart
either. What the counts are taken for is recorded beside them.
-/
namespace EventQuant.Venue

open Runs

/-- How a call of `SendOrder`'s comes back. -/
inductive Answer (α : Type)
  | ok (a : α)
  | failed (err : String)
  | panicked
  deriving DecidableEq, Repr

/-- What `SendOrder` meets: the signed headers, the request made of them, the
response and its body. -/
structure SendAnswers where
  headers : Answer Unit
  request : Answer Unit
  response : Answer ℕ
  body : Answer String
  deriving DecidableEq, Repr

/-- What `SendOrder` returns, or that it panicked. -/
inductive Sent
  | replied (status : ℕ) (reply : String)
  | failed (err : String)
  | panicked
  deriving DecidableEq, Repr

inductive SendOp
  | closeBody
  | giveBack
  deriving DecidableEq, Repr

namespace SendAnswers

/-- The body of `SendOrder` past its own deferred call. -/
def post (a : SendAnswers) : Sent × List SendOp :=
  match a.headers, a.request, a.response with
  | .ok _, .ok _, .ok status =>
    match a.body with
    | .ok reply => (.replied status reply, [.closeBody])
    | .failed err => (.failed err, [.closeBody])
    | .panicked => (.panicked, [.closeBody])
  | .ok _, .ok _, .failed err => (.failed err, [])
  | .ok _, .ok _, .panicked => (.panicked, [])
  | .ok _, .failed err, _ => (.failed err, [])
  | .ok _, .panicked, _ => (.panicked, [])
  | .failed err, _, _ => (.failed err, [])
  | .panicked, _, _ => (.panicked, [])

/-- `SendOrder`: the stream is given back however it returns. -/
def sendOrder (a : SendAnswers) : Sent × List SendOp := (a.post.1, a.post.2 ++ [.giveBack])

/-- One stream given back on every way out, as the last thing. -/
theorem sendOrder_gives_back (a : SendAnswers) : a.sendOrder.2.count .giveBack = 1 := by
  have hpost : a.post.2.count .giveBack = 0 := by
    unfold post
    split
    · split <;> rfl
    all_goals rfl
  simp [sendOrder, hpost]

end SendAnswers

abbrev Counts := Fin lanes → ℤ

def total (counts : Counts) : ℤ := ∑ j, counts j

def firstLane : Fin lanes := ⟨0, by decide⟩

/-- Where a pick is: about to read the next connection, past a full one and
about to read the chosen one again, or out of the loop with one to spare. -/
inductive ScanStage
  | reading
  | comparing (carrying : ℤ)
  | spare (carrying : ℤ)
  deriving DecidableEq, Repr

/-- A pick under way: the counts it passed over, the connection chosen so far;
and what the counts were when it began, and whether they still are. -/
structure Scan where
  passed : List ℤ
  chosen : Fin lanes
  stage : ScanStage
  start : Counts
  whole : Bool
  deriving DecidableEq

/-- A send: its connection, what it came to and how often it gave it back. -/
structure Send where
  lane : Fin lanes
  ended : Option Sent
  released : ℕ
  deriving DecidableEq, Repr

/-- A pick that took its stream, and the counts it took it from. -/
structure Taken where
  scan : Scan
  counts : Counts

/-- The connections, the picks under way and the sends; the most requests there
ever were at once, whether a pick ever began beside another, and whether a
stream was ever given back inside a pick. -/
structure Streams where
  counts : Counts
  scans : List Scan
  sends : List Send
  picks : List Taken
  peak : ℤ
  overlapped : Bool
  torn : Bool

inductive StreamEvent
  | begin
  | look (i : ℕ)
  | compare (i : ℕ)
  | take (i : ℕ)
  | finish (i : ℕ) (answers : SendAnswers)

namespace Scan

def begin (counts : Counts) : Scan := ⟨[], firstLane, .reading, counts, true⟩

def disturb (c : Scan) : Scan := { c with whole := false }

def at? (c : Scan) : Option (Fin lanes) :=
  if h : c.passed.length < lanes then some ⟨c.passed.length, h⟩ else none

/-- The first read of a turn of the loop. -/
def look (counts : Counts) (c : Scan) : Scan :=
  match c.stage, c.at? with
  | .reading, some lane =>
    if counts lane < streamsPerLane then { c with chosen := lane, stage := .spare (counts lane) }
    else { c with stage := .comparing (counts lane) }
  | _, _ => c

/-- The second read: the connection chosen so far against this one. -/
def compare (counts : Counts) (c : Scan) : Scan :=
  match c.stage, c.at? with
  | .comparing carrying, some lane =>
    { c with
      passed := c.passed ++ [carrying]
      chosen := if carrying < counts c.chosen then lane else c.chosen
      stage := .reading }
  | _, _ => c

def Over (c : Scan) : Prop :=
  match c.stage with
  | .spare _ => True
  | .reading => c.at? = none
  | .comparing _ => False

instance (c : Scan) : Decidable c.Over := by
  unfold Over
  cases c.stage <;> infer_instance

end Scan

namespace Streams

def init : Streams := ⟨fun _ => 0, [], [], [], 0, false, false⟩

/-- What each step does; a step that cannot be taken changes nothing. -/
def next (s : Streams) : StreamEvent → Streams
  | .begin =>
    { s with
      scans := s.scans ++ [Scan.begin s.counts]
      overlapped := s.overlapped || !s.scans.isEmpty }
  | .look i =>
    match s.scans[i]? with
    | some c => { s with scans := s.scans.set i (c.look s.counts) }
    | none => s
  | .compare i =>
    match s.scans[i]? with
    | some c => { s with scans := s.scans.set i (c.compare s.counts) }
    | none => s
  | .take i =>
    match s.scans[i]? with
    | some c =>
      if c.Over then
        { s with
          counts := Function.update s.counts c.chosen (s.counts c.chosen + 1)
          scans := (s.scans.eraseIdx i).map Scan.disturb
          sends := s.sends ++ [⟨c.chosen, none, 0⟩]
          picks := s.picks ++ [⟨c, s.counts⟩]
          peak := max s.peak (total s.counts + 1) }
      else s
    | none => s
  | .finish i answers =>
    match s.sends[i]? with
    | some send =>
      if send.ended = none then
        let (sent, ops) := answers.sendOrder
        let given := ops.count .giveBack
        { s with
          counts := Function.update s.counts send.lane (s.counts send.lane - given)
          scans := s.scans.map Scan.disturb
          sends := s.sends.set i ⟨send.lane, some sent, send.released + given⟩
          torn := s.torn || !s.scans.isEmpty }
      else s
    | none => s

/-- What a step does, by the kinds that do something. -/
inductive Moves (s : Streams) : Streams → Prop
  | stay : Moves s s
  | begin : Moves s { s with
      scans := s.scans ++ [Scan.begin s.counts]
      overlapped := s.overlapped || !s.scans.isEmpty }
  | scan (i : ℕ) (c c' : Scan) (hc : c ∈ s.scans)
      (hc' : c' = c.look s.counts ∨ c' = c.compare s.counts) :
      Moves s { s with scans := s.scans.set i c' }
  | take (i : ℕ) (c : Scan) (hc : s.scans[i]? = some c) (hover : c.Over) : Moves s { s with
      counts := Function.update s.counts c.chosen (s.counts c.chosen + 1)
      scans := (s.scans.eraseIdx i).map Scan.disturb
      sends := s.sends ++ [⟨c.chosen, none, 0⟩]
      picks := s.picks ++ [⟨c, s.counts⟩]
      peak := max s.peak (total s.counts + 1) }
  | finish (i : ℕ) (send : Send) (sent : Sent) (hsend : s.sends[i]? = some send)
      (hopen : send.ended = none) : Moves s { s with
      counts := Function.update s.counts send.lane (s.counts send.lane - 1)
      scans := s.scans.map Scan.disturb
      sends := s.sends.set i ⟨send.lane, some sent, send.released + 1⟩
      torn := s.torn || !s.scans.isEmpty }

theorem next_moves (s : Streams) (e : StreamEvent) : s.Moves (s.next e) := by
  cases e with
  | begin => exact .begin
  | look i =>
    cases hc : s.scans[i]? with
    | none =>
      rw [show s.next (.look i) = s by simp only [next, hc]]
      exact .stay
    | some c =>
      simp only [next, hc]
      exact .scan i c _ (List.mem_of_getElem? hc) (.inl rfl)
  | compare i =>
    cases hc : s.scans[i]? with
    | none =>
      rw [show s.next (.compare i) = s by simp only [next, hc]]
      exact .stay
    | some c =>
      simp only [next, hc]
      exact .scan i c _ (List.mem_of_getElem? hc) (.inr rfl)
  | take i =>
    cases hc : s.scans[i]? with
    | none =>
      rw [show s.next (.take i) = s by simp only [next, hc]]
      exact .stay
    | some c =>
      by_cases hover : c.Over
      · simp only [next, hc, if_pos hover]
        exact .take i c hc hover
      · simp only [next, hc, if_neg hover]
        exact .stay
  | finish i answers =>
    cases hsend : s.sends[i]? with
    | none =>
      rw [show s.next (.finish i answers) = s by simp only [next, hsend]]
      exact .stay
    | some send =>
      by_cases hopen : send.ended = none
      · simp only [next, hsend, if_pos hopen, SendAnswers.sendOrder_gives_back]
        exact .finish i send _ hsend hopen
      · simp only [next, hsend, if_neg hopen]
        exact .stay

/-- Each pick has its send; a connection carries the sends that hold it, and
each of them gives it back once. -/
structure Held (s : Streams) : Prop where
  taken : s.sends.map Send.lane = s.picks.map fun p => p.scan.chosen
  counted : ∀ j, s.counts j = s.sends.countP fun x => x.lane = j ∧ x.ended = none
  returned : ∀ x ∈ s.sends, x.released = if x.ended = none then 0 else 1

theorem init_held : init.Held := ⟨rfl, fun _ => rfl, by simp [init]⟩

theorem Moves.held {s t : Streams} (hmoves : s.Moves t) (h : s.Held) : t.Held := by
  cases hmoves with
  | stay | begin | scan i c c' hc hc' => exact ⟨h.taken, h.counted, h.returned⟩
  | take i c hc hover =>
    constructor
    · simp [h.taken]
    · intro j
      show Function.update s.counts c.chosen (s.counts c.chosen + 1) j = _
      rw [List.countP_append]
      by_cases hj : j = c.chosen
      · subst hj
        rw [Function.update_self, h.counted]
        simp
      · have hne : ¬ c.chosen = j := fun heq => hj heq.symm
        rw [Function.update_of_ne hj, h.counted]
        simp [hne]
    · intro x hx
      rcases List.mem_append.mp hx with hx | hx
      · exact h.returned x hx
      · rw [List.mem_singleton.mp hx]
        rfl
  | finish i send sent hsend hopen =>
    obtain ⟨hi, hget⟩ := List.getElem?_eq_some_iff.mp hsend
    have hmem := List.mem_of_getElem? hsend
    constructor
    · show (s.sends.set i ⟨send.lane, some sent, send.released + 1⟩).map Send.lane = _
      rw [← h.taken, List.map_set, ← hget, ← List.getElem_map Send.lane (h := by simpa using hi)]
      exact List.set_getElem_self _
    · intro j
      show Function.update s.counts send.lane (s.counts send.lane - 1) j = _
      rw [List.countP_set hi, hget]
      by_cases hj : j = send.lane
      · subst hj
        have hpos : 0 < s.sends.countP fun x => x.lane = send.lane ∧ x.ended = none :=
          List.countP_pos_iff.mpr ⟨send, hmem, by simp [hopen]⟩
        rw [Function.update_self, h.counted, if_pos (by simp [hopen]), if_neg (by simp)]
        omega
      · have hne : ¬ send.lane = j := fun heq => hj heq.symm
        rw [Function.update_of_ne hj, h.counted]
        simp [hne]
    · intro x hx
      rcases List.mem_or_eq_of_mem_set hx with hx | hx
      · exact h.returned x hx
      · rw [hx, h.returned send hmem]
        simp [hopen]

theorem Held.nonneg {s : Streams} (h : s.Held) (j : Fin lanes) : 0 ≤ s.counts j := by
  rw [h.counted]
  exact Int.natCast_nonneg _

end Streams

end EventQuant.Venue
