import EventQuant.Library.Channels
import EventQuant.Knock.GiveUp

/-!
The asks for the market's record. Each goes out in a goroutine of its own and
hands its answer to the watch through a channel with as many places as there
may be asks out, so that none is ever stuck with its answer, also after the
watch has left. Every ask comes back once, and the first answer taken that
finds the record active is the one the bursts are timed from.
-/
namespace EventQuant.Knock

open Runs

def previewAsksInFlight : ℕ := 4

/-- A market's record as the watch reads it; the start date is none where it is
missing or cannot be read. -/
structure Record where
  active : Bool
  startDate : Option ℤ
  deriving DecidableEq, Repr

structure Ask where
  number : ℕ
  asked : ℤ
  deriving DecidableEq, Repr

/-- The record is none where the body cannot be read. -/
structure Answer where
  ask : Ask
  returned : ℤ
  failed : Bool
  status : ℤ
  record : Option Record
  deriving DecidableEq, Repr

def Answer.read (a : Answer) : Option Record :=
  if a.failed || a.status ≠ 200 then none else a.record

def Answer.finds (a : Answer) : Option Record := a.read.filter Record.active

/-- The watch on the record, for the log. -/
structure PreviewSeen where
  startDateMs : ℚ
  askedMs : ℤ
  seenMs : ℤ
  anchorMs : ℚ
  asks : ℕ
  failed : ℕ
  skipped : ℕ
  deriving DecidableEq, Repr

/-- `notePreview`, when an answer found the record active. -/
def PreviewSeen.turned (seen : PreviewSeen) (a : Answer) (record : Record) : PreviewSeen :=
  { seen with
    startDateMs := record.startDate.elim 0 fun start => (start : ℚ) / 1000000
    askedMs := unixMilli a.ask.asked
    seenMs := unixMilli a.returned
    anchorMs := (Knock.turned record.startDate a.returned : ℚ) / 1000000 }

/-- The three threads with the asks that are out: `flying` have no answer yet,
`returned` have one to hand over. What the watch took and how often it came to
ask is kept beside it. -/
structure Watched where
  clock : ℤ
  threads : Threads
  left : Bool
  seen : PreviewSeen
  out : ℤ
  flying : List Ask
  returned : List Answer
  answers : Channel Answer previewAsksInFlight
  taken : List Answer
  polls : ℕ

/-- A step of the watch, of one of the asks or of another thread. -/
inductive WatchMove
  | poll
  | take
  | leave
  | back (i : ℕ) (failed : Bool) (status : ℤ) (record : Option Record)
  | hand (i : ℕ)
  | thread (m : Move)

namespace Watched

/-- `ask`. -/
def ask (now : ℤ) (w : Watched) : Watched :=
  if previewAsksInFlight ≤ w.out then
    { w with
      seen := { w.seen with skipped := w.seen.skipped + 1 }
      polls := w.polls + 1 }
  else
    { w with
      out := w.out + 1
      seen := { w.seen with asks := w.seen.asks + 1 }
      flying := w.flying ++ [⟨w.seen.asks, now⟩]
      polls := w.polls + 1 }

def start (clock : ℤ) (r : RunState) : Watched :=
  ask clock
    { clock := clock
      threads := Threads.start clock r
      left := false
      seen := ⟨0, 0, 0, 0, 0, 0, 0⟩
      out := 0
      flying := []
      returned := []
      answers := .empty
      taken := []
      polls := 0 }

def watching (w : Watched) : Bool := decide (w.threads.watch = .asking) && !w.left

variable (k : PreviewKnock)

def follow (now : ℤ) (w : Watched) (a : Answer) (answers : Channel Answer previewAsksInFlight) :
    Option Watched :=
  let w := { w with
    out := w.out - 1
    answers := answers
    taken := w.taken ++ [a] }
  match a.read with
  | none => some { w with seen := { w.seen with failed := w.seen.failed + 1 } }
  | some record =>
    if !record.active then some w
    else (w.threads.move k now (.turn record.startDate a.returned)).map fun threads =>
      { w with
        threads := { threads with clock := now }
        seen := w.seen.turned a record }

def take (now : ℤ) (w : Watched) : Option Watched :=
  w.answers.receive.bind fun taken => w.follow k now taken.1 taken.2

def back (now : ℤ) (i : ℕ) (failed : Bool) (status : ℤ) (record : Option Record) (w : Watched) :
    Option Watched :=
  w.flying[i]?.map fun ask =>
    { w with
      flying := w.flying.eraseIdx i
      returned := w.returned ++ [⟨ask, now, failed, status, record⟩] }

/-- It hands its answer over where the channel has room, else it stays stuck. -/
def hand (i : ℕ) (w : Watched) : Option Watched :=
  w.returned[i]?.bind fun a =>
    (w.answers.send a).map fun answers =>
      { w with
        returned := w.returned.eraseIdx i
        answers := answers }

/-- The record turns in `follow` alone. -/
def thread (now : ℤ) (m : Move) (w : Watched) : Option Watched :=
  match m with
  | .turn _ _ => none
  | m => (w.threads.move k now m).map fun threads =>
    { w with threads := { threads with clock := now } }

def move (now : ℤ) (w : Watched) : WatchMove → Option Watched
  | .poll => if w.watching then some (w.ask now) else none
  | .take => if w.watching then w.take k now else none
  | .leave => if w.watching then some { w with left := true } else none
  | .back i failed status record => w.back now i failed status record
  | .hand i => w.hand i
  | .thread m => w.thread k now m

def next (w : Watched) (step : ℤ × WatchMove) : Watched :=
  if w.clock ≤ step.1 then (w.move k step.1 step.2).elim w fun w => { w with clock := step.1 } else w

def answered (w : Watched) : List Answer := w.taken ++ w.answers.buffer ++ w.returned

def numbers (w : Watched) : List ℕ :=
  w.answered.map (fun a => a.ask.number) ++ w.flying.map Ask.number

/-- The asks and their answers in step, at a clock reading. -/
structure Owed (clock : ℤ) (w : Watched) : Prop where
  room : w.answers.Room (w.flying.length + w.returned.length)
  out : w.out = w.flying.length + w.returned.length + w.answers.buffer.length
  once : w.numbers.Perm (List.range w.seen.asks)
  polled : w.seen.asks + w.seen.skipped = w.polls
  failed : w.seen.failed = w.taken.countP fun a => a.read.isNone
  flying : ∀ ask ∈ w.flying, ask.asked ≤ clock
  timed : ∀ a ∈ w.answered, a.ask.asked ≤ a.returned ∧ a.returned ≤ clock

theorem Owed.mono {w : Watched} {clock now : ℤ} (h : w.Owed clock) (hnow : clock ≤ now) :
    w.Owed now :=
  { h with
    flying := fun ask hask => (h.flying ask hask).trans hnow
    timed := fun a ha => ⟨(h.timed a ha).1, (h.timed a ha).2.trans hnow⟩ }

theorem Owed.ask {w : Watched} {now : ℤ} (h : w.Owed now) : (w.ask now).Owed now := by
  obtain ⟨hroom, hout, honce, hpolled, hfailed, hflying, htimed⟩ := h
  unfold Watched.ask
  split_ifs with hfull
  · refine ⟨hroom, hout, honce, ?_, hfailed, hflying, htimed⟩
    simp only
    omega
  · refine ⟨?_, ?_, ?_, ?_, hfailed, ?_, htimed⟩
    · simp only [Channel.Room, List.length_append, List.length_singleton] at hroom ⊢
      unfold previewAsksInFlight at *
      omega
    · simp only [List.length_append, List.length_singleton]
      push_cast
      omega
    · unfold numbers at honce ⊢
      rw [List.range_succ, List.map_append, ← List.append_assoc]
      exact honce.append (List.Perm.refl _)
    · simp only
      omega
    · intro ask hask
      rcases List.mem_append.mp hask with hask | hask
      · exact hflying ask hask
      · rw [List.mem_singleton.mp hask]

theorem owed_start (clock : ℤ) (r : RunState) : (start clock r).Owed clock :=
  Owed.ask ⟨Nat.zero_le _, rfl, .refl _, rfl, rfl, fun _ h => (nomatch h), fun _ h => (nomatch h)⟩

theorem Owed.back {w w' : Watched} {now : ℤ} {i : ℕ} {failed : Bool} {status : ℤ}
    {record : Option Record} (h : w.Owed now) (hback : w.back now i failed status record = some w') :
    w'.Owed now := by
  obtain ⟨hroom, hout, honce, hpolled, hfailed, hflying, htimed⟩ := h
  obtain ⟨ask, hask, rfl⟩ := Option.map_eq_some_iff.mp hback
  have hperm := perm_eraseIdx hask
  have hlength := hperm.length_eq
  rw [List.length_cons] at hlength
  refine ⟨?_, ?_, ?_, hpolled, hfailed, fun ask' hask' => hflying ask' (List.mem_of_mem_eraseIdx hask'), ?_⟩
  · simp only [Channel.Room, List.length_append, List.length_singleton] at hroom ⊢
    omega
  · simp only [List.length_append, List.length_singleton]
    push_cast
    omega
  · refine List.Perm.trans ?_ honce
    unfold numbers answered
    simp only [List.map_append, List.map_cons, List.map_nil, List.append_assoc]
    exact List.Perm.append_left _ (List.Perm.append_left _ (List.Perm.append_left _ (hperm.map Ask.number)))
  · intro a ha
    simp only [answered, ← List.append_assoc] at ha
    rcases List.mem_append.mp ha with ha | ha
    · exact htimed a ha
    · obtain rfl := List.mem_singleton.mp ha
      exact ⟨hflying ask (List.mem_of_getElem? hask), le_refl _⟩

theorem Owed.hand {w w' : Watched} {now : ℤ} {i : ℕ} (h : w.Owed now) (hhand : w.hand i = some w') :
    w'.Owed now := by
  obtain ⟨hroom, hout, honce, hpolled, hfailed, hflying, htimed⟩ := h
  obtain ⟨a, ha, hhand⟩ := Option.bind_eq_some_iff.mp hhand
  obtain ⟨answers, hsend, rfl⟩ := Option.map_eq_some_iff.mp hhand
  have hbuffer := Channel.send_some hsend
  have hperm := perm_eraseIdx ha
  have hlength := hperm.length_eq
  rw [List.length_cons] at hlength
  have hanswered : (w.taken ++ answers.buffer ++ w.returned.eraseIdx i).Perm w.answered := by
    rw [hbuffer, answered, ← List.append_assoc, List.append_assoc _ [a]]
    exact List.Perm.append_left _ hperm
  refine ⟨?_, ?_, ?_, hpolled, hfailed, hflying, fun a' ha' => htimed a' (hanswered.mem_iff.mp ha')⟩
  · simp only [Channel.Room, hbuffer, List.length_append, List.length_singleton] at hroom ⊢
    omega
  · simp only [hbuffer, List.length_append, List.length_singleton]
    push_cast
    omega
  · exact ((hanswered.map _).append (List.Perm.refl _)).trans honce

/-- A returned answer always finds a place. -/
theorem Owed.places {w : Watched} {now : ℤ} (h : w.Owed now) :
    ∀ a ∈ w.returned, (w.answers.send a).isSome = true := by
  intro a ha
  have hpos := List.length_pos_of_mem ha
  have hroom : w.answers.Room (w.flying.length + w.returned.length - 1 + 1) := by
    have h := h.room
    unfold Channel.Room at h ⊢
    omega
  obtain ⟨answers, hsend, -⟩ := hroom.send a
  rw [hsend]
  rfl

variable {k}

/-- An answer that finds the record active turns the knock; any other is at
most counted. -/
theorem follow_some {w w' : Watched} {now : ℤ} {a : Answer}
    {answers : Channel Answer previewAsksInFlight} (h : w.follow k now a answers = some w') :
    ∃ threads seen,
      w' = { w with
        out := w.out - 1
        answers := answers
        taken := w.taken ++ [a]
        threads := threads
        seen := seen } ∧
      ((a.finds = none ∧ threads = w.threads ∧
          seen = { w.seen with failed := w.seen.failed + a.read.isNone.toNat }) ∨
        ∃ record, a.finds = some record ∧
          (w.threads.move k now (.turn record.startDate a.returned)).map
            (fun threads => { threads with clock := now }) = some threads ∧
          seen = w.seen.turned a record) := by
  unfold Answer.finds
  unfold follow at h
  cases hread : a.read with
  | none =>
    rw [hread] at h
    exact ⟨_, _, (Option.some.inj h).symm, .inl ⟨rfl, rfl, rfl⟩⟩
  | some record =>
    rw [hread] at h
    cases hactive : record.active with
    | false =>
      simp only [hactive, Bool.not_false, if_true] at h
      exact ⟨_, _, (Option.some.inj h).symm, .inl ⟨by simp [hactive], rfl, rfl⟩⟩
    | true =>
      simp only [hactive, Bool.not_true, Bool.false_eq_true, if_false] at h
      obtain ⟨threads, hmove, rfl⟩ := Option.map_eq_some_iff.mp h
      exact ⟨_, _, rfl, .inr ⟨record, by simp [hactive], by rw [hmove]; rfl, rfl⟩⟩

theorem countP_isNone_snoc (taken : List Answer) (a : Answer) :
    (taken ++ [a]).countP (fun a => a.read.isNone) =
      taken.countP (fun a => a.read.isNone) + a.read.isNone.toNat := by
  rw [List.countP_append, List.countP_singleton]
  cases a.read.isNone <;> rfl

theorem Owed.take {w w' : Watched} {now : ℤ} (h : w.Owed now) (htake : w.take k now = some w') :
    w'.Owed now := by
  obtain ⟨hroom, hout, honce, hpolled, hfailed, hflying, htimed⟩ := h
  obtain ⟨⟨a, answers⟩, hreceive, hfollow⟩ := Option.bind_eq_some_iff.mp htake
  have hbuffer := Channel.receive_some hreceive
  have hmoved : w.taken ++ [a] ++ answers.buffer ++ w.returned = w.answered := by
    rw [answered, hbuffer, List.append_assoc w.taken, List.singleton_append]
  obtain ⟨threads, seen, rfl, hseen⟩ := follow_some hfollow
  have hlength : w.answers.buffer.length = answers.buffer.length + 1 := by
    rw [hbuffer, List.length_cons]
  have hcounts : seen.asks = w.seen.asks ∧ seen.skipped = w.seen.skipped ∧
      seen.failed = (w.taken ++ [a]).countP fun a => a.read.isNone := by
    rw [countP_isNone_snoc, ← hfailed]
    rcases hseen with ⟨-, -, rfl⟩ | ⟨record, hfinds, -, rfl⟩
    · exact ⟨rfl, rfl, rfl⟩
    · have hread : a.read.isNone = false := by
        unfold Answer.finds at hfinds
        cases hread : a.read with
        | none => rw [hread] at hfinds; cases hfinds
        | some _ => rfl
      exact ⟨rfl, rfl, by rw [hread]; rfl⟩
  refine ⟨?_, ?_, ?_, ?_, hcounts.2.2, hflying, fun a' ha' => htimed a' (hmoved ▸ ha')⟩
  · simp only [Channel.Room] at hroom ⊢
    omega
  · simp only
    omega
  · unfold numbers at honce ⊢
    rw [← hmoved] at honce
    simp only [hcounts.1]
    exact honce
  · simp only [hcounts.1, hcounts.2.1]
    exact hpolled

/-- Other threads leave the record as it is. -/
theorem thread_keeps {w w' : Watched} {now : ℤ} {m : Move} (h : w.thread k now m = some w') :
    ∃ threads, w.threads.move k now m = some threads ∧
      w' = { w with threads := { threads with clock := now } } ∧
      threads.anchored = w.threads.anchored ∧
      (threads.watch = .asking ↔ w.threads.watch = .asking) := by
  unfold thread at h
  split at h
  · cases h
  · rename_i hturn
    obtain ⟨threads, hmove, rfl⟩ := Option.map_eq_some_iff.mp h
    refine ⟨threads, hmove, rfl, ?_⟩
    cases m with
    | turn startDate seen => exact absurd rfl (hturn startDate seen)
    | sendGiveUp =>
      simp only [Threads.move] at hmove
      split at hmove
      · rename_i giveUp hreleased
        obtain rfl := Option.some.inj hmove
        simp [hreleased]
      · cases hmove
    | takeAnchor =>
      simp only [Threads.move] at hmove
      split at hmove
      · obtain rfl := Option.some.inj hmove
        exact ⟨rfl, .rfl⟩
      · cases hmove
    | pick =>
      simp only [Threads.move] at hmove
      split at hmove
      · split_ifs at hmove
        obtain ⟨i, -, rfl⟩ := Option.map_eq_some_iff.mp hmove
        exact ⟨rfl, .rfl⟩
      · cases hmove
    | hand =>
      simp only [Threads.move] at hmove
      split at hmove
      · split_ifs at hmove
        obtain rfl := Option.some.inj hmove
        exact ⟨rfl, .rfl⟩
      · cases hmove
    | takeSlot =>
      simp only [Threads.move] at hmove
      split at hmove
      · cases hmove
      · obtain rfl := Option.some.inj hmove
        exact ⟨rfl, .rfl⟩
    | takeGiveUp =>
      obtain ⟨giveUp, -, rfl⟩ := Option.map_eq_some_iff.mp hmove
      exact ⟨rfl, .rfl⟩
    | other e =>
      simp only [Threads.move] at hmove
      split_ifs at hmove
      obtain rfl := Option.some.inj hmove
      exact ⟨rfl, .rfl⟩

/-- The answer is the last one taken and the first of them to find the record
active. -/
def Found (w : Watched) (a : Answer) (record : Record) : Prop :=
  ∃ before, w.taken = before ++ [a] ∧ (∀ b ∈ before, b.finds = none) ∧ a.finds = some record

/-- The bursts are timed from the answer found, and the log is of it. -/
structure Followed (w : Watched) : Prop where
  asking : w.threads.watch = .asking ↔ w.threads.anchored = none
  unfound : w.threads.anchored = none → ∀ a ∈ w.taken, a.finds = none
  unseen : w.threads.anchored = none → w.seen.startDateMs = 0 ∧ w.seen.seenMs = 0
  found : ∀ anchor, w.threads.anchored = some anchor →
    ∃ a record, w.Found a record ∧ anchor = Knock.turned record.startDate a.returned ∧
      w.seen.turned a record = w.seen

theorem followed_start (clock : ℤ) (r : RunState) : (start clock r).Followed := by
  have hthreads : (start clock r).threads = Threads.start clock r := rfl
  refine ⟨⟨fun _ => rfl, fun _ => rfl⟩, fun _ a ha => (nomatch ha),
    fun _ => ⟨rfl, rfl⟩, fun anchor h => ?_⟩
  rw [hthreads] at h
  cases h

theorem turn_some {s s' : Threads} {now seen : ℤ} {startDate : Option ℤ}
    (h : s.move k now (.turn startDate seen) = some s') :
    s.watch = .asking ∧ s'.anchored = some (Knock.turned startDate seen) ∧ s'.watch ≠ .asking := by
  simp only [Threads.move] at h
  split at h
  · rename_i hasking
    split_ifs at h
    obtain rfl := Option.some.inj h
    refine ⟨hasking, rfl, ?_⟩
    intro hagain
    cases hagain
  · cases h

theorem Followed.take {w w' : Watched} {now : ℤ} (h : w.Followed)
    (hwatching : w.threads.watch = .asking) (htake : w.take k now = some w') : w'.Followed := by
  have hnone := h.asking.mp hwatching
  obtain ⟨⟨a, answers⟩, hreceive, hfollow⟩ := Option.bind_eq_some_iff.mp htake
  obtain ⟨threads, seen, rfl, hseen⟩ := follow_some hfollow
  rcases hseen with ⟨hfinds, rfl, rfl⟩ | ⟨record, hfinds, hmoved, rfl⟩
  · refine ⟨h.asking, fun _ b hb => ?_, h.unseen, fun anchor hanchor => ?_⟩
    · rcases List.mem_append.mp hb with hb | hb
      · exact h.unfound hnone b hb
      · rw [List.mem_singleton.mp hb, hfinds]
    · rw [hnone] at hanchor
      cases hanchor
  · obtain ⟨turned, hmove, rfl⟩ := Option.map_eq_some_iff.mp hmoved
    obtain ⟨-, hanchored, hturned⟩ := turn_some hmove
    refine ⟨⟨fun h => absurd h hturned, fun h => ?_⟩, fun h => ?_, fun h => ?_, fun anchor hanchor => ?_⟩
    · rw [hanchored] at h
      cases h
    · rw [hanchored] at h
      cases h
    · rw [hanchored] at h
      cases h
    · rw [hanchored] at hanchor
      obtain rfl := Option.some.inj hanchor
      exact ⟨a, record, ⟨w.taken, rfl, h.unfound hnone, hfinds⟩, rfl, rfl⟩

theorem watching_asking {w : Watched} (h : w.watching = true) : w.threads.watch = .asking :=
  of_decide_eq_true (Bool.and_eq_true_iff.mp h).1

theorem Followed.ask {w : Watched} (h : w.Followed) (hwatching : w.threads.watch = .asking) (now : ℤ) :
    (w.ask now).Followed := by
  have hnone := h.asking.mp hwatching
  unfold Watched.ask
  split_ifs
  · refine ⟨h.asking, h.unfound, h.unseen, fun anchor hanchor => ?_⟩
    rw [hnone] at hanchor
    cases hanchor
  · refine ⟨h.asking, h.unfound, h.unseen, fun anchor hanchor => ?_⟩
    rw [hnone] at hanchor
    cases hanchor

/-- What holds at any time. -/
structure InStep (w : Watched) : Prop where
  owed : w.Owed w.clock
  followed : w.Followed
  behind : w.threads.clock ≤ w.clock

theorem inStep_start (clock : ℤ) (r : RunState) : (start clock r).InStep :=
  ⟨owed_start clock r, followed_start clock r, le_refl _⟩

/-- What one step makes of it. -/
theorem InStep.move {w w' : Watched} {step : ℤ × WatchMove} (h : w.InStep) (hnow : w.clock ≤ step.1)
    (hmove : w.move k step.1 step.2 = some w') : w'.Owed step.1 ∧ w'.Followed ∧ w'.threads.clock ≤ step.1 := by
  obtain ⟨now, m⟩ := step
  have howed := h.owed.mono hnow
  have hbehind := h.behind.trans hnow
  cases m with
  | poll =>
    simp only [Watched.move] at hmove
    split_ifs at hmove with hwatching
    obtain rfl := Option.some.inj hmove
    refine ⟨howed.ask, h.followed.ask (watching_asking hwatching) now, ?_⟩
    unfold Watched.ask
    split_ifs <;> exact hbehind
  | take =>
    simp only [Watched.move] at hmove
    split_ifs at hmove with hwatching
    refine ⟨howed.take hmove, h.followed.take (watching_asking hwatching) hmove, ?_⟩
    obtain ⟨⟨a, answers⟩, hreceive, hfollow⟩ := Option.bind_eq_some_iff.mp hmove
    obtain ⟨threads, seen, rfl, hseen⟩ := follow_some hfollow
    rcases hseen with ⟨-, rfl, -⟩ | ⟨record, -, hmoved, -⟩
    · exact hbehind
    · obtain ⟨turned, -, rfl⟩ := Option.map_eq_some_iff.mp hmoved
      exact le_refl _
  | leave =>
    simp only [Watched.move] at hmove
    split_ifs at hmove
    obtain rfl := Option.some.inj hmove
    exact ⟨⟨howed.room, howed.out, howed.once, howed.polled, howed.failed, howed.flying, howed.timed⟩,
      ⟨h.followed.asking, h.followed.unfound, h.followed.unseen, h.followed.found⟩, hbehind⟩
  | back i failed status record =>
    refine ⟨howed.back hmove, ?_⟩
    obtain ⟨ask, -, rfl⟩ := Option.map_eq_some_iff.mp hmove
    exact ⟨⟨h.followed.asking, h.followed.unfound, h.followed.unseen, h.followed.found⟩, hbehind⟩
  | hand i =>
    refine ⟨howed.hand hmove, ?_⟩
    obtain ⟨a, -, hhand⟩ := Option.bind_eq_some_iff.mp hmove
    obtain ⟨answers, -, rfl⟩ := Option.map_eq_some_iff.mp hhand
    exact ⟨⟨h.followed.asking, h.followed.unfound, h.followed.unseen, h.followed.found⟩, hbehind⟩
  | thread m =>
    obtain ⟨threads, -, rfl, hanchored, hasking⟩ := thread_keeps hmove
    refine ⟨⟨howed.room, howed.out, howed.once, howed.polled, howed.failed, howed.flying, howed.timed⟩,
      ⟨?_, ?_, ?_, ?_⟩, le_refl _⟩
    · exact hasking.trans (h.followed.asking.trans (by rw [hanchored]))
    · exact fun hnone => h.followed.unfound (hanchored ▸ hnone)
    · exact fun hnone => h.followed.unseen (hanchored ▸ hnone)
    · exact fun anchor hanchor => h.followed.found anchor (hanchored ▸ hanchor)

theorem InStep.next {w : Watched} (h : w.InStep) (step : ℤ × WatchMove) : (w.next k step).InStep := by
  unfold Watched.next
  split_ifs with hnow
  · cases hmove : w.move k step.1 step.2 with
    | none => exact h
    | some w' =>
      obtain ⟨howed, hfollowed, hclock⟩ := h.move hnow hmove
      exact ⟨⟨howed.room, howed.out, howed.once, howed.polled, howed.failed, howed.flying, howed.timed⟩,
        ⟨hfollowed.asking, hfollowed.unfound, hfollowed.unseen, hfollowed.found⟩, hclock⟩
  · exact h

/-- A step is one of the three threads' or leaves them as they are; only the
coordinator takes a slot. -/
theorem next_threads {w : Watched} (h : w.InStep) (step : ℤ × WatchMove) :
    (w.next k step).threads = w.threads ∨
      ∃ m, (step.2 = .thread m ∨ m ≠ .takeSlot) ∧
        (w.next k step).threads = w.threads.next k (step.1, m) := by
  obtain ⟨now, m⟩ := step
  unfold Watched.next
  split_ifs with hnow
  swap
  · exact .inl rfl
  have hbehind : w.threads.clock ≤ now := h.behind.trans hnow
  cases hmove : w.move k now m with
  | none => exact .inl rfl
  | some w' =>
    cases m with
    | poll =>
      simp only [Watched.move] at hmove
      split_ifs at hmove
      obtain rfl := Option.some.inj hmove
      refine .inl ?_
      unfold Watched.ask
      split_ifs <;> rfl
    | take =>
      simp only [Watched.move] at hmove
      split_ifs at hmove
      obtain ⟨⟨a, answers⟩, -, hfollow⟩ := Option.bind_eq_some_iff.mp hmove
      obtain ⟨threads, seen, rfl, hseen⟩ := follow_some hfollow
      rcases hseen with ⟨-, rfl, -⟩ | ⟨record, -, hmoved, -⟩
      · exact .inl rfl
      · obtain ⟨turned, hturn, rfl⟩ := Option.map_eq_some_iff.mp hmoved
        refine .inr ⟨.turn record.startDate a.returned, .inr (fun h => (nomatch h)), ?_⟩
        simp only [Threads.next, hbehind, if_true, hturn, Option.elim_some]
    | leave =>
      simp only [Watched.move] at hmove
      split_ifs at hmove
      obtain rfl := Option.some.inj hmove
      exact .inl rfl
    | back i failed status record =>
      obtain ⟨ask, -, rfl⟩ := Option.map_eq_some_iff.mp hmove
      exact .inl rfl
    | hand i =>
      obtain ⟨a, -, hhand⟩ := Option.bind_eq_some_iff.mp hmove
      obtain ⟨answers, -, rfl⟩ := Option.map_eq_some_iff.mp hhand
      exact .inl rfl
    | thread m =>
      obtain ⟨threads, hthread, rfl, -⟩ := thread_keeps hmove
      refine .inr ⟨m, .inl rfl, ?_⟩
      simp only [Threads.next, hbehind, if_true, hthread, Option.elim_some]

theorem inStep_run {clock : ℤ} {r : RunState} {w : Watched}
    (hrun : Run (fun w v => ∃ step, Watched.next k w step = v) (start clock r) w) : w.InStep := by
  refine run_preserves InStep ?_ hrun (inStep_start clock r)
  rintro u v ⟨step, rfl⟩ hu
  exact hu.next step

/-- In every run of the asks, the watch and the other threads: no answer is ever
stuck, as many asks are out as have not been taken back and never more than
four, every ask sent has come back once or is out, each time the watch came to
ask is counted as an ask or as skipped, and each answer taken that could not be
read as failed; and the bursts are timed from the first answer taken that finds
the record active, and not later than it came back. -/
theorem asks_answered {clock : ℤ} {r : RunState} {w : Watched}
    (hrun : Run (fun w v => ∃ step, Watched.next k w step = v) (start clock r) w) :
    (∀ a ∈ w.returned, (w.answers.send a).isSome = true) ∧
      (w.out = w.flying.length + w.returned.length + w.answers.buffer.length ∧
        w.out ≤ previewAsksInFlight) ∧
      w.numbers.Perm (List.range w.seen.asks) ∧
      (w.seen.asks + w.seen.skipped = w.polls ∧
        w.seen.failed = w.taken.countP fun a => a.read.isNone) ∧
      (w.threads.anchored = none → (∀ a ∈ w.taken, a.finds = none) ∧ w.seen.seenMs = 0) ∧
      ∀ anchor, w.threads.anchored = some anchor → ∃ a record, w.Found a record ∧
        anchor = Knock.turned record.startDate a.returned ∧
        (anchor ≤ a.returned ∧ a.ask.asked ≤ a.returned ∧ a.returned ≤ w.clock) ∧
        w.seen.turned a record = w.seen := by
  obtain ⟨howed, hfollowed, -⟩ := inStep_run hrun
  refine ⟨howed.places, ⟨howed.out, ?_⟩, howed.once, ⟨howed.polled, howed.failed⟩,
    fun hnone => ⟨hfollowed.unfound hnone, (hfollowed.unseen hnone).2⟩, fun anchor hanchor => ?_⟩
  · have hroom := howed.room
    have hout := howed.out
    unfold Channel.Room at hroom
    omega
  · obtain ⟨a, record, hfound, hturned, hseen⟩ := hfollowed.found anchor hanchor
    have htaken : a ∈ w.answered := by
      obtain ⟨before, htaken, -⟩ := hfound
      simp [answered, htaken]
    refine ⟨a, record, hfound, hturned, ⟨?_, howed.timed a htaken⟩, hseen⟩
    rw [hturned, Knock.turned]
    cases record.startDate with
    | none => exact le_refl _
    | some start => exact min_le_right _ _

def askedTwice : List (ℤ × WatchMove) :=
  [(10000000, .poll), (20000000, .back 0 false 404 none), (30000000, .back 0 false 200 (some ⟨true, some 0⟩)),
    (30000000, .hand 0), (30000000, .hand 0), (40000000, .take), (50000000, .take)]

theorem asks_answered_example :
    ∃ w, w = askedTwice.foldl (Watched.next lateKnock) (start 0 pairRun) ∧
      (w.seen.asks, w.seen.failed, w.seen.skipped) = (2, 1, 0) ∧
      ∀ anchor, w.threads.anchored = some anchor → ∃ a record, w.Found a record ∧
        anchor = Knock.turned record.startDate a.returned := by
  refine ⟨_, rfl, by decide +kernel, fun anchor hanchor => ?_⟩
  have hrun : Run (fun w v => ∃ step, Watched.next lateKnock w step = v) (start 0 pairRun)
      (askedTwice.foldl (Watched.next lateKnock) (start 0 pairRun)) := run_of_events _ askedTwice
  obtain ⟨a, record, hfound, hturned, -⟩ := (asks_answered hrun).2.2.2.2.2 anchor hanchor
  exact ⟨a, record, hfound, hturned⟩

/-- A slot is taken only where the coordinator was warned. -/
def Warned (k : PreviewKnock) (w : Watched) (step : ℤ × WatchMove) : Prop :=
  ∀ m, step.2 = .thread m → Threads.Warned k w.threads (step.1, m)

instance (k : PreviewKnock) (w : Watched) : ∀ step : ℤ × WatchMove, Decidable (Warned k w step)
  | (now, .thread m) => decidable_of_iff (Threads.Warned k w.threads (now, m))
      ⟨fun h _ hm => WatchMove.thread.inj hm ▸ h, fun h => h m rfl⟩
  | (_, .poll) | (_, .take) | (_, .leave) | (_, .back ..) | (_, .hand _) => .isTrue fun _ h => nomatch h

/-- The three threads run as they do without the asks. -/
theorem run_threads {u w : Watched} (hrun : Run (Guarded (Warned k) (Watched.next k)) u w) (hu : u.InStep) :
    Run (Guarded (Threads.Warned k) (Threads.next k)) u.threads w.threads := by
  refine run_relates (fun u w => Run (Guarded (Threads.Warned k) (Threads.next k)) u.threads w.threads)
    InStep (fun _ => .refl) (fun _ _ _ => .trans) ?_ ?_ hrun hu
  · rintro u v ⟨step, -, rfl⟩ hu
    exact hu.next step
  · rintro u v ⟨step, hwarned, rfl⟩ hu
    rcases next_threads hu step with hsame | ⟨m, hm, hnext⟩
    · rw [hsame]
    · refine .single ⟨(step.1, m), ?_, hnext.symm⟩
      rcases hm with hm | hm
      · exact hwarned m hm
      · exact fun htake => absurd htake hm

theorem Found.unique {w : Watched} {a b : Answer} {record other : Record} (h : w.Found a record)
    (h' : w.Found b other) : a = b ∧ record = other := by
  obtain ⟨before, htaken, -, hfinds⟩ := h
  obtain ⟨before', htaken', -, hfinds'⟩ := h'
  obtain ⟨-, hlast⟩ := List.append_inj' (htaken.symm.trans htaken') rfl
  obtain rfl := List.singleton_inj.mp hlast
  exact ⟨rfl, Option.some.inj (hfinds.symm.trans hfinds')⟩

/-- Where the coordinator was warned, no order is sent once the give-up time has
passed since the start date of the record first found active, or since the
answer that found it if that was earlier. -/
theorem sends_before_record {clock : ℤ} {r : RunState} {w : Watched}
    (hrun : Run (Guarded (Warned k) (Watched.next k)) (start clock r) w) :
    (w.threads.anchored = none → w.threads.sent = []) ∧
    ∀ a record, w.Found a record → ∀ now ∈ w.threads.sent,
      ¬ Threads.PastGiveUp k (Knock.turned record.startDate a.returned) now := by
  have hkept : Threads.Kept k w.threads := by
    refine run_preserves (Threads.Kept k) ?_ (run_threads hrun (inStep_start clock r))
      (Threads.Kept.start clock r)
    rintro u v ⟨step, hwarned, rfl⟩ hu
    exact hu.next hwarned
  have hfollowed : w.Followed := by
    refine (run_preserves InStep ?_ hrun (inStep_start clock r)).followed
    rintro u v ⟨step, -, rfl⟩ hu
    exact hu.next step
  refine ⟨hkept.unsent, fun a record hfound now hnow => ?_⟩
  cases hanchored : w.threads.anchored with
  | none =>
    obtain ⟨before, htaken, -, hfinds⟩ := hfound
    have hnot := hfollowed.unfound hanchored a (by simp [htaken])
    rw [hnot] at hfinds
    cases hfinds
  | some anchor =>
    obtain ⟨b, other, hother, hturned, -⟩ := hfollowed.found anchor hanchored
    obtain ⟨rfl, rfl⟩ := hfound.unique hother
    rw [← hturned]
    exact hkept.before anchor hanchored now hnow

def followedInTime : List (ℤ × WatchMove) :=
  askedTwice ++ [(50000000, .thread .takeAnchor), (50000000, .thread .pick), (100000000, .thread .hand),
    (100000000, .thread .takeSlot), (100000000, .thread .sendGiveUp), (100000000, .thread .takeGiveUp)]

theorem sends_before_record_example :
    ∃ w, w = followedInTime.foldl (Watched.next lateKnock) (start 0 pairRun) ∧
      w.threads.sent = [100000000] ∧
      ∀ a record, w.Found a record → ∀ now ∈ w.threads.sent,
        ¬ Threads.PastGiveUp lateKnock (Knock.turned record.startDate a.returned) now := by
  refine ⟨_, rfl, by decide +kernel, ?_⟩
  have hrun : Run (Guarded (Warned lateKnock) (Watched.next lateKnock)) (start 0 pairRun)
      (followedInTime.foldl (Watched.next lateKnock) (start 0 pairRun)) := by
    refine run_of_meets ?_
    decide +kernel
  exact (sends_before_record hrun).2

end Watched

end EventQuant.Knock
