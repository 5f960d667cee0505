import EventQuant.Knock.Quiet
import EventQuant.Knock.TickLoop

/-!
The timing threads and what they hold. Each follows `tick` to its end, through
the preview, the loop of TickLoop and the deferred calls; a thread may outlive
its knock, so any number of them run at once, and a panic may end one wherever
a statement of its can raise it.
-/
namespace EventQuant.Knock

open Runs Refcount

def replyMargin : ℤ := 100000000

/-- Where `tick` is: before the preview, waiting for the record, at one of the
three statements that take the holds, before the loop or at its head, at one of
the three that release them there, in the loop, in the deferred release, or
past it. -/
inductive HoldStage
  | starting
  | waiting
  | quieting
  | collecting
  | marking
  | spacing
  | checking
  | resuming
  | freeing
  | unmarking
  | looping
  | leaving (panicked : Bool)
  | leavingGC (panicked : Bool)
  | ended (panicked : Bool)
  deriving DecidableEq, Repr

/-- How often a thread called `burstOn`, `burstOff`, `holdGC` and `releaseGC`. -/
structure HoldTally where
  on : ℕ
  off : ℕ
  taken : ℕ
  given : ℕ
  deriving DecidableEq, Repr

def HoldTally.bursting (t : HoldTally) : Bool := decide (t.off < t.on)

def HoldTally.holding (t : HoldTally) : Bool := decide (t.given < t.taken)

/-- `tick`, with its locals and the loop's own state. -/
structure HoldThread where
  plan : Plan
  stage : HoldStage
  tables : List (String × Timetable)
  start : ℤ
  quietAt : ℤ
  held : Bool
  loop : TimingThread
  tally : HoldTally

def HoldThread.bursting (th : HoldThread) : Bool := th.tally.bursting

def HoldThread.holding (th : HoldThread) : Bool := th.tally.holding

/-- The thread goes on, the record's anchor reaches it, the knock is done before
that, its loop takes a step, or a statement panics. -/
inductive HoldStep
  | go
  | anchor (anchor : ℤ)
  | quit
  | loop (m : TickMove)
  | panic

def Plan.tables (plan : Plan) (origin : ℤ) : List (String × Timetable) :=
  plan.members.map fun m =>
    (m.account, ⟨[], origin, nanoseconds m.phaseMs, nanoseconds plan.intervalMs⟩)

def Plan.burstTables (plan : Plan) (bursts : List Burst) (anchor : ℤ) : List (String × Timetable) :=
  plan.members.map fun m =>
    (m.account, timeBursts bursts (nanoseconds plan.intervalMs) (nanoseconds m.phaseMs) anchor)

namespace HoldThread

def begin (plan : Plan) (origin : ℤ) : HoldThread :=
  ⟨plan, .starting, plan.tables origin, origin, 0, false, TimingThread.begin [] origin [],
    ⟨0, 0, 0, 0⟩⟩

def callOn (th : HoldThread) : HoldThread := { th with tally.on := th.tally.on + 1 }

def callOff (th : HoldThread) : HoldThread := { th with tally.off := th.tally.off + 1 }

def callHold (th : HoldThread) : HoldThread := { th with tally.taken := th.tally.taken + 1 }

def callRelease (th : HoldThread) : HoldThread := { th with tally.given := th.tally.given + 1 }

/-- The next statement on the holds, at a reading of the clock. -/
def go (now : ℤ) (nextSlot : List (String × ℤ)) (h : Held) (th : HoldThread) :
    Option (Held × HoldThread) :=
  match th.stage with
  | .starting =>
    some (h, { th with stage := if th.plan.preview.isSome then .waiting else .spacing })
  | .quieting => some (h.burstOn, { th.callOn with stage := .collecting })
  | .collecting => some (h.holdGC, { th.callHold with stage := .marking })
  | .marking => some (h, { th with held := true, stage := .spacing })
  | .spacing =>
    let loop := TimingThread.begin th.tables th.start nextSlot
    some (h, { th with loop := loop, stage := .checking })
  | .checking =>
    let replied := th.held && decide (th.quietAt ≤ now)
    some (h, { th with stage := if replied then .resuming else .looping })
  | .resuming =>
    some (h.burstOff, { th.callOff with stage := if h.Panics then .leaving true else .freeing })
  | .freeing => some (h.releaseGC, { th.callRelease with stage := .unmarking })
  | .unmarking => some (h, { th with held := false, stage := .looping })
  | .leaving panicked =>
    if th.held then
      some (h.burstOff, { th.callOff with
        stage := if h.Panics then .ended true else .leavingGC panicked })
    else some (h, { th with stage := .ended panicked })
  | .leavingGC panicked => some (h.releaseGC, { th.callRelease with stage := .ended panicked })
  | .waiting | .looping | .ended _ => none

/-- The bursts are timed from the anchor and, unless they are over by then, held. -/
def anchored (now anchor : ℤ) (th : HoldThread) : Option HoldThread :=
  match th.stage, th.plan.preview with
  | .waiting, some preview =>
    let timed : HoldThread :=
      { th with tables := th.plan.burstTables preview.bursts anchor, start := now }
    match preview.bursts.getLast? with
    | some last =>
      let quietAt := wrap (wrap (anchor + nanoseconds last.untilMs) + replyMargin)
      some { timed with
        quietAt := quietAt
        stage := if now < quietAt then .quieting else .spacing }
    | none => some { timed with stage := .spacing }
  | _, _ => none

/-- The loop turns back to its head from a slot recorded, or from a member found
stopped past the coarse timer. -/
def turned (m : TickMove) (loop : TimingThread) : HoldStage :=
  if loop.stage = .ended then .leaving false
  else if (m = .record ∨ m = .wake) ∧ loop.stage = .looking 0 none then .checking
  else .looping

def step (now : ℤ) (nextSlot : List (String × ℤ)) (h : Held) (th : HoldThread) :
    HoldStep → Option (Held × HoldThread)
  | .go => th.go now nextSlot h
  | .anchor anchor => (th.anchored now anchor).map (h, ·)
  | .quit => if th.stage = .waiting then some (h, { th with stage := .leaving false }) else none
  | .loop m =>
    if th.stage = .looping then
      (th.loop.move now m).map fun loop =>
        (h, { th with loop := loop, stage := turned m loop })
    else none
  | .panic =>
    match th.stage with
    | .starting | .waiting | .spacing | .checking | .looping =>
      some (h, { th with stage := .leaving true })
    | _ => none

/-- What a step leaves in `nextSlot`. -/
def recorded (now : ℤ) (th : HoldThread) : HoldStep → List (String × ℤ)
  | .loop m => th.loop.recorded now m
  | _ => []

end HoldThread

/-! ### One thread -/

def HoldTally.Even (t : HoldTally) : Prop := t = ⟨0, 0, 0, 0⟩ ∨ t = ⟨1, 1, 1, 1⟩

/-- What a thread has called for, by where it is and by its `held`. -/
def Tallied (th : HoldThread) : Prop :=
  match th.stage with
  | .starting | .waiting | .quieting => th.held = false ∧ th.tally = ⟨0, 0, 0, 0⟩
  | .collecting => th.held = false ∧ th.tally = ⟨1, 0, 0, 0⟩
  | .marking => th.held = false ∧ th.tally = ⟨1, 0, 1, 0⟩
  | .spacing | .checking | .looping | .leaving _ =>
    if th.held then th.tally = ⟨1, 0, 1, 0⟩ else th.tally.Even
  | .resuming => th.held = true ∧ th.tally = ⟨1, 0, 1, 0⟩
  | .freeing | .leavingGC _ => th.held = true ∧ th.tally = ⟨1, 1, 1, 0⟩
  | .unmarking => th.held = true ∧ th.tally = ⟨1, 1, 1, 1⟩
  | .ended _ => th.tally.Even

/-- What a step does to the holds, and to the thread's own count of them. -/
inductive HoldEffect (h : Held) : HoldTally → Held → HoldTally → Prop
  | none (t : HoldTally) : HoldEffect h t h t
  | burstOn : HoldEffect h ⟨0, 0, 0, 0⟩ h.burstOn ⟨1, 0, 0, 0⟩
  | holdGC : HoldEffect h ⟨1, 0, 0, 0⟩ h.holdGC ⟨1, 0, 1, 0⟩
  | burstOff : HoldEffect h ⟨1, 0, 1, 0⟩ h.burstOff ⟨1, 1, 1, 0⟩
  | releaseGC : HoldEffect h ⟨1, 1, 1, 0⟩ h.releaseGC ⟨1, 1, 1, 1⟩

namespace HoldThread

variable {now : ℤ} {nextSlot : List (String × ℤ)} {h h' : Held} {th th' : HoldThread}

theorem begin_tallied (plan : Plan) (origin : ℤ) : Tallied (begin plan origin) := ⟨rfl, rfl⟩

theorem go_effect (hpanics : ¬ h.Panics) (ht : Tallied th)
    (hgo : th.go now nextSlot h = some (h', th')) :
    Tallied th' ∧ HoldEffect h th.tally h' th'.tally := by
  obtain ⟨plan, stage, tables, start, quietAt, held, loop, tally⟩ := th
  cases stage with
  | waiting | looping | ended => cases hgo
  | starting =>
    cases hgo
    obtain ⟨hheld, htally⟩ := ht
    refine ⟨?_, .none tally⟩
    by_cases hpreview : plan.preview.isSome = true
    · simp only [if_pos hpreview]
      exact ⟨hheld, htally⟩
    · simp only [if_neg hpreview]
      obtain rfl : held = false := hheld
      exact .inl htally
  | quieting =>
    cases hgo
    obtain ⟨hheld, rfl⟩ := ht
    exact ⟨⟨hheld, rfl⟩, .burstOn⟩
  | collecting =>
    cases hgo
    obtain ⟨hheld, rfl⟩ := ht
    exact ⟨⟨hheld, rfl⟩, .holdGC⟩
  | marking =>
    cases hgo
    obtain ⟨_, rfl⟩ := ht
    exact ⟨rfl, .none _⟩
  | spacing =>
    cases hgo
    exact ⟨ht, .none tally⟩
  | checking =>
    cases hgo
    refine ⟨?_, .none tally⟩
    by_cases hreplied : (held && decide (quietAt ≤ now)) = true
    · simp only [if_pos hreplied]
      obtain rfl : held = true := (Bool.and_eq_true_iff.mp hreplied).1
      exact ⟨rfl, ht⟩
    · simp only [if_neg hreplied]
      exact ht
  | resuming =>
    cases hgo
    obtain ⟨hheld, rfl⟩ := ht
    simp only [if_neg hpanics]
    exact ⟨⟨hheld, rfl⟩, .burstOff⟩
  | freeing =>
    cases hgo
    obtain ⟨hheld, rfl⟩ := ht
    exact ⟨⟨hheld, rfl⟩, .releaseGC⟩
  | unmarking =>
    cases hgo
    obtain ⟨_, rfl⟩ := ht
    exact ⟨.inr rfl, .none _⟩
  | leaving panicked =>
    have hleaving : if held then tally = ⟨1, 0, 1, 0⟩ else tally.Even := ht
    cases held with
    | true =>
      cases hgo
      obtain rfl : tally = ⟨1, 0, 1, 0⟩ := hleaving
      simp only [if_neg hpanics]
      exact ⟨⟨rfl, rfl⟩, .burstOff⟩
    | false =>
      cases hgo
      exact ⟨hleaving, .none tally⟩
  | leavingGC panicked =>
    cases hgo
    obtain ⟨_, rfl⟩ := ht
    exact ⟨.inr rfl, .releaseGC⟩

theorem anchored_tallied {anchor : ℤ} (ht : Tallied th)
    (hanchored : th.anchored now anchor = some th') : Tallied th' ∧ th'.tally = th.tally := by
  obtain ⟨plan, stage, tables, start, quietAt, held, loop, tally⟩ := th
  unfold anchored at hanchored
  split at hanchored
  · rename_i preview hstage hpreview
    simp only at hstage
    subst hstage
    obtain ⟨hheld, htally⟩ := ht
    simp only at hheld htally
    subst hheld htally
    split at hanchored
    · rename_i last _
      obtain rfl := Option.some.inj hanchored
      refine ⟨?_, rfl⟩
      by_cases hearly : now < wrap (wrap (anchor + nanoseconds last.untilMs) + replyMargin)
      · simp only [if_pos hearly]
        exact ⟨rfl, rfl⟩
      · simp only [if_neg hearly]
        exact .inl rfl
    · obtain rfl := Option.some.inj hanchored
      exact ⟨.inl rfl, rfl⟩
  · cases hanchored

theorem turned_tallied {m : TickMove} {loop : TimingThread} (hstage : th.stage = .looping)
    (ht : Tallied th) : Tallied { th with loop := loop, stage := turned m loop } := by
  obtain ⟨plan, stage, tables, start, quietAt, held, loop', tally⟩ := th
  simp only at hstage
  subst hstage
  unfold turned
  split
  · exact ht
  · split <;> exact ht

/-- A step takes or releases at most one hold, in the order of the calls. -/
theorem step_effect {e : HoldStep} (hpanics : ¬ h.Panics) (ht : Tallied th)
    (hstep : th.step now nextSlot h e = some (h', th')) :
    Tallied th' ∧ HoldEffect h th.tally h' th'.tally := by
  cases e with
  | go => exact go_effect hpanics ht hstep
  | anchor anchor =>
    obtain ⟨th₁, hanchored, heq⟩ := Option.map_eq_some_iff.mp hstep
    obtain ⟨rfl, rfl⟩ := Prod.mk.inj heq
    obtain ⟨ht', htally⟩ := anchored_tallied ht hanchored
    exact ⟨ht', htally ▸ .none _⟩
  | quit =>
    obtain ⟨plan, stage, tables, start, quietAt, held, loop, tally⟩ := th
    by_cases hwaiting : stage = .waiting
    · subst hwaiting
      cases hstep
      obtain ⟨hheld, htally⟩ := ht
      obtain rfl : held = false := hheld
      exact ⟨.inl htally, .none tally⟩
    · simp [step, hwaiting] at hstep
  | loop m =>
    by_cases hlooping : th.stage = .looping
    · simp only [step, if_pos hlooping] at hstep
      obtain ⟨loop, _, heq⟩ := Option.map_eq_some_iff.mp hstep
      obtain ⟨rfl, rfl⟩ := Prod.mk.inj heq
      exact ⟨turned_tallied hlooping ht, .none _⟩
    · simp [step, hlooping] at hstep
  | panic =>
    obtain ⟨plan, stage, tables, start, quietAt, held, loop, tally⟩ := th
    cases stage with
    | starting | waiting =>
      cases hstep
      obtain ⟨hheld, htally⟩ := ht
      obtain rfl : held = false := hheld
      exact ⟨.inl htally, .none tally⟩
    | spacing | checking | looping =>
      cases hstep
      exact ⟨ht, .none tally⟩
    | quieting | collecting | marking | resuming | freeing | unmarking | leaving | leavingGC |
      ended => cases hstep

end HoldThread

namespace HoldEffect

variable {h h' : Held} {t t' : HoldTally}

theorem sound (he : HoldEffect h t h' t') {percent : ℤ} (hs : h.Sound percent) :
    h'.Sound percent := by
  cases he with
  | none => exact hs
  | burstOn => exact hs.burstOn
  | holdGC => exact hs.holdGC
  | burstOff => exact hs.burstOff
  | releaseGC => exact hs.releaseGC

theorem bursts (he : HoldEffect h t h' t') :
    Moved h.bursts.held t.bursting h'.bursts.held t'.bursting := by
  cases he with
  | none => exact .same _
  | burstOn => exact .taken
  | holdGC | releaseGC => exact .same _
  | burstOff =>
    rw [show h.burstOff.bursts.held = h.bursts.held - 1 from Counted.release_held _ _]
    exact .given

theorem gc (he : HoldEffect h t h' t') : Moved h.gc.held t.holding h'.gc.held t'.holding := by
  cases he with
  | none => exact .same _
  | holdGC => exact .taken
  | burstOn | burstOff => exact .same _
  | releaseGC =>
    rw [show h.releaseGC.gc.held = h.gc.held - 1 from Counted.release_held _ _]
    exact .given

end HoldEffect

/-! ### All of them -/

/-- The process: the slots and the holds its timing threads share. -/
structure Session where
  nextSlot : List (String × ℤ)
  held : Held
  threads : List HoldThread

/-- A knock starts its thread, or a thread takes a step. -/
inductive SessionMove
  | begin (plan : Plan)
  | thread (k : ℕ) (step : HoldStep)

namespace Session

def init (percent : ℤ) : Session := ⟨[], Held.init percent, []⟩

def next (s : Session) (e : ℤ × SessionMove) : Session :=
  match e.2 with
  | .begin plan => { s with threads := s.threads ++ [HoldThread.begin plan e.1] }
  | .thread k step =>
    match s.threads[k]? with
    | some th =>
      match th.step e.1 s.nextSlot s.held step with
      | some (held, th') =>
        ⟨th.recorded e.1 step ++ s.nextSlot, held, s.threads.set k th'⟩
      | none => s
    | none => s

def Reached (s : Session) (percent : ℤ) : Prop :=
  Run (fun s t => ∃ e, s.next e = t) (init percent) s

/-- The two counts are those of the threads with a burst on and with the
collector held off. -/
structure Balanced (s : Session) (percent : ℤ) : Prop where
  tallied : ∀ th ∈ s.threads, Tallied th
  sound : s.held.Sound percent
  bursts : s.held.bursts.held = s.threads.countP HoldThread.bursting
  gc : s.held.gc.held = s.threads.countP HoldThread.holding

theorem init_balanced (percent : ℤ) : (init percent).Balanced percent :=
  ⟨by simp [init], Held.init_sound percent, rfl, rfl⟩

variable {percent : ℤ} {s : Session}

theorem Balanced.begin (h : s.Balanced percent) (plan : Plan) (origin : ℤ) :
    Balanced { s with threads := s.threads ++ [HoldThread.begin plan origin] } percent where
  tallied th hth := by
    rcases List.mem_append.mp hth with hth | hth
    · exact h.tallied th hth
    · rw [List.mem_singleton.mp hth]
      exact HoldThread.begin_tallied plan origin
  sound := h.sound
  bursts := by
    show s.held.bursts.held = _
    rw [h.bursts, List.countP_append]
    rfl
  gc := by
    show s.held.gc.held = _
    rw [h.gc, List.countP_append]
    rfl

theorem Balanced.thread (h : s.Balanced percent) {k : ℕ} {th th' : HoldThread} {held : Held}
    (hth : s.threads[k]? = some th) (ht : Tallied th')
    (he : HoldEffect s.held th.tally held th'.tally) (nextSlot : List (String × ℤ)) :
    Balanced ⟨nextSlot, held, s.threads.set k th'⟩ percent where
  tallied x hx := by
    rcases List.mem_or_eq_of_mem_set hx with hx | hx
    · exact h.tallied x hx
    · rw [hx]
      exact ht
  sound := he.sound h.sound
  bursts := Moved.count he.bursts hth h.bursts
  gc := Moved.count he.gc hth h.gc

theorem Balanced.next (h : s.Balanced percent) (e : ℤ × SessionMove) :
    (s.next e).Balanced percent := by
  obtain ⟨now, move⟩ := e
  cases move with
  | begin plan => exact h.begin plan now
  | thread k step =>
    cases hth : s.threads[k]? with
    | none =>
      rw [show s.next (now, .thread k step) = s by simp only [Session.next, hth]]
      exact h
    | some th =>
      cases hstep : th.step now s.nextSlot s.held step with
      | none =>
        rw [show s.next (now, .thread k step) = s by simp only [Session.next, hth, hstep]]
        exact h
      | some moved =>
        obtain ⟨ht, he⟩ := HoldThread.step_effect h.sound.not_panics
          (h.tallied th (List.mem_of_getElem? hth)) hstep
        simp only [Session.next, hth, hstep]
        exact h.thread hth ht he _

theorem Reached.balanced (h : s.Reached percent) : s.Balanced percent := by
  refine run_preserves (fun s => s.Balanced percent) ?_ h (init_balanced percent)
  rintro s t ⟨e, rfl⟩ hs
  exact hs.next e

/-- What a thread took it gives back, once, by its end. -/
theorem tallied_once {th : HoldThread} (ht : Tallied th) :
    th.tally.on ≤ 1 ∧ th.tally.taken ≤ 1 ∧ th.tally.off ≤ th.tally.on ∧
      th.tally.given ≤ th.tally.taken ∧
      ∀ panicked, th.stage = .ended panicked →
        th.tally.off = th.tally.on ∧ th.tally.given = th.tally.taken := by
  have heven : th.tally.Even → th.tally.on ≤ 1 ∧ th.tally.taken ≤ 1 ∧
      th.tally.off = th.tally.on ∧ th.tally.given = th.tally.taken := by
    rintro (h | h) <;> simp [h]
  unfold Tallied at ht
  cases hstage : th.stage with
  | starting | waiting | quieting | collecting | marking | resuming | freeing | unmarking |
    leavingGC =>
    rw [hstage] at ht
    simp [ht.2]
  | spacing | checking | looping | leaving =>
    rw [hstage] at ht
    simp only at ht
    split at ht
    · simp [ht]
    · obtain ⟨hon, htaken, hoff, hgiven⟩ := heven ht
      exact ⟨hon, htaken, hoff.le, hgiven.le, fun _ _ => ⟨hoff, hgiven⟩⟩
  | ended =>
    rw [hstage] at ht
    obtain ⟨hon, htaken, hoff, hgiven⟩ := heven ht
    exact ⟨hon, htaken, hoff.le, hgiven.le, fun _ _ => ⟨hoff, hgiven⟩⟩

theorem Balanced.bursting_iff (h : s.Balanced percent) :
    s.held.bursts.held = 0 ↔ ¬ ∃ th ∈ s.threads, th.bursting = true := by
  rw [h.bursts, List.countP_eq_zero]
  simp

theorem Balanced.holding_iff (h : s.Balanced percent) :
    s.held.gc.held = 0 ↔ ¬ ∃ th ∈ s.threads, th.holding = true := by
  rw [h.gc, List.countP_eq_zero]
  simp

/-- Each thread releases a hold once and by its end all it took, however it ends;
`quiet` is closed while no burst is on, the collector is off while a thread holds
it and otherwise as the first hold found it, and no channel is closed twice. -/
theorem Reached.releases (h : s.Reached percent) :
    (∀ th ∈ s.threads, th.tally.on ≤ 1 ∧ th.tally.taken ≤ 1 ∧ th.tally.off ≤ th.tally.on ∧
      th.tally.given ≤ th.tally.taken ∧
      ∀ panicked, th.stage = .ended panicked →
        th.tally.off = th.tally.on ∧ th.tally.given = th.tally.taken) ∧
    (s.held.bursts.resource.IsClosed ↔ ¬ ∃ th ∈ s.threads, th.bursting = true) ∧
    (s.held.gc.resource.percent < 0 ↔ (∃ th ∈ s.threads, th.holding = true) ∨ percent < 0) ∧
    ((¬ ∃ th ∈ s.threads, th.holding = true) → s.held.gc.resource.percent = percent) ∧
    (∃ k, s.held.gc.resource.settings = Collector.turned percent k ++
      if s.held.gc.held = 0 then [] else [(percent, -1)]) ∧
    ∀ n ∈ s.held.bursts.resource.closes, n ≤ 1 := by
  have hb := h.balanced
  have hpercent := hb.sound.percent_eq
  refine ⟨fun th hth => tallied_once (hb.tallied th hth),
    hb.sound.isClosed_iff.trans hb.bursting_iff, ?_, ?_, hb.sound.settings, hb.sound.once⟩
  · by_cases hnone : s.held.gc.held = 0
    · rw [hpercent, if_pos hnone]
      simp only [hb.holding_iff.mp hnone, false_or]
    · have hsome := not_not.mp (mt hb.holding_iff.mpr hnone)
      rw [hpercent, if_neg hnone]
      simp only [hsome, true_or, iff_true]
      decide
  · intro hnone
    rw [hpercent, if_pos (hb.holding_iff.mpr hnone)]

def burstPlan (market : String) : Plan :=
  ⟨market, 50, 0, 0, [⟨"a", 0, []⟩], some ⟨"", 25, [⟨100, 200, 5⟩], 1000⟩⟩

def stepsOf (k : ℕ) (now : ℤ) (steps : List HoldStep) : List (ℤ × SessionMove) :=
  steps.map fun step => (now, .thread k step)

def toLoop : List HoldStep := [.go, .anchor 0, .go, .go, .go, .go]

def panickedBurst : Session :=
  ((0, SessionMove.begin (burstPlan "m")) :: (0, .begin (burstPlan "n")) :: stepsOf 0 0 toLoop ++
    stepsOf 1 0 toLoop ++ stepsOf 0 0 [.panic, .go, .go]).foldl next (init 100)

def quietedBurst : Session :=
  (stepsOf 1 10000000000 [.go, .go, .go, .go]).foldl next panickedBurst

theorem panickedBurst_releases :
    (panickedBurst.threads.map fun th => (th.stage, th.tally)) =
      [(.ended true, ⟨1, 1, 1, 1⟩), (.checking, ⟨1, 0, 1, 0⟩)] ∧
    panickedBurst.held.gc.resource.percent < 0 ∧
    ¬ panickedBurst.held.bursts.resource.IsClosed ∧
    (quietedBurst.threads.map fun th => (th.stage, th.tally)) =
      [(.ended true, ⟨1, 1, 1, 1⟩), (.looping, ⟨1, 1, 1, 1⟩)] ∧
    quietedBurst.held.gc.resource.percent = 100 ∧ quietedBurst.held.bursts.resource.IsClosed ∧
    ∀ n ∈ quietedBurst.held.bursts.resource.closes, n ≤ 1 := by
  have hreached : panickedBurst.Reached 100 := run_of_events (init 100) _
  have hquieted : quietedBurst.Reached 100 := hreached.trans (run_of_events panickedBurst _)
  obtain ⟨-, hclosed, hpercent, -, -, -⟩ := Reached.releases hreached
  obtain ⟨-, hclosed', -, hrestored, -, honce⟩ := Reached.releases hquieted
  have hholds : ∃ th ∈ panickedBurst.threads, th.holding = true := by decide +kernel
  have hbursts : ∃ th ∈ panickedBurst.threads, th.bursting = true := by decide +kernel
  have hnone : ¬ ∃ th ∈ quietedBurst.threads, th.holding = true := by decide +kernel
  have hover : ¬ ∃ th ∈ quietedBurst.threads, th.bursting = true := by decide +kernel
  exact ⟨by decide +kernel, hpercent.mpr (.inl hholds), fun h => hclosed.mp h hbursts,
    by decide +kernel, hrestored hnone, hclosed'.mpr hover, honce⟩

/-- Where the process was started with collection off, it is off with no thread
to hold it. -/
theorem init_collection_off : (init (-1)).Reached (-1) ∧
    (init (-1)).held.gc.resource.percent < 0 ∧
      ¬ ∃ th ∈ (init (-1)).threads, th.holding = true := by
  refine ⟨.refl, by decide, ?_⟩
  rintro ⟨th, hth, -⟩
  exact absurd hth List.not_mem_nil

end Session

end EventQuant.Knock
