import EventQuant.Knock.Deadline
import EventQuant.Knock.Schedule
import EventQuant.Library.Runs

/-!
The give-up time after a preview. The watch hands the timing thread the moment
the bursts are timed from and only then the coordinator the moment to give up;
the slots that come in between are taken under the old bound. Sends stay
before the give-up time where the coordinator takes no later slot until it has
taken that time.
-/
namespace EventQuant.Knock

open Runs

/-- What the timing thread lays out when the record turns. -/
structure PreviewKnock where
  preview : Preview
  interval : ℤ
  phases : List ℤ
  earliest : List ℤ

def Plan.previewKnock (plan : Plan) (preview : Preview) (earliest : List ℤ) : PreviewKnock :=
  ⟨preview, nanoseconds plan.intervalMs, plan.members.map fun m => nanoseconds m.phaseMs, earliest⟩

/-- `turned`: the moment the bursts are timed from, never later than the answer
that found the record active. -/
def turned (startDate : Option ℤ) (seen : ℤ) : ℤ := startDate.elim seen fun start => min start seen

/-- The give-up time as the coordinator is told it, in whole milliseconds; the
anchor comes to it as a double. -/
def Preview.giveUpAt (p : Preview) (anchor : ℤ) : ℤ :=
  let double := Precision.binary64.round
  let anchorMs := double (double anchor / 1000000)
  int64 (goRound (double (anchorMs + p.giveUpMs)))

/-- The watch: asking, with the anchor released and the give-up time still to
send, or done. -/
inductive Watch
  | asking
  | released (giveUp : ℤ)
  | done
  deriving DecidableEq, Repr

/-- The timing thread: before its anchor, or with its tables and the slot it
sleeps for. -/
inductive Timing
  | waiting
  | ticking (t : Tick) (due : Option ℕ)

/-- The three threads and the channels between them; `anchored` is the anchor
once there is one, `sent` the readings orders were sent at. -/
structure Threads where
  clock : ℤ
  run : RunState
  watch : Watch
  timing : Timing
  anchor : Option ℤ
  giveUp : Option ℤ
  slots : List ℕ
  anchored : Option ℤ
  sent : List ℤ

/-- One thread's next step. -/
inductive Move
  | turn (startDate : Option ℤ) (seen : ℤ)
  | sendGiveUp
  | takeAnchor
  | pick
  | hand
  | takeSlot
  | takeGiveUp
  | other (e : Event)
  deriving DecidableEq

def Event.fromChannel : Event → Bool
  | .slot _ => true
  | .giveUp _ => true
  | _ => false

namespace Threads

def start (clock : ℤ) (r : RunState) : Threads :=
  ⟨clock, r, .asking, .waiting, none, none, [], none, []⟩

def sending (s : Threads) (i : ℕ) : Bool := (s.run.members[i]?).any fun m => !m.stopped

variable (k : PreviewKnock)

def move (now : ℤ) (s : Threads) : Move → Option Threads
  | .turn startDate seen =>
    match s.watch with
    | .asking =>
      if seen ≤ now then
        let anchor := turned startDate seen
        some { s with
          watch := .released (k.preview.giveUpAt anchor)
          anchor := some anchor
          anchored := some anchor }
      else none
    | _ => none
  | .sendGiveUp =>
    match s.watch with
    | .released giveUp => some { s with watch := .done, giveUp := some giveUp }
    | _ => none
  | .takeAnchor =>
    match s.timing, s.anchor with
    | .waiting, some anchor =>
      let tables := k.phases.map fun phase => timeBursts k.preview.bursts k.interval phase anchor
      some { s with timing := .ticking (Tick.start tables now k.earliest) none, anchor := none }
    | _, _ => none
  | .pick =>
    match s.timing with
    | .ticking t due =>
      -- a member that stopped meanwhile gives its slot up
      if due.all fun i => !s.sending i then
        (t.due s.sending).map fun i => { s with timing := .ticking t (some i) }
      else none
    | .waiting => none
  | .hand =>
    match s.timing with
    | .ticking t (some i) =>
      if t.next.getD i 0 ≤ now ∧ s.slots.length < 1024 then
        some { s with timing := .ticking (t.handed now i) none, slots := s.slots ++ [i] }
      else none
    | _ => none
  | .takeSlot =>
    match s.slots with
    | [] => none
    | i :: slots =>
      some { s with
        run := (s.run.handle now (.slot i)).1
        slots := slots
        sent := if (s.run.handle now (.slot i)).2.isSome then s.sent ++ [now] else s.sent }
  | .takeGiveUp =>
    s.giveUp.map fun giveUp =>
      { s with run := (s.run.handle now (.giveUp giveUp)).1, giveUp := none }
  | .other e => if e.fromChannel then none else some { s with run := (s.run.handle now e).1 }

/-- The clock never goes back, and a step no thread can take changes nothing. -/
def next (s : Threads) (step : ℤ × Move) : Threads :=
  if s.clock ≤ step.1 then (s.move k step.1 step.2).elim s fun s => { s with clock := step.1 } else s

def PastGiveUp (anchor now : ℤ) : Prop := (anchor : ℚ) + k.preview.giveUpMs * 1000000 ≤ now

/-- A slot of a member still sending is taken past the give-up time only once
the coordinator has taken that time, and it is over in the whole milliseconds
it was told too. -/
def Warned (s : Threads) (step : ℤ × Move) : Prop :=
  step.2 = .takeSlot → s.slots.head?.any s.sending = true →
    ∀ anchor, s.anchored = some anchor → PastGiveUp k anchor step.1 →
      s.watch = .done ∧ s.giveUp = none ∧ ofUnixMilli (k.preview.giveUpAt anchor) ≤ step.1

instance (s : Threads) (step : ℤ × Move) : Decidable (Warned k s step) :=
  inferInstanceAs (Decidable (step.2 = .takeSlot → s.slots.head?.any s.sending = true →
    ∀ anchor ∈ s.anchored, (anchor : ℚ) + k.preview.giveUpMs * 1000000 ≤ step.1 →
      s.watch = .done ∧ s.giveUp = none ∧ ofUnixMilli (k.preview.giveUpAt anchor) ≤ step.1))

/-- Until the record turns there is nothing to send for, and no order was sent
at or past the give-up time; on its way to the coordinator the give-up time
does not change, and taken it bounds the knock. -/
structure Kept (s : Threads) : Prop where
  quiet : s.anchored = none → s.anchor = none ∧ s.timing = .waiting ∧ s.slots = [] ∧ s.giveUp = none
  asking : s.watch = .asking ↔ s.anchored = none
  unsent : s.anchored = none → s.sent = []
  before : ∀ anchor, s.anchored = some anchor → ∀ now ∈ s.sent, ¬ PastGiveUp k anchor now
  released : ∀ anchor giveUp, s.anchored = some anchor → s.watch = .released giveUp →
    giveUp = k.preview.giveUpAt anchor
  onItsWay : ∀ anchor giveUp, s.anchored = some anchor → s.giveUp = some giveUp →
    giveUp = k.preview.giveUpAt anchor
  taken : ∀ anchor, s.anchored = some anchor → s.watch = .done → s.giveUp = none →
    s.run.limits.knockUntil ≤ k.preview.giveUpAt anchor

variable {k}

/-- Only the give-up time changes the bounds, and never raises them. -/
theorem handle_knockUntil (r : RunState) (now : ℤ) (e : Event) :
    (r.handle now e).1.limits.knockUntil ≤ r.limits.knockUntil := by
  cases e with
  | slot index =>
    simp only [RunState.handle, RunState.onSlot]
    split <;> exact le_refl _
  | giveUp bound => exact min_le_left _ _
  | reply rep => exact le_refl _
  | failed failure => exact le_refl _
  | stopping => exact le_refl _
  | timer => exact le_refl _

/-- A slot that sends is a member's still sending, and before the bound. -/
theorem sent_before {r : RunState} {now : ℤ} {i : ℕ} (h : (r.handle now (.slot i)).2.isSome = true) :
    ((r.members[i]?).any fun m => !m.stopped) = true ∧ now < ofUnixMilli r.limits.knockUntil := by
  simp only [RunState.handle, RunState.onSlot] at h
  split at h
  · cases h
  · rename_i m hm
    have hbefore := (m.ends_onSlot r.limits now).2.2 h
    have hopen : m.stopped = false := by
      cases hstopped : m.stopped with
      | false => rfl
      | true => simp [MemberState.onSlot, hstopped] at h
    refine ⟨by simp [hm, hopen], ?_⟩
    unfold Limits.deadline ofUnixMilli at hbefore
    unfold ofUnixMilli
    have hmin : min r.limits.knockUntil r.limits.marketEndMs ≤ r.limits.knockUntil := min_le_left _ _
    omega

theorem Kept.start (clock : ℤ) (r : RunState) : Kept k (Threads.start clock r) where
  quiet _ := ⟨rfl, rfl, rfl, rfl⟩
  asking := ⟨fun _ => rfl, fun _ => rfl⟩
  unsent _ := rfl
  before _ h := absurd h (by simp [Threads.start])
  released _ _ h := absurd h (by simp [Threads.start])
  onItsWay _ _ h := absurd h (by simp [Threads.start])
  taken _ h := absurd h (by simp [Threads.start])

/-- Once the record has turned, a step that leaves the sends, the anchor, the
watch and the give-up time alone keeps what it does not touch. -/
theorem Kept.quietly {s s' : Threads} (h : Kept k s) (hturned : s.anchored ≠ none)
    (hanchored : s'.anchored = s.anchored) (hsent : s'.sent = s.sent) (hwatch : s'.watch = s.watch)
    (hgiveUp : s'.giveUp = s.giveUp)
    (hlimits : s'.run.limits.knockUntil ≤ s.run.limits.knockUntil) : Kept k s' where
  quiet hnone := absurd (hanchored ▸ hnone) hturned
  asking := hwatch ▸ hanchored ▸ h.asking
  unsent hnone := absurd (hanchored ▸ hnone) hturned
  before anchor hanchor := hsent ▸ h.before anchor (hanchored ▸ hanchor)
  released anchor giveUp hanchor hreleased := h.released anchor giveUp (hanchored ▸ hanchor) (hwatch ▸ hreleased)
  onItsWay anchor giveUp hanchor hway := h.onItsWay anchor giveUp (hanchored ▸ hanchor) (hgiveUp ▸ hway)
  taken anchor hanchor hdone hnone :=
    hlimits.trans (h.taken anchor (hanchored ▸ hanchor) (hwatch ▸ hdone) (hgiveUp ▸ hnone))

/-- One step keeps it, where the coordinator was warned. -/
theorem Kept.move {s s' : Threads} (h : Kept k s) {now : ℤ} {m : Move} (hwarned : Warned k s (now, m))
    (hmove : s.move k now m = some s') : Kept k s' := by
  cases m with
  | turn startDate seen =>
    simp only [Threads.move] at hmove
    split at hmove
    · rename_i hasking
      split_ifs at hmove
      obtain rfl := Option.some.inj hmove
      have hnone : s.anchored = none := h.asking.mp hasking
      obtain ⟨-, -, -, hchannel⟩ := h.quiet hnone
      constructor
      · intro hturned
        cases hturned
      · constructor
        · intro hagain
          cases hagain
        · intro hturned
          cases hturned
      · intro hturned
        cases hturned
      · intro anchor _ sent hsent
        rw [h.unsent hnone] at hsent
        exact absurd hsent List.not_mem_nil
      · intro anchor giveUp hanchor hreleased
        obtain rfl := Option.some.inj hanchor
        exact (Watch.released.inj hreleased).symm
      · intro anchor giveUp _ hway
        rw [hchannel] at hway
        cases hway
      · intro anchor _ hdone
        cases hdone
    · cases hmove
  | sendGiveUp =>
    simp only [Threads.move] at hmove
    split at hmove
    · rename_i giveUp hreleased
      obtain rfl := Option.some.inj hmove
      have hturned : s.anchored ≠ none := by
        intro hnone
        rw [h.asking.mpr hnone] at hreleased
        cases hreleased
      constructor
      · intro hnone
        exact absurd hnone hturned
      · constructor
        · intro hasking
          cases hasking
        · intro hnone
          exact absurd hnone hturned
      · exact h.unsent
      · exact h.before
      · intro anchor giveUp' _ hagain
        cases hagain
      · intro anchor giveUp' hanchor hway
        obtain rfl := Option.some.inj hway
        exact h.released anchor _ hanchor hreleased
      · intro anchor _ _ hnone
        cases hnone
    · cases hmove
  | takeAnchor =>
    simp only [Threads.move] at hmove
    split at hmove
    · rename_i anchor _ hanchor
      obtain rfl := Option.some.inj hmove
      have hturned : s.anchored ≠ none := by
        intro hnone
        rw [(h.quiet hnone).1] at hanchor
        cases hanchor
      exact h.quietly hturned rfl rfl rfl rfl (le_refl _)
    · cases hmove
  | pick =>
    simp only [Threads.move] at hmove
    split at hmove
    · rename_i t due hticking
      have hturned : s.anchored ≠ none := by
        intro hnone
        rw [(h.quiet hnone).2.1] at hticking
        cases hticking
      split_ifs at hmove
      obtain ⟨i, -, rfl⟩ := Option.map_eq_some_iff.mp hmove
      exact h.quietly hturned rfl rfl rfl rfl (le_refl _)
    · cases hmove
  | hand =>
    simp only [Threads.move] at hmove
    split at hmove
    · rename_i t i hticking
      have hturned : s.anchored ≠ none := by
        intro hnone
        rw [(h.quiet hnone).2.1] at hticking
        cases hticking
      split_ifs at hmove
      obtain rfl := Option.some.inj hmove
      exact h.quietly hturned rfl rfl rfl rfl (le_refl _)
    · cases hmove
  | takeSlot =>
    simp only [Threads.move] at hmove
    split at hmove
    · cases hmove
    · rename_i i slots hslots
      obtain rfl := Option.some.inj hmove
      have hturned : s.anchored ≠ none := by
        intro hnone
        rw [(h.quiet hnone).2.2.1] at hslots
        cases hslots
      have hsaid : Kept k { s with run := (s.run.handle now (.slot i)).1, slots := slots } :=
        h.quietly hturned rfl rfl rfl rfl (handle_knockUntil s.run now (.slot i))
      split_ifs with hsends
      · obtain ⟨hsending, hbound⟩ := sent_before hsends
        refine { hsaid with unsent := fun hnone => absurd hnone hturned, before := ?_ }
        intro anchor hanchor sent hsent
        rcases List.mem_append.mp hsent with hsent | hsent
        · exact h.before anchor hanchor sent hsent
        · obtain rfl := List.mem_singleton.mp hsent
          intro hpast
          have hhead : s.slots.head?.any s.sending = true := by
            rw [hslots]
            exact hsending
          obtain ⟨hdone, hnone, hover⟩ := hwarned rfl hhead anchor hanchor hpast
          have htold := h.taken anchor hanchor hdone hnone
          unfold ofUnixMilli at hbound hover
          omega
      · exact hsaid
  | takeGiveUp =>
    simp only [Threads.move] at hmove
    obtain ⟨giveUp, hway, rfl⟩ := Option.map_eq_some_iff.mp hmove
    have hturned : s.anchored ≠ none := by
      intro hnone
      rw [(h.quiet hnone).2.2.2] at hway
      cases hway
    constructor
    · intro hnone
      exact absurd hnone hturned
    · exact h.asking
    · exact h.unsent
    · exact h.before
    · exact h.released
    · intro _ _ _ hnone
      cases hnone
    · intro anchor hanchor _ _
      rw [← h.onItsWay anchor giveUp hanchor hway]
      exact min_le_right _ _
  | other e =>
    simp only [Threads.move] at hmove
    split_ifs at hmove
    obtain rfl := Option.some.inj hmove
    exact { h with
      taken := fun anchor hanchor hdone hnone =>
        (handle_knockUntil s.run now e).trans (h.taken anchor hanchor hdone hnone) }

theorem Kept.next {s : Threads} (h : Kept k s) {step : ℤ × Move} (hwarned : Warned k s step) :
    Kept k (s.next k step) := by
  unfold Threads.next
  split_ifs
  · cases hmove : s.move k step.1 step.2 with
    | none => exact h
    | some s' =>
      have hmoved := h.move hwarned hmove
      exact ⟨hmoved.quiet, hmoved.asking, hmoved.unsent, hmoved.before, hmoved.released, hmoved.onItsWay,
        hmoved.taken⟩
  · exact h

/-- In every run of the three threads, each step taken where the coordinator
was warned, no order is sent at or past the anchor plus the give-up time. -/
theorem sends_before_giveUp (k : PreviewKnock) (clock : ℤ) (r : RunState) (s : Threads)
    (hrun : Run (Guarded (Warned k) (Threads.next k)) (Threads.start clock r) s) :
    ∀ anchor, s.anchored = some anchor → ∀ now ∈ s.sent, ¬ PastGiveUp k anchor now := by
  have hkept : Kept k s := by
    refine run_preserves (Kept k) ?_ hrun (Kept.start clock r)
    intro s t hstep h
    obtain ⟨step, hwarned, rfl⟩ := hstep
    exact h.next hwarned
  exact hkept.before

end Threads

section Late

open Threads

def latePreview : Preview := ⟨"https://gamma-api.polymarket.com/markets/1", 10, [⟨100, 200, 5⟩], 500⟩

def latePlan : Plan := { pairPlan with preview := some latePreview }

def lateKnock : PreviewKnock := latePlan.previewKnock latePreview [0]

def foundInTime : List (ℤ × Move) :=
  [(50000000, .turn (some 0) 50000000), (50000000, .takeAnchor), (50000000, .pick), (100000000, .hand),
    (100000000, .takeSlot), (100000000, .sendGiveUp), (100000000, .takeGiveUp)]

theorem sends_before_giveUp_inTime :
    (foundInTime.foldl (Threads.next lateKnock) (Threads.start 0 pairRun)).sent = [100000000] ∧
      ∀ now ∈ (foundInTime.foldl (Threads.next lateKnock) (Threads.start 0 pairRun)).sent,
        ¬ PastGiveUp lateKnock 0 now := by
  refine ⟨by decide +kernel, ?_⟩
  refine sends_before_giveUp lateKnock 0 pairRun _ (run_of_meets ?_) 0 ?_
  · decide +kernel
  · decide +kernel

def foundLate : List (ℤ × Move) :=
  [.turn (some 0) 600000000, .takeAnchor, .pick, .hand, .takeSlot].map fun m => (600000000, m)

theorem sends_before_giveUp_late :
    RunState.start latePlan (.ok ()) = .ok pairRun ∧
    ¬ ∀ s, Run (fun s t => ∃ step, Threads.next lateKnock s step = t) (Threads.start 0 pairRun) s →
      ∀ anchor, s.anchored = some anchor → ∀ now ∈ s.sent, ¬ PastGiveUp lateKnock anchor now := by
  constructor
  · have hinterval : ¬ nanoseconds 20 ≤ 0 := by decide +kernel
    have hcheck : latePreview.check = .ok () := by decide +kernel
    simp [RunState.start, latePlan, pairPlan, hinterval, hcheck, pairRun, pairMember]
  · intro h
    have hsent : (600000000 : ℤ) ∈
        (foundLate.foldl (Threads.next lateKnock) (Threads.start 0 pairRun)).sent := by decide +kernel
    refine h _ (run_of_events _ foundLate) 0 (by decide +kernel) 600000000 hsent ?_
    unfold PastGiveUp
    norm_num [lateKnock, Plan.previewKnock, latePreview]

end Late

end EventQuant.Knock
