import EventQuant.Library.Channels
import EventQuant.Library.Runs
import EventQuant.Service.Reconciliation

/-!
The reconciliation worker beside the service's loop. The loop hands it one
batch of tracked orders at a time and drains what it found; the worker says it
is free before it hands an update over, so that the next batch can be on its
way while the update of the last one is not. Whatever the order of their steps,
each batch that was taken comes back once and in turn, as the round the worker
made of it, and the queue between them is never found full.
-/
namespace EventQuant

open Runs

/-- Where the worker's thread is in `_run`; an update it holds has its round. -/
inductive WorkerAt
  | checking
  | waiting
  | fetching (snapshots : List TrackedOrderSnapshot)
  | fetched (update : ReconciliationUpdate)
  | answering (update : ReconciliationUpdate)
  | ended

/-- The worker's shared state, the place its thread is at and the batch the
loop is in the middle of submitting. What was submitted, worked on and drained
is kept beside it. -/
structure Handshake where
  stop : Bool
  busy : Bool
  requests : Channel (List TrackedOrderSnapshot) 1
  updates : List ReconciliationUpdate
  worker : WorkerAt
  submitting : Option (List TrackedOrderSnapshot)
  full : Bool
  submitted : List (List TrackedOrderSnapshot)
  rounds : List Round
  drained : List ReconciliationUpdate

/-- A step of the loop, which calls in one at a time, or of the worker, which
meets these answers if it comes to fetch. -/
inductive HandshakeStep
  | submit (rows : List (OrderRow × MarketRow))
  | put
  | drain
  | stop
  | work (answers : RoundAnswers)

namespace Handshake

def init : Handshake where
  stop := false
  busy := false
  requests := .empty
  updates := []
  worker := .checking
  submitting := none
  full := false
  submitted := []
  rounds := []
  drained := []

variable (s : Service)

/-- One step of `_run`; a wait that finds nothing goes back to the check. -/
def work (answers : RoundAnswers) (h : Handshake) : Handshake :=
  match h.worker with
  | .checking => { h with worker := if h.stop then .ended else .waiting }
  | .waiting =>
    match h.requests.receive with
    | none => { h with worker := .checking }
    | some (snapshots, requests) =>
      { h with
        requests := requests
        worker := .fetching snapshots }
  | .fetching snapshots =>
    { h with
      worker := .fetched (s.fetch answers snapshots)
      rounds := h.rounds ++ [⟨snapshots, answers⟩] }
  | .fetched update =>
    { h with
      busy := false
      worker := .answering update }
  | .answering update =>
    { h with
      updates := h.updates ++ [update]
      worker := .checking }
  | .ended => h

/-- `submit`, up to where it puts the batch into the queue. -/
def submit (rows : List (OrderRow × MarketRow)) (h : Handshake) : Handshake :=
  if h.busy then h
  else
    { h with
      busy := true
      submitting := some (Service.snapshotsOf rows)
      submitted := h.submitted ++ [Service.snapshotsOf rows] }

/-- `put_nowait`. -/
def put (snapshots : List TrackedOrderSnapshot) (h : Handshake) : Handshake :=
  match h.requests.send snapshots with
  | none =>
    { h with
      submitting := none
      full := true }
  | some requests =>
    { h with
      submitting := none
      requests := requests }

def drain (h : Handshake) : Handshake :=
  { h with
    updates := []
    drained := h.drained ++ h.updates }

def setStop (h : Handshake) : Handshake := { h with stop := true }

def step (h : Handshake) (e : HandshakeStep) : Handshake :=
  match e, h.submitting with
  | .work answers, _ => work s answers h
  | .put, some snapshots => put snapshots h
  | .submit rows, none => submit rows h
  | .drain, none => drain h
  | .stop, none => setStop h
  | _, _ => h

abbrev Steps (h h' : Handshake) : Prop := ∃ e, step s h e = h'

def held (h : Handshake) : List ReconciliationUpdate :=
  match h.worker with
  | .fetched update | .answering update => [update]
  | _ => []

def working (h : Handshake) : List (List TrackedOrderSnapshot) :=
  match h.worker with
  | .fetching snapshots => [snapshots]
  | _ => []

def outstanding (h : Handshake) : List (List TrackedOrderSnapshot) :=
  h.working ++ h.requests.buffer ++ h.submitting.toList

def reporting (h : Handshake) : Bool :=
  match h.worker with
  | .fetched _ => true
  | _ => false

/-- What holds between the loop and the worker at any time. -/
structure InStep (h : Handshake) : Prop where
  full : h.full = false
  submitted : h.submitted = h.rounds.map Round.snapshots ++ h.outstanding
  answered : h.rounds.map (fun round => s.fetch round.answers round.snapshots) =
    h.drained ++ h.updates ++ h.held
  one : h.outstanding.length + h.reporting.toNat = h.busy.toNat
  ended : h.worker = .ended → h.stop = true

variable {s}

theorem inStep_init : InStep s init := ⟨rfl, rfl, rfl, rfl, fun h => nomatch h⟩

theorem InStep.work {h : Handshake} (hh : InStep s h) (answers : RoundAnswers) :
    InStep s (work s answers h) := by
  obtain ⟨hfull, hsubmitted, hanswered, hone, hended⟩ := hh
  unfold outstanding working at hsubmitted hone
  unfold held at hanswered
  unfold reporting at hone
  unfold Handshake.work
  cases hworker : h.worker with
  | checking =>
    rw [hworker] at hsubmitted hanswered hone
    cases hstop : h.stop with
    | false => exact ⟨hfull, hsubmitted, hanswered, hone, fun h => nomatch h⟩
    | true => exact ⟨hfull, hsubmitted, hanswered, hone, fun _ => rfl⟩
  | waiting =>
    rw [hworker] at hsubmitted hanswered hone
    cases hreceive : h.requests.receive with
    | none => exact ⟨hfull, hsubmitted, hanswered, hone, fun h => nomatch h⟩
    | some taken =>
      obtain ⟨snapshots, requests⟩ := taken
      rw [Channel.receive_some hreceive] at hsubmitted hone
      exact ⟨hfull, hsubmitted, hanswered, hone, fun h => nomatch h⟩
  | fetching snapshots =>
    rw [hworker] at hsubmitted hanswered hone
    refine ⟨hfull, ?_, ?_, ?_, fun h => nomatch h⟩
    · simp [outstanding, working, hsubmitted]
    · simp [held, hanswered]
    · simp only [outstanding, working, reporting, List.length_append, List.length_nil,
        List.length_cons, Bool.toNat_true, Bool.toNat_false] at hone ⊢
      omega
  | fetched update =>
    rw [hworker] at hsubmitted hanswered hone
    refine ⟨hfull, hsubmitted, hanswered, ?_, fun h => nomatch h⟩
    have hbusy := Bool.toNat_le h.busy
    simp only [outstanding, working, reporting, List.length_append, List.length_nil,
      Bool.toNat_true, Bool.toNat_false] at hone ⊢
    omega
  | answering update =>
    rw [hworker] at hsubmitted hanswered hone
    refine ⟨hfull, hsubmitted, ?_, hone, fun h => nomatch h⟩
    simp [held, hanswered]
  | ended =>
    exact ⟨hfull, by simpa [outstanding, working, hworker] using hsubmitted,
      by simpa [held, hworker] using hanswered,
      by simpa [outstanding, working, reporting, hworker] using hone, hended⟩

theorem InStep.submit {h : Handshake} (hh : InStep s h) (hnone : h.submitting = none)
    (rows : List (OrderRow × MarketRow)) : InStep s (submit rows h) := by
  unfold Handshake.submit
  cases hbusy : h.busy with
  | true => exact hh
  | false =>
    obtain ⟨hfull, hsubmitted, hanswered, hone, hended⟩ := hh
    unfold outstanding at hsubmitted hone
    rw [hnone] at hsubmitted hone
    rw [hbusy] at hone
    simp only [List.length_append, Option.toList_none, List.length_nil, Bool.toNat_false] at hone
    refine ⟨hfull, ?_, hanswered, ?_, hended⟩
    · simp [outstanding, working, hsubmitted]
    · simp only [outstanding, working, reporting, List.length_append, Option.toList_some,
        List.length_singleton, Bool.toNat_true, Bool.false_eq_true, if_false] at hone ⊢
      omega

/-- The batch being submitted is the one that is outstanding, so there is room
for it. -/
theorem InStep.put {h : Handshake} (hh : InStep s h) {snapshots : List TrackedOrderSnapshot}
    (hsubmitting : h.submitting = some snapshots) : InStep s (put snapshots h) := by
  obtain ⟨hfull, hsubmitted, hanswered, hone, hended⟩ := hh
  unfold outstanding at hsubmitted hone
  rw [hsubmitting] at hsubmitted hone
  have hroom : h.requests.Room 1 := by
    have hbusy := Bool.toNat_le h.busy
    simp only [List.length_append, Option.toList_some, List.length_singleton] at hone
    unfold Channel.Room
    omega
  obtain ⟨requests, hsend, -⟩ := hroom.send snapshots
  unfold Handshake.put
  rw [hsend]
  refine ⟨hfull, ?_, hanswered, ?_, hended⟩
  · simpa [outstanding, working, Channel.send_some hsend] using hsubmitted
  · simpa [outstanding, working, reporting, Channel.send_some hsend] using hone

theorem InStep.drain {h : Handshake} (hh : InStep s h) : InStep s (drain h) := by
  obtain ⟨hfull, hsubmitted, hanswered, hone, hended⟩ := hh
  refine ⟨hfull, hsubmitted, ?_, hone, hended⟩
  simpa [Handshake.drain, held] using hanswered

theorem InStep.setStop {h : Handshake} (hh : InStep s h) : InStep s (setStop h) :=
  ⟨hh.full, hh.submitted, hh.answered, hh.one, fun _ => rfl⟩

theorem InStep.step {h : Handshake} (hh : InStep s h) (e : HandshakeStep) :
    InStep s (step s h e) := by
  cases hsubmitting : h.submitting with
  | none =>
    cases e with
    | work answers => simpa only [Handshake.step] using hh.work answers
    | put => simpa only [Handshake.step, hsubmitting] using hh
    | submit rows => simpa only [Handshake.step, hsubmitting] using hh.submit hsubmitting rows
    | drain => simpa only [Handshake.step, hsubmitting] using hh.drain
    | stop => simpa only [Handshake.step, hsubmitting] using hh.setStop
  | some snapshots =>
    cases e with
    | work answers => simpa only [Handshake.step] using hh.work answers
    | put => simpa only [Handshake.step, hsubmitting] using hh.put hsubmitting
    | submit rows => simpa only [Handshake.step, hsubmitting] using hh
    | drain => simpa only [Handshake.step, hsubmitting] using hh
    | stop => simpa only [Handshake.step, hsubmitting] using hh

theorem inStep_run {h : Handshake} (hrun : Run (Steps s) init h) : InStep s h := by
  refine run_preserves (InStep s) (fun u v huv hu => ?_) hrun inStep_init
  obtain ⟨e, rfl⟩ := huv
  exact hu.step e

/-- Every batch that was taken came back. -/
structure Settled (h : Handshake) : Prop where
  outstanding : h.outstanding = []
  held : h.held = []

variable (s) in
def Settles (answers : RoundAnswers) (n : ℕ) (h : Handshake) : Prop :=
  ∃ m ≤ n, ((work s answers)^[m] h).Settled

theorem settles_step {answers : RoundAnswers} {n : ℕ} {h : Handshake}
    (hnext : Settles s answers n (work s answers h)) : Settles s answers (n + 1) h := by
  obtain ⟨m, hm, hsettled⟩ := hnext
  exact ⟨m + 1, by omega, hsettled⟩

section Alone

variable {answers : RoundAnswers} {h : Handshake} (hsubmitting : h.submitting = none)

include hsubmitting

theorem settles_idle (hbuffer : h.requests.buffer = [])
    (hworker : h.worker = .checking ∨ h.worker = .waiting) : Settles s answers 0 h := by
  refine ⟨0, le_rfl, ?_, ?_⟩
  · rcases hworker with hworker | hworker <;> simp [outstanding, working, hworker, hbuffer, hsubmitting]
  · rcases hworker with hworker | hworker <;> simp [held, hworker]

theorem settles_answering (update : ReconciliationUpdate) (hbuffer : h.requests.buffer = [])
    (hworker : h.worker = .answering update) : Settles s answers 1 h := by
  refine settles_step (settles_idle (h := work s answers h) ?_ ?_ ?_) <;> simp [work, hworker, hsubmitting, hbuffer]

theorem settles_fetched (update : ReconciliationUpdate) (hbuffer : h.requests.buffer = [])
    (hworker : h.worker = .fetched update) : Settles s answers 2 h := by
  refine settles_step (settles_answering (h := work s answers h) ?_ update ?_ ?_) <;>
    simp [work, hworker, hsubmitting, hbuffer]

theorem settles_fetching (snapshots : List TrackedOrderSnapshot) (hbuffer : h.requests.buffer = [])
    (hworker : h.worker = .fetching snapshots) : Settles s answers 3 h := by
  refine settles_step (settles_fetched (h := work s answers h) ?_
    (s.fetch answers snapshots) ?_ ?_) <;> simp [work, hworker, hsubmitting, hbuffer]

theorem settles_waiting (hlength : h.requests.buffer.length ≤ 1) (hworker : h.worker = .waiting) :
    Settles s answers 4 h := by
  cases hreceive : h.requests.receive with
  | none =>
    obtain ⟨m, hm, hsettled⟩ := settles_idle (s := s) hsubmitting
      (Channel.receive_none_iff.mp hreceive) (.inr hworker)
    exact ⟨m, by omega, hsettled⟩
  | some taken =>
    obtain ⟨snapshots, requests⟩ := taken
    have hrest : requests.buffer = [] := by
      rw [Channel.receive_some hreceive, List.length_cons] at hlength
      exact List.length_eq_zero_iff.mp (by omega)
    refine settles_step (settles_fetching (h := work s answers h) ?_ snapshots ?_ ?_) <;>
      simp [work, hworker, hreceive, hsubmitting, hrest]

theorem settles_checking (hstop : h.stop = false) (hworker : h.worker = .checking) :
    Settles s answers 5 h := by
  refine settles_step (settles_waiting (h := work s answers h) ?_ ?_ ?_)
  · simp [work, hworker, hsubmitting]
  · simpa [work, hworker] using h.requests.bounded
  · simp [work, hworker, hstop]

end Alone

theorem Settles.mono {answers : RoundAnswers} {m n : ℕ} {h : Handshake} (hh : Settles s answers m h)
    (hle : m ≤ n) : Settles s answers n h := by
  obtain ⟨k, hk, hsettled⟩ := hh
  exact ⟨k, hk.trans hle, hsettled⟩

/-- Until a stop, six steps of the worker bring back what was taken. -/
theorem InStep.settles {h : Handshake} (hh : InStep s h) (hsubmitting : h.submitting = none)
    (hstop : h.stop = false) (answers : RoundAnswers) : Settles s answers 6 h := by
  have hone := hh.one
  have hbusy := Bool.toNat_le h.busy
  have hbounded := h.requests.bounded
  unfold outstanding working reporting at hone
  cases hworker : h.worker with
  | checking => exact (settles_checking hsubmitting hstop hworker).mono (by omega)
  | waiting => exact (settles_waiting hsubmitting hbounded hworker).mono (by omega)
  | fetching snapshots =>
    have hbuffer : h.requests.buffer = [] := by
      simp only [hworker, hsubmitting, List.length_append, List.length_singleton] at hone
      exact List.length_eq_zero_iff.mp (by omega)
    exact (settles_fetching hsubmitting snapshots hbuffer hworker).mono (by omega)
  | fetched update =>
    have hbuffer : h.requests.buffer = [] := by
      simp only [hworker, hsubmitting, List.length_append, Bool.toNat_true] at hone
      exact List.length_eq_zero_iff.mp (by omega)
    exact (settles_fetched hsubmitting update hbuffer hworker).mono (by omega)
  | answering update =>
    refine settles_step (settles_checking (h := Handshake.work s answers h) ?_ ?_ ?_) <;>
      simp [Handshake.work, hworker, hsubmitting, hstop]
  | ended =>
    have hended := hh.ended hworker
    rw [hstop] at hended
    cases hended

/-- Over every interleaving of the loop and the worker the queue between them is
never found full; the batches taken are, in turn, those a round was made of and
at most one more, and a batch is refused only while one is out; what the loop
drained is, in turn, what the rounds found, but for what is still on the way
back; and until a stop six steps of the worker bring everything back. -/
theorem rounds_in_turn {h : Handshake} (hrun : Run (Steps s) init h) :
    h.full = false ∧
      (h.submitted = h.rounds.map Round.snapshots ++ h.outstanding ∧ h.outstanding.length ≤ 1) ∧
      (h.rounds.map (fun round => s.fetch round.answers round.snapshots) =
        h.drained ++ h.updates ++ h.held ∧ h.held.length ≤ 1) ∧
      (h.busy = true ↔ h.outstanding ≠ [] ∨ h.reporting = true) ∧
      (h.submitting = none → h.stop = false → ∀ answers, Settles s answers 6 h) := by
  have hh := inStep_run hrun
  have hone := hh.one
  have hbusy := Bool.toNat_le h.busy
  refine ⟨hh.full, ⟨hh.submitted, by omega⟩, ⟨hh.answered, ?_⟩, ?_, hh.settles⟩
  · unfold held
    split <;> simp
  · rw [← List.length_pos_iff]
    cases hreporting : h.reporting <;> cases hb : h.busy <;>
      simp only [hb, hreporting, Bool.toNat_true, Bool.toNat_false] at hone <;>
      simp only [reduceCtorEq, or_true, or_false, true_iff, false_iff, not_lt] <;> omega

def takenEarly (answers : RoundAnswers) : List HandshakeStep :=
  [.submit [], .put, .work answers, .work answers, .work answers, .work answers, .submit []]

theorem rounds_in_turn_example :
    ∃ h, h = (takenEarly (oneOrderRound (.ok [])).answers).foldl (step pairService) init ∧
      h.held ≠ [] ∧ h.outstanding ≠ [] ∧ h.full = false ∧
      h.rounds.map (fun round => pairService.fetch round.answers round.snapshots) =
        h.drained ++ h.updates ++ h.held := by
  refine ⟨_, rfl, List.cons_ne_nil _ _, List.cons_ne_nil _ _, ?_⟩
  have hrun : Run (Steps pairService) init
      ((takenEarly (oneOrderRound (.ok [])).answers).foldl (step pairService) init) :=
    run_of_events init (takenEarly (oneOrderRound (.ok [])).answers)
  have hturn := rounds_in_turn hrun
  exact ⟨hturn.1, hturn.2.2.1.1⟩

end Handshake

end EventQuant
