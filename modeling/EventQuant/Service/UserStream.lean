import EventQuant.Library.Runs
import EventQuant.FleetChoice
import EventQuant.Service.Health

/-!
The user streams' own threads. Each follows one account's socket: it calls the
stream healthy once every look over the stabilization time found the socket
open, queues each push for the service in the order they came, and keeps when
the venue first said an order was placed, readable before the push is drained.
The fleet reads these times over all streams.
-/
namespace EventQuant

open Runs

structure UserOrderEvent where
  payload : UserOrderPayload
  timestampMs : Option ℤ
  deriving DecidableEq, Repr

/-- A push of the user socket. -/
inductive UserEvent
  | order (event : UserOrderEvent)
  | trade (status takerOrderId : String) (makerOrderIds : List String)
  | other
  deriving DecidableEq, Repr

/-- `_normalize_trade`. -/
def normalizeTrade (status takerOrderId : String) (makerOrderIds : List String) : StreamUpdate :=
  .trade status (takerOrderId :: makerOrderIds).eraseDups

def UserEvent.update : UserEvent → Option StreamUpdate
  | .order event => some (.order event.payload.normalize)
  | .trade status takerOrderId makerOrderIds => some (normalizeTrade status takerOrderId makerOrderIds)
  | .other => none

def UserOrderEvent.stamp (event : UserOrderEvent) (orderId : String) : Option ℤ :=
  if event.payload.normalize.eventType = "PLACEMENT" ∧ event.payload.normalize.orderId = orderId then
    event.timestampMs
  else none

def UserEvent.stamp (orderId : String) : UserEvent → Option ℤ
  | .order event => event.stamp orderId
  | _ => none

/-- Where `_run` is: subscribing, before the loop's check for a stop or its look
at the socket, waiting for a push, with one to stamp or to put, in the `finally`
or at its close, and past it; the last three with whether something was raised. -/
inductive StreamStage
  | subscribing
  | looping
  | looking
  | waiting
  | stamping (event : UserOrderEvent)
  | putting (update : StreamUpdate)
  | leaving (raised : Bool)
  | closing (raised : Bool)
  | ended
  deriving DecidableEq, Repr

/-- The worker; a look's two readings of the clock come with it. What was looked
at, was pushed and was drained is kept beside it. -/
structure UserStream where
  stop : Bool
  health : UserStreamWorker
  connectedSince : Option ℚ
  registeredAt : String → Option ℤ
  stage : StreamStage
  clock : ℚ
  looks : List (ℚ × Bool)
  events : List UserEvent
  drained : List StreamUpdate

/-- A step of the thread, or one of the service on it. -/
inductive StreamStep
  | go
  | look (isOpen : Bool) (now later : ℚ)
  | push (event : UserEvent)
  | raise
  | drain
  | stop

namespace UserStream

def init (clock : ℚ) : UserStream where
  stop := false
  health := .init
  connectedSince := none
  registeredAt := fun _ => none
  stage := .subscribing
  clock := clock
  looks := []
  events := []
  drained := []

/-- `put` on the queue the service drains. -/
def put (update : StreamUpdate) (w : UserStream) : UserStream :=
  { w with health := { w.health with updates := w.health.updates ++ [update] } }

def setHealth (healthy : Bool) (w : UserStream) : UserStream :=
  { w with health := w.health.setHealth healthy }

def register (event : UserOrderEvent) (w : UserStream) : UserStream :=
  { w with registeredAt := fun orderId => (w.registeredAt orderId).or (event.stamp orderId) }

variable (stabilizationSeconds : ℚ)

def look (isOpen : Bool) (now later : ℚ) (w : UserStream) : UserStream :=
  let w := { w with
    stage := .waiting
    clock := later
    looks := w.looks ++ [(now, isOpen)] }
  if isOpen then
    let since := w.connectedSince.getD now
    let w := { w with connectedSince := some since }
    if stabilizationSeconds ≤ later - since then w.setHealth true else w
  else { w with connectedSince := none }.setHealth false

def push (event : UserEvent) (w : UserStream) : UserStream :=
  match event with
  | .order event => { w with stage := .stamping event }
  | .trade status takerOrderId makerOrderIds =>
    { w with
      stage := .putting (normalizeTrade status takerOrderId makerOrderIds)
      events := w.events ++ [event] }
  | .other => { w with stage := .looping, events := w.events ++ [event] }

def go (w : UserStream) : UserStream :=
  match w.stage with
  | .subscribing => { w with stage := .looping }
  | .looping => { w with stage := if w.stop then .leaving false else .looking }
  | .waiting => { w with stage := .looping }
  | .stamping event =>
    { w.register event with
      stage := .putting (.order event.payload.normalize)
      events := w.events ++ [.order event] }
  | .putting update => { w.put update with stage := .looping }
  | .leaving raised =>
    if w.stop then { w with health := w.health.stopped, stage := .closing raised }
    else { w.setHealth false with stage := .closing raised }
  | .closing raised => { (if raised then w.setHealth false else w) with stage := .ended }
  | .looking | .ended => w

def raise (w : UserStream) : UserStream :=
  match w.stage with
  | .subscribing | .looking | .waiting | .stamping _ => { w with stage := .leaving true }
  | .closing _ => { w with stage := .closing true }
  | _ => w

def drain (w : UserStream) : UserStream :=
  { w with
    health := { w.health with updates := [] }
    drained := w.drained ++ w.health.updates }

/-- The monotonic clock never goes back, and a step that is not the stage's own
changes nothing. -/
def step (w : UserStream) : StreamStep → UserStream
  | .go => w.go
  | .look isOpen now later =>
    if w.stage = .looking ∧ w.clock ≤ now ∧ now ≤ later then w.look stabilizationSeconds isOpen now later
    else w
  | .push event => if w.stage = .waiting then w.push event else w
  | .raise => w.raise
  | .drain => w.drain
  | .stop => { w with stop := true }

/-! ### What a worker reports -/

def stateOf : StreamUpdate → Option (Bool × Bool)
  | .state healthy recovered => some (healthy, recovered)
  | _ => none

def pushOf : StreamUpdate → Option StreamUpdate
  | .state _ _ => none
  | update => some update

def updates (w : UserStream) : List StreamUpdate := w.drained ++ w.health.updates

def states (w : UserStream) : List (Bool × Bool) := w.updates.filterMap stateOf

def inHand (w : UserStream) : List StreamUpdate :=
  match w.stage with
  | .putting update => [update]
  | _ => []

/-- A later report says the contrary, and a return to health is a recovery. -/
def Follows (s t : Bool × Bool) : Prop := t.1 = !s.1 ∧ t.2 = t.1

/-- Each look since then found the socket open, the one before it did not. -/
def OpenSince (looks : List (ℚ × Bool)) (since : ℚ) : Prop :=
  ∃ before after, looks = before ++ (since, true) :: after ∧ (∀ l ∈ before.getLast?, l.2 = false) ∧
    ∀ l ∈ after, l.2 = true

def InLoop : StreamStage → Prop
  | .closing _ | .ended => False
  | _ => True

/-- The reports and the flag. -/
structure Told (w : UserStream) : Prop where
  chain : w.states.IsChain Follows
  first : ∀ s ∈ w.states.head?, s.2 = false
  unheard : w.health.attempted = false → w.states = [] ∧ w.health.healthy = false

def Current (w : UserStream) : Prop :=
  w.health.attempted = true → w.states.getLast?.map Prod.fst = some w.health.healthy

variable {stabilizationSeconds} {w : UserStream}

theorem states_setHealth (w : UserStream) (healthy : Bool) : (w.setHealth healthy).states = w.states ++
    if !w.health.attempted || w.health.healthy != healthy then
      [(healthy, healthy && w.health.attempted && !w.health.healthy)] else [] := by
  unfold states updates UserStream.setHealth UserStreamWorker.setHealth
  simp only
  split
  · simp [stateOf]
  · simp

theorem Told.setHealth (h : w.Told) (hcurrent : w.Current) (healthy : Bool) :
    (w.setHealth healthy).Told ∧ (w.setHealth healthy).Current := by
  have hstates := states_setHealth w healthy
  have hhealthy : (w.setHealth healthy).health.healthy = healthy := rfl
  cases hattempted : w.health.attempted with
  | false =>
    obtain ⟨hnone, -⟩ := h.unheard hattempted
    rw [hattempted, hnone] at hstates
    simp only [Bool.not_false, Bool.true_or, if_true, Bool.and_false, Bool.false_and,
      List.nil_append] at hstates
    refine ⟨⟨?_, ?_, fun hno => absurd hno (by simp [UserStream.setHealth, UserStreamWorker.setHealth])⟩, ?_⟩
    · rw [hstates]
      exact .singleton _
    · simp [hstates]
    · intro _
      simp [hstates, hhealthy]
  | true =>
    have hlast := hcurrent hattempted
    rw [hattempted] at hstates
    simp only [Bool.not_true, Bool.false_or, Bool.and_true] at hstates
    by_cases hsame : w.health.healthy = healthy
    · rw [hsame] at hstates
      simp only [bne_self_eq_false, Bool.false_eq_true, if_false, List.append_nil] at hstates
      refine ⟨⟨hstates ▸ h.chain, hstates ▸ h.first, fun hno => ?_⟩, fun _ => ?_⟩
      · cases hno
      · rw [hstates, hlast, hhealthy, hsame]
    · rw [if_pos (by simpa using hsame)] at hstates
      obtain ⟨s, hs, hflag⟩ := Option.map_eq_some_iff.mp hlast
      have hnot : healthy = !w.health.healthy := by
        cases hw : w.health.healthy <;> cases healthy <;> simp_all
      refine ⟨⟨?_, ?_, fun hno => ?_⟩, fun _ => ?_⟩
      · rw [hstates, List.isChain_append]
        refine ⟨h.chain, .singleton _, fun x hx y hy => ?_⟩
        obtain rfl := Option.some.inj (hs.symm.trans hx)
        obtain rfl := Option.some.inj hy
        refine ⟨by rw [hflag]; exact hnot, ?_⟩
        rw [hnot]
        cases w.health.healthy <;> rfl
      · rw [hstates, List.head?_append]
        cases hhead : w.states.head? with
        | none => simp [List.head?_eq_none_iff.mp hhead] at hs
        | some s => exact fun s' hs' => h.first s' (by rw [hhead]; exact hs')
      · cases hno
      · rw [hstates, List.getLast?_concat, hhealthy]
        rfl

/-- Past the loop there is nothing to report of a worker that said it was down. -/
theorem Told.setHealth_down (h : w.Told) (hdown : w.health.healthy = false) :
    (w.setHealth false).Told := by
  cases hattempted : w.health.attempted with
  | false =>
    refine (h.setHealth (fun hno => ?_) false).1
    rw [hattempted] at hno
    cases hno
  | true =>
    have hstates := states_setHealth w false
    rw [hattempted, hdown] at hstates
    simp only [Bool.not_true, Bool.false_or, bne_self_eq_false, Bool.false_eq_true, if_false,
      List.append_nil] at hstates
    exact ⟨hstates ▸ h.chain, hstates ▸ h.first, fun hno => nomatch hno⟩

variable (stabilizationSeconds) in
/-- What holds of a worker at any time. -/
structure Kept (w : UserStream) : Prop where
  told : w.Told
  current : InLoop w.stage → w.Current
  down : ¬ InLoop w.stage → w.health.healthy = false
  since : ∀ since, w.connectedSince = some since → OpenSince w.looks since ∧ since ≤ w.clock
  shut : w.connectedSince = none → ∀ l ∈ w.looks.getLast?, l.2 = false
  stable : w.health.healthy = true → ∃ since, w.connectedSince = some since ∧
    stabilizationSeconds ≤ w.clock - since
  putting : ∀ update, w.stage = .putting update → pushOf update = some update
  pushed : w.updates.filterMap pushOf ++ w.inHand = w.events.filterMap UserEvent.update
  stamped : ∀ orderId, w.registeredAt orderId = w.events.findSome? (UserEvent.stamp orderId)

theorem kept_init (clock : ℚ) : (init clock).Kept stabilizationSeconds where
  told := ⟨.nil, fun _ h => (nomatch h), fun _ => ⟨rfl, rfl⟩⟩
  current _ h := nomatch h
  down h := absurd trivial h
  since _ h := nomatch h
  shut _ _ h := nomatch h
  stable h := nomatch h
  putting _ h := nomatch h
  pushed := rfl
  stamped _ := rfl

/-- Health reports are no pushes. -/
theorem pushes_setHealth (w : UserStream) (healthy : Bool) :
    (w.setHealth healthy).updates.filterMap pushOf = w.updates.filterMap pushOf := by
  unfold updates UserStream.setHealth UserStreamWorker.setHealth
  simp only
  split
  · simp [pushOf]
  · rfl

/-- A step that leaves what was put, the socket and the times as they are. -/
theorem Kept.quietly {w' : UserStream} (h : w.Kept stabilizationSeconds) (hhealth : w'.health = w.health)
    (hdrained : w'.drained = w.drained) (hsince : w'.connectedSince = w.connectedSince)
    (hclock : w'.clock = w.clock) (hlooks : w'.looks = w.looks) (hevents : w'.events = w.events)
    (hregistered : w'.registeredAt = w.registeredAt) (hhand : w.inHand = []) (hhand' : w'.inHand = [])
    (hstage : InLoop w.stage ↔ InLoop w'.stage) : w'.Kept stabilizationSeconds := by
  have hupdates : w'.updates = w.updates := by rw [updates, updates, hhealth, hdrained]
  have hstates : w'.states = w.states := by rw [states, states, hupdates]
  refine ⟨⟨hstates ▸ h.told.chain, hstates ▸ h.told.first, ?_⟩, fun hin => ?_, fun hout => ?_, ?_, ?_, ?_,
    fun update hput => ?_, ?_, ?_⟩
  · rw [hhealth, hstates]
    exact h.told.unheard
  · unfold Current
    rw [hhealth, hstates]
    exact h.current (hstage.mpr hin)
  · rw [hhealth]
    exact h.down (fun hin => hout (hstage.mp hin))
  · rw [hsince, hlooks, hclock]
    exact h.since
  · rw [hsince, hlooks]
    exact h.shut
  · rw [hhealth, hsince, hclock]
    exact h.stable
  · unfold inHand at hhand'
    rw [hput] at hhand'
    cases hhand'
  · rw [hupdates, hhand', hevents, ← hhand]
    exact h.pushed
  · rw [hregistered, hevents]
    exact h.stamped

theorem Kept.look (h : w.Kept stabilizationSeconds) (hlooking : w.stage = .looking) (isOpen : Bool)
    {now later : ℚ} (hnow : w.clock ≤ now) (hlater : now ≤ later) :
    (w.look stabilizationSeconds isOpen now later).Kept stabilizationSeconds := by
  have hpushed := h.pushed
  have hcurrent := h.current (by rw [hlooking]; trivial)
  unfold inHand at hpushed
  rw [hlooking] at hpushed
  unfold UserStream.look
  cases isOpen with
  | false =>
    simp only [Bool.false_eq_true, if_false]
    obtain ⟨htold, hcurrent⟩ := Told.setHealth (w := { w with
      stage := .waiting
      clock := later
      looks := w.looks ++ [(now, false)]
      connectedSince := none }) ⟨h.told.chain, h.told.first, h.told.unheard⟩ hcurrent false
    refine ⟨htold, fun _ => hcurrent, fun hout => absurd trivial hout, fun _ hsome => (nomatch hsome),
      fun _ l hl => ?_, fun hhealthy => (nomatch hhealthy), fun _ hput => (nomatch hput), ?_, h.stamped⟩
    · rw [UserStream.setHealth, List.getLast?_concat] at hl
      rw [← Option.some.inj hl]
    · rw [pushes_setHealth]
      exact hpushed
  | true =>
    simp only [if_true]
    have hopen : OpenSince (w.looks ++ [(now, true)]) (w.connectedSince.getD now) ∧
        w.connectedSince.getD now ≤ later := by
      cases hconnected : w.connectedSince with
      | none => exact ⟨⟨w.looks, [], rfl, h.shut hconnected, fun _ hl => (nomatch hl)⟩, hlater⟩
      | some since =>
        obtain ⟨⟨before, after, hlooks, hbefore, hafter⟩, hclock⟩ := h.since since hconnected
        refine ⟨⟨before, after ++ [(now, true)], ?_, hbefore, fun l hl => ?_⟩, ?_⟩
        · rw [hlooks, List.append_assoc]
          rfl
        · rcases List.mem_append.mp hl with hl | hl
          · exact hafter l hl
          · rw [List.mem_singleton.mp hl]
        · exact (hclock.trans hnow).trans hlater
    split_ifs with hstable
    · obtain ⟨htold, hcurrent⟩ := Told.setHealth (w := { w with
        stage := .waiting
        clock := later
        looks := w.looks ++ [(now, true)]
        connectedSince := some (w.connectedSince.getD now) })
        ⟨h.told.chain, h.told.first, h.told.unheard⟩ hcurrent true
      refine ⟨htold, fun _ => hcurrent, fun hout => absurd trivial hout, fun since hsome => ?_,
        fun hnone => (nomatch hnone), fun _ => ⟨_, rfl, hstable⟩, fun _ hput => (nomatch hput), ?_, h.stamped⟩
      · obtain rfl := Option.some.inj hsome
        exact hopen
      · rw [pushes_setHealth]
        exact hpushed
    · refine ⟨⟨h.told.chain, h.told.first, h.told.unheard⟩, fun _ => hcurrent, fun hout => absurd trivial hout,
        fun since hsome => ?_, fun hnone => (nomatch hnone), fun hhealthy => ?_, fun _ hput => (nomatch hput),
        hpushed, h.stamped⟩
      · obtain rfl := Option.some.inj hsome
        exact hopen
      · obtain ⟨since, hsince, hlong⟩ := h.stable hhealthy
        refine ⟨since, by rw [hsince]; rfl, ?_⟩
        simp only
        linarith

theorem Kept.push (h : w.Kept stabilizationSeconds) (hwaiting : w.stage = .waiting) (event : UserEvent) :
    (w.push event).Kept stabilizationSeconds := by
  have hpushed := h.pushed
  have hcurrent := h.current (by rw [hwaiting]; trivial)
  unfold inHand at hpushed
  rw [hwaiting, List.append_nil] at hpushed
  cases event with
  | order event =>
    exact h.quietly rfl rfl rfl rfl rfl rfl rfl (by rw [inHand, hwaiting]) rfl
      (by rw [hwaiting]; exact .rfl)
  | trade status takerOrderId makerOrderIds =>
    refine ⟨⟨h.told.chain, h.told.first, h.told.unheard⟩, fun _ => hcurrent, fun hout => absurd trivial hout,
      h.since, h.shut, h.stable, fun update hput => ?_, ?_, fun orderId => ?_⟩
    · obtain rfl := StreamStage.putting.inj hput
      rfl
    · simp only [UserStream.push, List.filterMap_append]
      exact congrArg (· ++ [normalizeTrade status takerOrderId makerOrderIds]) hpushed
    · simp only [UserStream.push, List.findSome?_append, h.stamped orderId]
      simp [UserEvent.stamp]
  | other =>
    refine ⟨⟨h.told.chain, h.told.first, h.told.unheard⟩, fun _ => hcurrent, fun hout => absurd trivial hout,
      h.since, h.shut, h.stable, fun update hput => (nomatch hput), ?_, fun orderId => ?_⟩
    · change w.updates.filterMap pushOf ++ [] = (w.events ++ [UserEvent.other]).filterMap UserEvent.update
      simp [hpushed, UserEvent.update]
    · simp only [UserStream.push, List.findSome?_append, h.stamped orderId]
      simp [UserEvent.stamp]

/-- Only a stop or a report takes the flag down on the way out. -/
theorem Kept.out (h : w.Kept stabilizationSeconds) (hhand : w.inHand = []) {health : UserStreamWorker}
    {stage : StreamStage} (hstage : ¬ InLoop stage) (hnot : ∀ update, stage ≠ .putting update)
    (hhealth : ({ w with health := health } : UserStream).Told) (hdown : health.healthy = false)
    (hupdates : health.updates.filterMap pushOf = w.health.updates.filterMap pushOf) :
    Kept stabilizationSeconds { w with health := health, stage := stage } := by
  refine ⟨⟨hhealth.chain, hhealth.first, hhealth.unheard⟩, fun hin => absurd hin hstage, fun _ => hdown,
    h.since, h.shut, fun hup => ?_, fun update hput => absurd hput (hnot update), ?_, h.stamped⟩
  · rw [hdown] at hup
    cases hup
  · have hout : UserStream.inHand { w with health := health, stage := stage } = [] := by
      unfold inHand
      cases stage with
      | putting update => exact absurd rfl (hnot update)
      | _ => rfl
    rw [hout, ← h.pushed, hhand]
    simp only [updates, List.filterMap_append, hupdates]

theorem Kept.go (h : w.Kept stabilizationSeconds) : w.go.Kept stabilizationSeconds := by
  have hpushed := h.pushed
  unfold UserStream.go
  cases hstage : w.stage with
  | subscribing =>
    exact h.quietly rfl rfl rfl rfl rfl rfl rfl (by rw [inHand, hstage]) rfl (by rw [hstage]; exact .rfl)
  | looping =>
    simp only
    split_ifs
    · exact h.quietly rfl rfl rfl rfl rfl rfl rfl (by rw [inHand, hstage]) rfl (by rw [hstage]; exact .rfl)
    · exact h.quietly rfl rfl rfl rfl rfl rfl rfl (by rw [inHand, hstage]) rfl (by rw [hstage]; exact .rfl)
  | waiting =>
    exact h.quietly rfl rfl rfl rfl rfl rfl rfl (by rw [inHand, hstage]) rfl (by rw [hstage]; exact .rfl)
  | stamping event =>
    have hcurrent := h.current (by rw [hstage]; trivial)
    unfold inHand at hpushed
    rw [hstage, List.append_nil] at hpushed
    refine ⟨⟨h.told.chain, h.told.first, h.told.unheard⟩, fun _ => hcurrent, fun hout => absurd trivial hout,
      h.since, h.shut, h.stable, fun update hput => ?_, ?_, fun orderId => ?_⟩
    · obtain rfl := StreamStage.putting.inj hput
      rfl
    · simp only [List.filterMap_append]
      exact congrArg (· ++ [.order event.payload.normalize]) hpushed
    · simp only [register, List.findSome?_append, h.stamped orderId]
      cases hstamp : event.stamp orderId <;> simp [UserEvent.stamp, hstamp]
  | putting update =>
    have hcurrent := h.current (by rw [hstage]; trivial)
    have hpush := h.putting update hstage
    have hnone : stateOf update = none := by
      cases update with
      | state => cases hpush
      | trade => rfl
      | order => rfl
    have hstates : UserStream.states { w.put update with stage := .looping } = w.states := by
      simp only [states, updates, put, ← List.append_assoc, List.filterMap_append]
      simp [hnone]
    unfold inHand at hpushed
    rw [hstage] at hpushed
    refine ⟨⟨hstates ▸ h.told.chain, hstates ▸ h.told.first, fun hno => ?_⟩, fun _ hyes => ?_,
      fun hout => absurd trivial hout, h.since, h.shut, h.stable, fun update hput => (nomatch hput), ?_,
      h.stamped⟩
    · rw [hstates]
      exact h.told.unheard hno
    · rw [hstates]
      exact hcurrent hyes
    · change (w.put update).updates.filterMap pushOf ++ [] = w.events.filterMap UserEvent.update
      rw [← hpushed]
      simp only [updates, put, ← List.append_assoc, List.filterMap_append]
      simp [hpush]
  | leaving raised =>
    have hcurrent := h.current (by rw [hstage]; trivial)
    simp only
    split_ifs
    · refine h.out (by rw [inHand, hstage]) (fun hin => hin) (fun _ hput => nomatch hput) ?_ rfl rfl
      exact ⟨h.told.chain, h.told.first, fun hno => ⟨(h.told.unheard hno).1, rfl⟩⟩
    · refine h.out (by rw [inHand, hstage]) (fun hin => hin) (fun _ hput => nomatch hput)
        (h.told.setHealth hcurrent false).1 rfl ?_
      have hsame := pushes_setHealth w false
      simpa [updates, UserStream.setHealth] using hsame
  | closing raised =>
    have hdown := h.down (by rw [hstage]; exact fun hin => hin)
    cases raised with
    | false =>
      exact h.out (by rw [inHand, hstage]) (fun hin => hin) (fun _ hput => nomatch hput) h.told hdown rfl
    | true =>
      refine h.out (by rw [inHand, hstage]) (fun hin => hin) (fun _ hput => nomatch hput)
        (h.told.setHealth_down hdown) rfl ?_
      have hsame := pushes_setHealth w false
      simpa [updates, UserStream.setHealth] using hsame
  | looking | ended => exact h

theorem Kept.raise (h : w.Kept stabilizationSeconds) : w.raise.Kept stabilizationSeconds := by
  unfold UserStream.raise
  cases hstage : w.stage with
  | subscribing | looking | waiting | stamping =>
    exact h.quietly rfl rfl rfl rfl rfl rfl rfl (by rw [inHand, hstage]) rfl (by rw [hstage]; exact .rfl)
  | closing raised =>
    exact h.quietly rfl rfl rfl rfl rfl rfl rfl (by rw [inHand, hstage]) rfl (by rw [hstage]; exact .rfl)
  | looping | putting | leaving | ended => exact h

theorem Kept.drain (h : w.Kept stabilizationSeconds) : w.drain.Kept stabilizationSeconds := by
  have hupdates : w.drain.updates = w.updates := by
    unfold updates UserStream.drain
    rw [List.append_nil]
  have hstates : w.drain.states = w.states := by rw [states, states, hupdates]
  refine ⟨⟨hstates ▸ h.told.chain, hstates ▸ h.told.first, ?_⟩, fun hin hyes => ?_, h.down, h.since, h.shut,
    h.stable, h.putting, ?_, h.stamped⟩
  · rw [hstates]
    exact h.told.unheard
  · rw [hstates]
    exact h.current hin hyes
  · rw [hupdates]
    exact h.pushed

theorem Kept.step (h : w.Kept stabilizationSeconds) (e : StreamStep) :
    (w.step stabilizationSeconds e).Kept stabilizationSeconds := by
  cases e with
  | go => exact h.go
  | look isOpen now later =>
    simp only [UserStream.step]
    split_ifs with hlook
    · exact h.look hlook.1 isOpen hlook.2.1 hlook.2.2
    · exact h
  | push event =>
    simp only [UserStream.step]
    split_ifs with hwaiting
    · exact h.push hwaiting event
    · exact h
  | raise => exact h.raise
  | drain => exact h.drain
  | stop => exact ⟨⟨h.told.chain, h.told.first, h.told.unheard⟩, h.current, h.down, h.since, h.shut, h.stable, h.putting, h.pushed, h.stamped⟩

theorem kept_run {clock : ℚ}
    (hrun : Run (fun w v => ∃ e, step stabilizationSeconds w e = v) (init clock) w) :
    w.Kept stabilizationSeconds := by
  refine run_preserves (Kept stabilizationSeconds) ?_ hrun (kept_init clock)
  rintro u v ⟨e, rfl⟩ hu
  exact hu.step e

/-- In every run of a worker with the service: it is healthy only while every
look at the socket over the stabilization time found it open; its reports
contradict one another in turn, a return to health and nothing else is a
recovery, and until its loop is over the last one is what the flag says, from
then on the flag is down; every push is put once and in the order it came; and
an order's time is that of its first timed placement. -/
theorem stream_reports {clock : ℚ}
    (hrun : Run (fun w v => ∃ e, step stabilizationSeconds w e = v) (init clock) w) :
    (w.health.healthy = true →
      ∃ since, OpenSince w.looks since ∧ stabilizationSeconds ≤ w.clock - since) ∧
      (w.states.IsChain Follows ∧ ∀ s ∈ w.states.head?, s.2 = false) ∧
      ((InLoop w.stage → w.states ≠ [] → w.states.getLast?.map Prod.fst = some w.health.healthy) ∧
        (¬ InLoop w.stage → w.health.healthy = false)) ∧
      w.updates.filterMap pushOf ++ w.inHand = w.events.filterMap UserEvent.update ∧
      ∀ orderId, w.registeredAt orderId = w.events.findSome? (UserEvent.stamp orderId) := by
  have h := kept_run hrun
  refine ⟨fun hhealthy => ?_, ⟨h.told.chain, h.told.first⟩, ⟨fun hin hsome => ?_, h.down⟩, h.pushed, h.stamped⟩
  · obtain ⟨since, hsince, hlong⟩ := h.stable hhealthy
    exact ⟨since, (h.since since hsince).1, hlong⟩
  · refine h.current hin ?_
    cases hattempted : w.health.attempted with
    | true => rfl
    | false => exact absurd (h.told.unheard hattempted).1 hsome

def dropped : List StreamStep :=
  [.go, .go, .look true 0 0, .push (.order ⟨⟨"0xa1", "PLACEMENT", "LIVE", 0, 10⟩, some 5⟩), .go, .go, .go,
    .look true 2 2, .go, .go, .look false 3 3, .go, .go, .look true 4 4, .go, .go, .look true 6 6]

theorem stream_reports_example :
    ∃ w, w = dropped.foldl (step 2) (init 0) ∧
      w.states = [(true, false), (false, false), (true, true)] ∧ w.registeredAt "0xa1" = some 5 ∧
      ∃ since, OpenSince w.looks since ∧ 2 ≤ w.clock - since := by
  refine ⟨_, rfl, by decide +kernel, by decide +kernel, ?_⟩
  have hrun : Run (fun w v => ∃ e, step 2 w e = v) (init 0) (dropped.foldl (step 2) (init 0)) :=
    run_of_events _ dropped
  exact (stream_reports hrun).1 (by decide +kernel)

/-- A time once read stays. -/
theorem step_registered {orderId : String} {stamp : ℤ} (e : StreamStep)
    (h : w.registeredAt orderId = some stamp) :
    (w.step stabilizationSeconds e).registeredAt orderId = some stamp := by
  cases e with
  | go =>
    simp only [UserStream.step, UserStream.go]
    split <;> try exact h
    · simp [register, h]
    · split_ifs <;> exact h
    · split_ifs <;> exact h
  | look isOpen now later =>
    simp only [UserStream.step, UserStream.look]
    split_ifs <;> exact h
  | push event =>
    simp only [UserStream.step]
    split_ifs
    · cases event <;> exact h
    · exact h
  | raise =>
    simp only [UserStream.step, UserStream.raise]
    split <;> exact h
  | drain => exact h
  | stop => exact h

/-- The order pushes a worker has are those that came in. -/
theorem step_events {event : UserOrderEvent} (e : StreamStep)
    (h : .order event ∈ (w.step stabilizationSeconds e).events ∨
      (w.step stabilizationSeconds e).stage = .stamping event) :
    (.order event ∈ w.events ∨ w.stage = .stamping event) ∨ e = .push (.order event) := by
  cases e with
  | go =>
    simp only [UserStream.step, UserStream.go] at h
    cases hstage : w.stage with
    | stamping stamped =>
      simp only [hstage, List.mem_append, List.mem_singleton, UserEvent.order.injEq, reduceCtorEq,
        or_false] at h
      rcases h with h | rfl
      · exact .inl (.inl h)
      · exact .inl (.inr rfl)
    | leaving raised =>
      simp only [hstage] at h
      split_ifs at h <;> exact .inl (.inl (h.resolve_right (by simp)))
    | closing raised =>
      simp only [hstage] at h
      split_ifs at h <;> exact .inl (.inl (h.resolve_right (by simp)))
    | looping =>
      simp only [hstage] at h
      split_ifs at h <;> exact .inl (.inl (h.resolve_right (by simp)))
    | subscribing | waiting | putting =>
      simp only [hstage] at h
      exact .inl (.inl (h.resolve_right (by simp)))
    | looking | ended =>
      simp only [hstage, reduceCtorEq, or_false] at h
      exact .inl (.inl h)
  | look isOpen now later =>
    simp only [UserStream.step, UserStream.look, UserStream.setHealth] at h
    split_ifs at h
    · exact .inl (.inl (h.resolve_right (by simp)))
    · exact .inl (.inl (h.resolve_right (by simp)))
    · exact .inl (.inl (h.resolve_right (by simp)))
    · exact .inl h
  | push pushed =>
    simp only [UserStream.step, UserStream.push] at h
    split_ifs at h
    · cases pushed with
      | order pushed =>
        rcases h with h | h
        · exact .inl (.inl h)
        · rw [StreamStage.stamping.inj h]
          exact .inr rfl
      | trade status takerOrderId makerOrderIds => exact .inl (.inl (by simpa using h))
      | other => exact .inl (.inl (by simpa using h))
    · exact .inl h
  | raise =>
    simp only [UserStream.step, UserStream.raise] at h
    split at h
    all_goals first | exact .inl h | exact .inl (.inl (h.resolve_right (by simp)))
  | drain => exact .inl h
  | stop => exact .inl h

end UserStream

/-! ### The fleet's clock -/

/-- The streams of the fleet's accounts and, beside them, the clock as it was at
each of the fleet's reads. -/
structure UserStreams where
  streams : List UserStream
  reads : List (String → Option ℤ)

inductive StreamsStep
  | worker (i : ℕ) (e : StreamStep)
  | read

namespace UserStreams

def init (clock : ℚ) (accounts : ℕ) : UserStreams := ⟨List.replicate accounts (.init clock), []⟩

/-- `registration_clock`: the first stream that has the order's time. -/
def registrationClock (w : UserStreams) (orderId : String) : Option ℤ :=
  w.streams.findSome? fun stream => stream.registeredAt orderId

variable (stabilizationSeconds : ℚ) (owner : String → ℕ)

def step (w : UserStreams) : StreamsStep → UserStreams
  | .worker i e => { w with streams := w.streams.modify i fun stream => stream.step stabilizationSeconds e }
  | .read => { w with reads := w.reads ++ [w.registrationClock] }

/-- The venue pushes an order's events to its own account only. -/
def Own (_ : UserStreams) (e : StreamsStep) : Prop :=
  ∀ i event, e = .worker i (.push (.order event)) → owner event.payload.id = i

/-- What holds of the streams and the reads so far at any time. -/
structure Kept (w : UserStreams) : Prop where
  streams : ∀ stream ∈ w.streams, stream.Kept stabilizationSeconds
  own : ∀ i stream, w.streams[i]? = some stream → ∀ event,
    .order event ∈ stream.events ∨ stream.stage = .stamping event → owner event.payload.id = i
  gains : Fleet.Gains w.reads
  current : ∀ clock ∈ w.reads, ∀ orderId stamp, clock orderId = some stamp →
    w.registrationClock orderId = some stamp

variable {stabilizationSeconds owner} {w : UserStreams}

/-- The clock is that of the order's own account. -/
theorem Kept.clock_iff (h : w.Kept stabilizationSeconds owner) (orderId : String) (stamp : ℤ) :
    w.registrationClock orderId = some stamp ↔
      ∃ stream, w.streams[owner orderId]? = some stream ∧ stream.registeredAt orderId = some stamp := by
  have howner : ∀ i stream found, w.streams[i]? = some stream → stream.registeredAt orderId = some found →
      owner orderId = i := by
    intro i stream found hstream hfound
    rw [(h.streams stream (List.mem_of_getElem? hstream)).stamped orderId] at hfound
    obtain ⟨event, hevent, hstamp⟩ := List.exists_of_findSome?_eq_some hfound
    cases event with
    | order event =>
      simp only [UserEvent.stamp, UserOrderEvent.stamp] at hstamp
      split_ifs at hstamp with hid
      exact hid.2 ▸ h.own i stream hstream event (.inl hevent)
    | trade => cases hstamp
    | other => cases hstamp
  constructor
  · intro hclock
    obtain ⟨stream, hmem, hfound⟩ := List.exists_of_findSome?_eq_some hclock
    obtain ⟨i, hstream⟩ := List.mem_iff_getElem?.mp hmem
    exact ⟨stream, howner i stream stamp hstream hfound ▸ hstream, hfound⟩
  · rintro ⟨stream, hstream, hfound⟩
    cases hclock : w.registrationClock orderId with
    | none =>
      have hnone := List.findSome?_eq_none_iff.mp hclock stream (List.mem_of_getElem? hstream)
      rw [hnone] at hfound
      cases hfound
    | some found =>
      obtain ⟨other, hmem, hother⟩ := List.exists_of_findSome?_eq_some hclock
      obtain ⟨i, hi⟩ := List.mem_iff_getElem?.mp hmem
      have hsame := howner i other found hi hother
      rw [← hsame, hstream] at hi
      obtain rfl := Option.some.inj hi
      exact hother.symm.trans hfound

theorem kept_init (clock : ℚ) (accounts : ℕ) : (init clock accounts).Kept stabilizationSeconds owner where
  streams stream h := by
    rw [List.eq_of_mem_replicate h]
    exact UserStream.kept_init clock
  own i stream h event hevent := by
    obtain rfl := List.eq_of_mem_replicate (List.mem_of_getElem? h)
    rcases hevent with hevent | hevent <;> cases hevent
  gains := List.Pairwise.nil
  current _ h := nomatch h

theorem Kept.step (h : w.Kept stabilizationSeconds owner) {e : StreamsStep} (hown : Own owner w e) :
    (w.step stabilizationSeconds e).Kept stabilizationSeconds owner := by
  cases e with
  | read =>
    refine ⟨h.streams, h.own, ?_, fun clock hclock => ?_⟩
    · refine List.pairwise_append.mpr ⟨h.gains, List.pairwise_singleton _ _, fun clock hclock later hlater => ?_⟩
      rw [List.mem_singleton.mp hlater]
      exact h.current clock hclock
    · rcases List.mem_append.mp hclock with hclock | hclock
      · exact h.current clock hclock
      · rw [List.mem_singleton.mp hclock]
        exact fun _ _ hstamp => hstamp
  | worker i e =>
    have hat : ∀ j stream, (w.step stabilizationSeconds (.worker i e)).streams[j]? = some stream →
        ∃ before, w.streams[j]? = some before ∧
          stream = if i = j then before.step stabilizationSeconds e else before := by
      intro j stream hstream
      simp only [UserStreams.step, List.getElem?_modify] at hstream
      obtain ⟨before, hbefore, rfl⟩ := Option.map_eq_some_iff.mp hstream
      exact ⟨before, hbefore, by split_ifs <;> rfl⟩
    have hstreams : ∀ stream ∈ (w.step stabilizationSeconds (.worker i e)).streams,
        stream.Kept stabilizationSeconds := by
      intro stream hmem
      obtain ⟨j, hstream⟩ := List.mem_iff_getElem?.mp hmem
      obtain ⟨before, hbefore, rfl⟩ := hat j stream hstream
      have hk := h.streams before (List.mem_of_getElem? hbefore)
      split_ifs
      · exact hk.step e
      · exact hk
    have howns : ∀ j stream, (w.step stabilizationSeconds (.worker i e)).streams[j]? = some stream →
        ∀ event, .order event ∈ stream.events ∨ stream.stage = .stamping event →
          owner event.payload.id = j := by
      intro j stream hstream event hevent
      obtain ⟨before, hbefore, rfl⟩ := hat j stream hstream
      split_ifs at hevent with hij
      · rcases UserStream.step_events e hevent with hold | rfl
        · exact h.own j before hbefore event hold
        · exact hij ▸ hown i event rfl
      · exact h.own j before hbefore event hevent
    have hnext : Kept stabilizationSeconds owner
        { w.step stabilizationSeconds (.worker i e) with reads := [] } :=
      ⟨hstreams, howns, List.Pairwise.nil, fun _ hclock => (nomatch hclock)⟩
    refine ⟨hstreams, howns, h.gains, fun clock hclock orderId stamp hstamp => ?_⟩
    obtain ⟨before, hbefore, hregistered⟩ :=
      (h.clock_iff orderId stamp).mp (h.current clock hclock orderId stamp hstamp)
    refine (hnext.clock_iff orderId stamp).mpr ⟨if i = owner orderId then
      before.step stabilizationSeconds e else before, ?_, ?_⟩
    · simp only [UserStreams.step, List.getElem?_modify, hbefore]
      split_ifs <;> rfl
    · split_ifs
      · exact UserStream.step_registered e hregistered
      · exact hregistered

/-- Where the venue pushes an order's events to its own account only, every run
of the streams' workers gives the fleet a clock that keeps each time it has, and
that time is the one of the order's first timed placement on its own stream. -/
theorem registration_clock_gains {clock : ℚ} {accounts : ℕ}
    (hrun : Run (Guarded (Own owner) (step stabilizationSeconds)) (init clock accounts) w) :
    Fleet.Gains w.reads ∧ ∀ read ∈ w.reads, ∀ orderId stamp, read orderId = some stamp →
      ∃ stream, w.streams[owner orderId]? = some stream ∧
        stream.events.findSome? (UserEvent.stamp orderId) = some stamp := by
  have hkept : w.Kept stabilizationSeconds owner := by
    refine run_preserves (Kept stabilizationSeconds owner) ?_ hrun (kept_init clock accounts)
    rintro u v ⟨e, hown, rfl⟩ hu
    exact hu.step hown
  refine ⟨hkept.gains, fun read hread orderId stamp hstamp => ?_⟩
  obtain ⟨stream, hstream, hregistered⟩ :=
    (hkept.clock_iff orderId stamp).mp (hkept.current read hread orderId stamp hstamp)
  refine ⟨stream, hstream, ?_⟩
  rw [← (hkept.streams stream (List.mem_of_getElem? hstream)).stamped orderId]
  exact hregistered

def placedBetween : List StreamsStep :=
  [.worker 0 .go, .worker 1 .go, .worker 1 .go, .worker 1 (.look true 0 0), .read,
    .worker 1 (.push (.order ⟨⟨"0xa1", "PLACEMENT", "LIVE", 0, 10⟩, some 5⟩)), .worker 1 .go, .read]

theorem registration_clock_gains_example :
    ∃ w, w = placedBetween.foldl (step 2) (init 0 2) ∧
      (w.reads.map fun read => read "0xa1") = [none, some 5] ∧ Fleet.Gains w.reads := by
  refine ⟨_, rfl, by decide +kernel, ?_⟩
  have hrun : Run (Guarded (Own fun _ => 1) (step 2)) (init 0 2) (placedBetween.foldl (step 2) (init 0 2)) := by
    refine run_of_meets ?_
    simp [placedBetween, Meets, Own]
  exact (registration_clock_gains hrun).1

end UserStreams

end EventQuant
