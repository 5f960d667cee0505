import EventQuant.Library.Channels
import EventQuant.Library.Runs
import EventQuant.Knock.Quiet

/-!
The attempt trace. Every send leaves a record in a channel once its verdict is
with the knock, also after the knock has returned, and one thread of Python
collects them batch by batch and hands each to its account's hooks. A batch is
held back while the burst that was on is; whatever the interleaving, the
records come out once each and in the order they went in.
-/
namespace EventQuant.Knock

open Runs

/-- One send and its reply, for the trace. -/
structure Attempt where
  account : String
  attempt : ℕ
  legs : List String
  sentMs : ℤ
  returnedMs : ℤ
  results : List String
  status : ℤ
  body : String
  error : String
  versionMismatch : Bool
  deriving DecidableEq, Repr

/-- What of it a trace hook is given. -/
structure TraceRow where
  attempt : ℕ
  legs : List String
  sentTsMs : ℤ
  returnedTsMs : ℤ
  results : List String
  deriving DecidableEq, Repr

def Attempt.row (a : Attempt) : TraceRow := ⟨a.attempt, a.legs, a.sentMs, a.returnedMs, a.results⟩

/-- Which of an account's two hooks are set. -/
structure Hooks where
  trace : Bool
  versionMismatch : Bool

/-- What was done for the attempts handed to `_record`. -/
structure Written where
  traced : List (String × TraceRow)
  healed : List String
  deriving DecidableEq, Repr

def attemptsHeld : ℕ := 65536

def batchLimit : ℕ := 4096

/-- Where the trace thread is: in `KnockerNextAttempts`, between its statements,
or recording what it returned. A wait on `quiet` is on the channel that was
`quiet` when it began. -/
inductive Collecting
  | calling
  | quieting (channel : ℕ)
  | waiting
  | took (a : Attempt)
  | holding (a : Attempt) (channel : ℕ)
  | gathering (batch : List Attempt)
  | recording (batch : List Attempt)
  deriving DecidableEq, Repr

/-- The accounts whose hooks are in are in `hooked`, the sends whose record is
not in the channel yet in `owed`. What was sent, went into the channel, was
handed over and recorded, an attempt whose hook raised with true, is kept
beside it; and whether no burst was on at some moment since the first reply of
the batch in hand was taken. -/
structure Tracing where
  held : Held
  hooked : List String
  owed : List Attempt
  attempts : Channel Attempt attemptsHeld
  collecting : Collecting
  written : Written
  sent : List Attempt
  emitted : List Attempt
  batches : List (List Attempt × Bool)
  recorded : List (Attempt × Bool)
  quietSince : Bool

/-- A step of a timing thread, of a knock, of a send, or of the trace thread. -/
inductive TraceMove
  | burstOn
  | burstOff
  | knock (accounts : List String)
  | send (a : Attempt)
  | emit (i : ℕ)
  | go (raises : Bool)
  | timeout

namespace Tracing

def init (percent : ℤ) : Tracing where
  held := .init percent
  hooked := []
  owed := []
  attempts := .empty
  collecting := .calling
  written := ⟨[], []⟩
  sent := []
  emitted := []
  batches := []
  recorded := []
  quietSince := false

def quiet (w : Tracing) : Bool := decide (w.held.bursts.held = 0)

def opened (w : Tracing) (channel : ℕ) : Bool :=
  decide (0 < w.held.bursts.resource.closes.getD channel 0)

variable (hooks : String → Hooks)

/-- `_record`: nothing for an account without hooks, and no fix where the trace
hook raised. -/
def record (w : Tracing) (a : Attempt) (raises : Bool) : Written :=
  if a.account ∉ w.hooked then w.written
  else if (hooks a.account).trace && raises then w.written
  else
    { traced :=
        if (hooks a.account).trace then w.written.traced ++ [(a.account, a.row)] else w.written.traced
      healed :=
        if a.versionMismatch && (hooks a.account).versionMismatch then w.written.healed ++ [a.account]
        else w.written.healed }

def go (raises : Bool) (w : Tracing) : Option Tracing :=
  match w.collecting with
  | .calling => some { w with collecting := .quieting w.held.bursts.resource.quiet }
  | .quieting channel => if w.opened channel then some { w with collecting := .waiting } else none
  | .waiting =>
    w.attempts.receive.map fun taken =>
      { w with
        attempts := taken.2
        collecting := .took taken.1
        quietSince := w.quiet }
  | .took a => some { w with collecting := .holding a w.held.bursts.resource.quiet }
  | .holding a channel =>
    if w.opened channel then some { w with collecting := .gathering [a] } else none
  | .gathering batch =>
    match if batch.length < batchLimit then w.attempts.receive else none with
    | some (a, attempts) =>
      some { w with
        attempts := attempts
        collecting := .gathering (batch ++ [a]) }
    | none =>
      some { w with
        collecting := .recording batch
        batches := w.batches ++ [(batch, w.quietSince)] }
  | .recording [] => some { w with collecting := .calling }
  | .recording (a :: batch) =>
    some { w with
      collecting := .recording batch
      written := w.record hooks a raises
      recorded := w.recorded ++ [(a, raises)] }

def timeout (w : Tracing) : Option Tracing :=
  match w.collecting with
  | .quieting _ | .waiting => some { w with collecting := .calling }
  | _ => none

def send (a : Attempt) (w : Tracing) : Option Tracing :=
  if a.account ∈ w.hooked then
    some { w with
      owed := w.owed ++ [a]
      sent := w.sent ++ [a] }
  else none

def emit (i : ℕ) (w : Tracing) : Option Tracing :=
  w.owed[i]?.bind fun a =>
    (w.attempts.send a).map fun attempts =>
      { w with
        owed := w.owed.eraseIdx i
        attempts := attempts
        emitted := w.emitted ++ [a] }

def burstOff (w : Tracing) : Tracing :=
  { w with
    held := w.held.burstOff
    quietSince := w.quietSince || decide (w.held.burstOff.bursts.held = 0) }

def move (w : Tracing) : TraceMove → Option Tracing
  | .burstOn => some { w with held := w.held.burstOn }
  | .burstOff => some w.burstOff
  | .knock accounts => some { w with hooked := w.hooked ++ accounts }
  | .send a => w.send a
  | .emit i => w.emit i
  | .go raises => w.go hooks raises
  | .timeout => w.timeout

/-- A step that has to wait changes nothing. -/
def next (w : Tracing) (m : TraceMove) : Tracing := (w.move hooks m).getD w

def inHand (w : Tracing) : List Attempt :=
  match w.collecting with
  | .took a | .holding a _ => [a]
  | .gathering batch | .recording batch => batch
  | _ => []

def unrecorded (w : Tracing) : List Attempt :=
  match w.collecting with
  | .recording batch => batch
  | _ => []

def rowOf (r : Attempt × Bool) : Option (String × TraceRow) :=
  if (hooks r.1.account).trace && !r.2 then some (r.1.account, r.1.row) else none

def healOf (r : Attempt × Bool) : Option String :=
  if !((hooks r.1.account).trace && r.2) && (r.1.versionMismatch && (hooks r.1.account).versionMismatch)
  then some r.1.account else none

/-- What a wait knows of the bursts: the channel it is on was made, and while no
moment without a burst was seen since the first reply was taken it is still
`quiet` and a burst is on. -/
def Waits (w : Tracing) : Prop :=
  match w.collecting with
  | .calling | .waiting | .recording _ => True
  | .quieting channel => channel < w.held.bursts.resource.closes.length
  | .took _ => w.quietSince = false → w.held.bursts.held ≠ 0
  | .holding _ channel => channel < w.held.bursts.resource.closes.length ∧
      (w.quietSince = false → channel = w.held.bursts.resource.quiet ∧ w.held.bursts.held ≠ 0)
  | .gathering batch => batch ≠ [] ∧ batch.length ≤ batchLimit ∧ w.quietSince = true

/-- What holds at any time. -/
structure Kept (percent : ℤ) (w : Tracing) : Prop where
  held : w.held.Sound percent
  waits : w.Waits
  carried : w.attempts.Carries w.emitted (w.recorded.map Prod.fst ++ w.inHand)
  once : (w.emitted ++ w.owed).Perm w.sent
  hooked : ∀ a ∈ w.sent, a.account ∈ w.hooked
  traced : w.written.traced = w.recorded.filterMap (rowOf hooks)
  healed : w.written.healed = w.recorded.filterMap (healOf hooks)
  handed : w.batches.flatMap Prod.fst = w.recorded.map Prod.fst ++ w.unrecorded
  batches : ∀ b ∈ w.batches, b.1 ≠ [] ∧ b.1.length ≤ batchLimit ∧ b.2 = true

variable {hooks} {percent : ℤ} {w w' : Tracing}

theorem kept_init (percent : ℤ) : (init percent).Kept hooks percent where
  held := Held.init_sound percent
  waits := trivial
  carried := rfl
  once := .refl _
  hooked _ h := nomatch h
  traced := rfl
  healed := rfl
  handed := rfl
  batches _ h := nomatch h

theorem Kept.burstOn (h : w.Kept hooks percent) : Kept hooks percent { w with held := w.held.burstOn } := by
  have hlength : w.held.bursts.resource.closes.length ≤ w.held.burstOn.bursts.resource.closes.length := by
    simp only [Held.burstOn, Refcount.Counted.acquire, Channels.make]
    split <;> simp
  have hsame : w.held.bursts.held ≠ 0 →
      w.held.burstOn.bursts.resource = w.held.bursts.resource := by
    intro hheld
    simp only [Held.burstOn, Refcount.Counted.acquire, hheld, if_false]
  refine { h with held := h.held.burstOn, waits := ?_ }
  have hwaits := h.waits
  unfold Waits at hwaits ⊢
  cases hcollecting : w.collecting with
  | calling | waiting | recording => trivial
  | quieting channel =>
    rw [hcollecting] at hwaits
    exact lt_of_lt_of_le hwaits hlength
  | took a => exact fun _ => Nat.succ_ne_zero _
  | holding a channel =>
    rw [hcollecting] at hwaits
    refine ⟨lt_of_lt_of_le hwaits.1 hlength, fun hsince => ?_⟩
    obtain ⟨hchannel, hheld⟩ := hwaits.2 hsince
    exact ⟨hchannel.trans (congrArg Channels.quiet (hsame hheld)).symm, Nat.succ_ne_zero _⟩
  | gathering batch =>
    rw [hcollecting] at hwaits
    exact hwaits

theorem Kept.burstOff (h : w.Kept hooks percent) : w.burstOff.Kept hooks percent := by
  have hlength : w.held.burstOff.bursts.resource.closes.length = w.held.bursts.resource.closes.length := by
    simp only [Held.burstOff, Refcount.Counted.release, Channels.close]
    split
    · rfl
    · simp only
      split <;> simp
  have hsame : w.held.burstOff.bursts.held ≠ 0 →
      w.held.burstOff.bursts.resource = w.held.bursts.resource ∧ w.held.bursts.held ≠ 0 := by
    simp only [Held.burstOff, Refcount.Counted.release]
    split
    · exact fun hheld => ⟨rfl, hheld⟩
    · intro hheld
      simp only at hheld ⊢
      rw [if_neg (by omega)]
      exact ⟨rfl, by omega⟩
  refine { h with held := h.held.burstOff, waits := ?_ }
  have hwaits := h.waits
  unfold Waits at hwaits ⊢
  simp only [Tracing.burstOff, Bool.or_eq_false_iff, decide_eq_false_iff_not]
  cases hcollecting : w.collecting with
  | calling | waiting | recording => trivial
  | quieting channel =>
    rw [hcollecting] at hwaits
    exact lt_of_lt_of_eq hwaits hlength.symm
  | took a => exact fun hsince => hsince.2
  | holding a channel =>
    rw [hcollecting] at hwaits
    refine ⟨lt_of_lt_of_eq hwaits.1 hlength.symm, fun hsince => ⟨?_, hsince.2⟩⟩
    rw [(hsame hsince.2).1]
    exact (hwaits.2 hsince.1).1
  | gathering batch =>
    rw [hcollecting] at hwaits
    exact ⟨hwaits.1, hwaits.2.1, by rw [hwaits.2.2, Bool.true_or]⟩

theorem Kept.send {a : Attempt} (h : w.Kept hooks percent) (hsend : w.send a = some w') :
    w'.Kept hooks percent := by
  unfold Tracing.send at hsend
  split_ifs at hsend with hhooked
  obtain rfl := Option.some.inj hsend
  refine { h with once := ?_, hooked := ?_ }
  · rw [← List.append_assoc]
    exact h.once.append (.refl _)
  · intro b hb
    rcases List.mem_append.mp hb with hb | hb
    · exact h.hooked b hb
    · rw [List.mem_singleton.mp hb]
      exact hhooked

theorem Kept.emit {i : ℕ} (h : w.Kept hooks percent) (hemit : w.emit i = some w') :
    w'.Kept hooks percent := by
  obtain ⟨a, ha, hemit⟩ := Option.bind_eq_some_iff.mp hemit
  obtain ⟨attempts, hsent, rfl⟩ := Option.map_eq_some_iff.mp hemit
  refine { h with carried := h.carried.send hsent, once := ?_ }
  rw [List.append_assoc, List.singleton_append]
  exact (List.Perm.append_left _ (perm_eraseIdx ha)).trans h.once

theorem Kept.timeout (h : w.Kept hooks percent) (htimeout : w.timeout = some w') :
    w'.Kept hooks percent := by
  obtain ⟨hheld, hwaits, hcarried, honce, hhooked, htraced, hhealed, hhanded, hbatches⟩ := h
  unfold inHand at hcarried
  unfold unrecorded at hhanded
  unfold Tracing.timeout at htimeout
  cases hcollecting : w.collecting with
  | quieting channel =>
    rw [hcollecting] at htimeout hcarried hhanded
    obtain rfl := Option.some.inj htimeout
    exact ⟨hheld, trivial, hcarried, honce, hhooked, htraced, hhealed, hhanded, hbatches⟩
  | waiting =>
    rw [hcollecting] at htimeout hcarried hhanded
    obtain rfl := Option.some.inj htimeout
    exact ⟨hheld, trivial, hcarried, honce, hhooked, htraced, hhealed, hhanded, hbatches⟩
  | calling | took | holding | gathering | recording =>
    rw [hcollecting] at htimeout
    cases htimeout

/-- What is recorded was sent, so its account's hooks are in. -/
theorem Kept.hooked_inHand (h : w.Kept hooks percent) : ∀ a ∈ w.inHand, a.account ∈ w.hooked := by
  intro a ha
  refine h.hooked a (h.once.mem_iff.mp (List.mem_append_left _ ?_))
  rw [h.carried]
  simp [ha]

theorem record_traced {a : Attempt} (hhooked : a.account ∈ w.hooked) (raises : Bool) :
    (w.record hooks a raises).traced = w.written.traced ++ (rowOf hooks (a, raises)).toList := by
  unfold record rowOf
  cases htrace : (hooks a.account).trace <;> cases raises <;> simp [hhooked]

theorem record_healed {a : Attempt} (hhooked : a.account ∈ w.hooked) (raises : Bool) :
    (w.record hooks a raises).healed = w.written.healed ++ (healOf hooks (a, raises)).toList := by
  unfold record healOf
  cases htrace : (hooks a.account).trace <;> cases raises <;>
    cases hheals : (a.versionMismatch && (hooks a.account).versionMismatch) <;> simp [hhooked]

/-- A wait that is on a channel closed since its first reply was taken saw a
moment without a burst. -/
theorem Kept.quietSince (h : w.Kept hooks percent) (a : Attempt) (channel : ℕ)
    (hholding : w.collecting = .holding a channel) (hopened : w.opened channel = true) :
    w.quietSince = true := by
  have hwaits := h.waits
  unfold Waits at hwaits
  rw [hholding] at hwaits
  cases hsince : w.quietSince with
  | true => rfl
  | false =>
    obtain ⟨rfl, hheld⟩ := hwaits.2 hsince
    exact absurd (h.held.isClosed_iff.mp (of_decide_eq_true hopened)) hheld

theorem quiet_lt (h : w.Kept hooks percent) :
    w.held.bursts.resource.quiet < w.held.bursts.resource.closes.length := by
  by_cases hnone : w.held.bursts.held = 0
  · obtain ⟨past, heq, -⟩ := h.held.bursts.free hnone
    simp [heq]
  · obtain ⟨past, heq, -⟩ := h.held.bursts.held (Nat.pos_of_ne_zero hnone)
    simp [heq]

theorem Kept.go {raises : Bool} (h : w.Kept hooks percent) (hgo : w.go hooks raises = some w') :
    w'.Kept hooks percent := by
  have hquiet := quiet_lt h
  have hhookedHand := h.hooked_inHand
  have hquietSince := h.quietSince
  obtain ⟨hheld, hwaits, hcarried, honce, hhooked, htraced, hhealed, hhanded, hbatches⟩ := h
  unfold inHand at hcarried hhookedHand
  unfold unrecorded at hhanded
  unfold Waits at hwaits
  unfold Tracing.go at hgo
  cases hcollecting : w.collecting with
  | calling =>
    rw [hcollecting] at hgo hcarried hhanded
    obtain rfl := Option.some.inj hgo
    exact ⟨hheld, hquiet, hcarried, honce, hhooked, htraced, hhealed, hhanded, hbatches⟩
  | quieting channel =>
    rw [hcollecting] at hgo hcarried hhanded
    simp only at hgo
    split_ifs at hgo
    obtain rfl := Option.some.inj hgo
    exact ⟨hheld, trivial, hcarried, honce, hhooked, htraced, hhealed, hhanded, hbatches⟩
  | waiting =>
    rw [hcollecting] at hgo hcarried hhanded
    obtain ⟨⟨a, attempts⟩, hreceive, rfl⟩ := Option.map_eq_some_iff.mp hgo
    refine ⟨hheld, ?_, ?_, honce, hhooked, htraced, hhealed, hhanded, hbatches⟩
    · exact fun hsince => of_decide_eq_false hsince
    · simp only [List.append_nil] at hcarried
      exact hcarried.receive hreceive
  | took a =>
    rw [hcollecting] at hgo hcarried hhanded hwaits
    obtain rfl := Option.some.inj hgo
    exact ⟨hheld, ⟨hquiet, fun hsince => ⟨rfl, hwaits hsince⟩⟩, hcarried, honce, hhooked, htraced,
      hhealed, hhanded, hbatches⟩
  | holding a channel =>
    rw [hcollecting] at hgo hcarried hhanded
    simp only at hgo
    split_ifs at hgo with hopened
    obtain rfl := Option.some.inj hgo
    exact ⟨hheld, ⟨List.cons_ne_nil _ _, show 1 ≤ batchLimit by decide, hquietSince a channel hcollecting hopened⟩, hcarried, honce,
      hhooked, htraced, hhealed, hhanded, hbatches⟩
  | gathering batch =>
    rw [hcollecting] at hgo hcarried hhanded hwaits
    simp only at hgo
    split at hgo
    · rename_i a attempts hreceive
      split_ifs at hreceive with hroom
      obtain rfl := Option.some.inj hgo
      refine ⟨hheld, ⟨by simp, ?_, hwaits.2.2⟩, ?_, honce, hhooked, htraced, hhealed, hhanded, hbatches⟩
      · rw [List.length_append, List.length_singleton]
        exact hroom
      · unfold inHand
        rw [← List.append_assoc]
        exact hcarried.receive hreceive
    · obtain rfl := Option.some.inj hgo
      refine ⟨hheld, trivial, hcarried, honce, hhooked, htraced, hhealed, ?_, ?_⟩
      · simp only [unrecorded, List.flatMap_append, List.flatMap_singleton]
        rw [hhanded, List.append_nil]
      · intro b hb
        rcases List.mem_append.mp hb with hb | hb
        · exact hbatches b hb
        · rw [List.mem_singleton.mp hb]
          exact hwaits
  | recording batch =>
    cases batch with
    | nil =>
      rw [hcollecting] at hgo hcarried hhanded
      obtain rfl := Option.some.inj hgo
      exact ⟨hheld, trivial, hcarried, honce, hhooked, htraced, hhealed, hhanded, hbatches⟩
    | cons a batch =>
      rw [hcollecting] at hgo hcarried hhanded hhookedHand
      obtain rfl := Option.some.inj hgo
      have haccount := hhookedHand a List.mem_cons_self
      refine ⟨hheld, trivial, ?_, honce, hhooked, ?_, ?_, ?_, hbatches⟩
      · simpa [Channel.Carries, inHand] using hcarried
      · simp only [record_traced haccount, htraced, List.filterMap_append]
        cases hrow : rowOf hooks (a, raises) <;> simp [hrow]
      · simp only [record_healed haccount, hhealed, List.filterMap_append]
        cases hheal : healOf hooks (a, raises) <;> simp [hheal]
      · simpa [unrecorded] using hhanded

theorem Kept.next (h : w.Kept hooks percent) (m : TraceMove) : (w.next hooks m).Kept hooks percent := by
  unfold Tracing.next
  cases hmove : w.move hooks m with
  | none => exact h
  | some w' =>
    cases m with
    | burstOn =>
      obtain rfl := Option.some.inj hmove
      exact h.burstOn
    | burstOff =>
      obtain rfl := Option.some.inj hmove
      exact h.burstOff
    | knock accounts =>
      obtain rfl := Option.some.inj hmove
      exact { h with hooked := fun a ha => List.mem_append_left _ (h.hooked a ha) }
    | send a => exact h.send hmove
    | emit i => exact h.emit hmove
    | go raises => exact h.go hmove
    | timeout => exact h.timeout hmove

/-! ### Getting through -/

def rank (w : Tracing) : ℕ :=
  match w.collecting with
  | .waiting => 0
  | .quieting _ => 1
  | .calling => 2
  | .recording _ => 3
  | .gathering _ => 4
  | .holding _ _ => 5
  | .took _ => 6

def work (w : Tracing) : ℕ := 9 * w.attempts.buffer.length + 2 * w.inHand.length + w.rank

/-- Each of its statements is work done, and none of them adds a record. -/
theorem go_works {raises : Bool} (hgo : w.go hooks raises = some w') :
    w'.work < w.work ∧ w'.emitted = w.emitted ∧ w'.held = w.held := by
  unfold Tracing.go at hgo
  unfold work inHand rank
  cases hcollecting : w.collecting with
  | calling =>
    rw [hcollecting] at hgo
    obtain rfl := Option.some.inj hgo
    simp
  | quieting channel =>
    rw [hcollecting] at hgo
    simp only at hgo
    split_ifs at hgo
    obtain rfl := Option.some.inj hgo
    simp
  | waiting =>
    rw [hcollecting] at hgo
    obtain ⟨⟨a, attempts⟩, hreceive, rfl⟩ := Option.map_eq_some_iff.mp hgo
    have hbuffer := congrArg List.length (Channel.receive_some hreceive)
    rw [List.length_cons] at hbuffer
    refine ⟨?_, rfl, rfl⟩
    simp only [List.length_singleton, List.length_nil]
    omega
  | took a =>
    rw [hcollecting] at hgo
    obtain rfl := Option.some.inj hgo
    simp
  | holding a channel =>
    rw [hcollecting] at hgo
    simp only at hgo
    split_ifs at hgo
    obtain rfl := Option.some.inj hgo
    simp
  | gathering batch =>
    rw [hcollecting] at hgo
    simp only at hgo
    split at hgo
    · rename_i a attempts hreceive
      split_ifs at hreceive
      have hbuffer := congrArg List.length (Channel.receive_some hreceive)
      rw [List.length_cons] at hbuffer
      obtain rfl := Option.some.inj hgo
      refine ⟨?_, rfl, rfl⟩
      simp only [List.length_append, List.length_singleton]
      omega
    · obtain rfl := Option.some.inj hgo
      simp
  | recording batch =>
    rw [hcollecting] at hgo
    cases batch with
    | nil =>
      obtain rfl := Option.some.inj hgo
      simp
    | cons a batch =>
      obtain rfl := Option.some.inj hgo
      refine ⟨?_, rfl, rfl⟩
      simp only [List.length_cons]
      omega

/-- While no burst is on, every channel ever made is closed. -/
theorem Kept.opened_quiet (h : w.Kept hooks percent) (hquiet : w.held.bursts.held = 0) {channel : ℕ}
    (hmade : channel < w.held.bursts.resource.closes.length) : w.opened channel = true := by
  obtain ⟨past, heq, hpast⟩ := h.held.bursts.free hquiet
  have hcloses : w.held.bursts.resource.closes = past ++ [1] := by rw [heq]
  have hone : ∀ n ∈ w.held.bursts.resource.closes, n = 1 := by
    intro n hn
    rw [hcloses] at hn
    rcases List.mem_append.mp hn with hn | hn
    · exact hpast n hn
    · exact List.mem_singleton.mp hn
  unfold opened
  rw [decide_eq_true_eq, List.getD_eq_getElem _ _ hmade, hone _ (List.getElem_mem hmade)]
  exact Nat.one_pos

/-- While no burst is on, the thread waits only for a reply. -/
theorem Kept.go_none {raises : Bool} (h : w.Kept hooks percent) (hquiet : w.held.bursts.held = 0)
    (hgo : w.go hooks raises = none) : w.recorded.map Prod.fst = w.emitted := by
  have hwaits := h.waits
  have hcarried := h.carried
  unfold Waits at hwaits
  unfold Channel.Carries inHand at hcarried
  unfold Tracing.go at hgo
  cases hcollecting : w.collecting with
  | calling | took =>
    rw [hcollecting] at hgo
    cases hgo
  | quieting channel =>
    rw [hcollecting] at hgo hwaits
    simp only [h.opened_quiet hquiet hwaits, if_true] at hgo
    cases hgo
  | waiting =>
    rw [hcollecting] at hgo hcarried
    have hempty := Channel.receive_none_iff.mp (Option.map_eq_none_iff.mp hgo)
    rw [hcarried, hempty, List.append_nil, List.append_nil]
  | holding a channel =>
    rw [hcollecting] at hgo hwaits
    simp only [h.opened_quiet hquiet hwaits.1, if_true] at hgo
    cases hgo
  | gathering batch =>
    rw [hcollecting] at hgo
    simp only at hgo
    split at hgo
    · cases hgo
    · cases hgo
  | recording batch =>
    rw [hcollecting] at hgo
    cases batch with
    | nil => cases hgo
    | cons a batch => cases hgo

/-- Left alone while no burst is on, the thread records everything there is. -/
theorem Kept.getsThrough (h : w.Kept hooks percent) (hquiet : w.held.bursts.held = 0) (raises : Bool) :
    ∃ n, ((fun w => Tracing.next hooks w (.go raises))^[n] w).recorded.map Prod.fst = w.emitted := by
  induction hwork : w.work using Nat.strong_induction_on generalizing w with
  | _ work ih =>
    cases hgo : w.go hooks raises with
    | none => exact ⟨0, h.go_none hquiet hgo⟩
    | some w' =>
      obtain ⟨hless, hemitted, hheld⟩ := go_works hgo
      obtain ⟨n, hn⟩ := ih w'.work (hwork ▸ hless) (h.go hgo) (hheld ▸ hquiet) rfl
      refine ⟨n + 1, ?_⟩
      have hnext : Tracing.next hooks w (.go raises) = w' := by
        show (w.go hooks raises).getD w = w'
        rw [hgo, Option.getD_some]
      rw [Function.iterate_succ_apply, hnext, hn, hemitted]

/-- In every run of knocks, bursts, sends and the trace thread: each send's
record went into the channel once or still is to; those that went in are, in
turn, those recorded, those in hand and those in the channel; each one recorded
was traced with its account's hook unless it raised; a call that times out hands
over nothing, and the batches of the others are, in turn, what was recorded and
is being recorded, none of them empty or over the limit, and each after a moment
without a burst since its first reply was taken; and once no burst is on, the
thread gets through everything. -/
theorem attempts_recorded (hooks : String → Hooks) (percent : ℤ) {w : Tracing}
    (hrun : Run (fun w v => ∃ m, next hooks w m = v) (init percent) w) :
    (w.emitted ++ w.owed).Perm w.sent ∧
      w.emitted = w.recorded.map Prod.fst ++ w.inHand ++ w.attempts.buffer ∧
      (w.written.traced = w.recorded.filterMap (rowOf hooks) ∧
        w.written.healed = w.recorded.filterMap (healOf hooks)) ∧
      (w.batches.flatMap Prod.fst = w.recorded.map Prod.fst ++ w.unrecorded ∧
        ∀ b ∈ w.batches, b.1 ≠ [] ∧ b.1.length ≤ batchLimit ∧ b.2 = true) ∧
      (w.held.bursts.held = 0 → ∀ raises,
        ∃ n, ((fun w => next hooks w (.go raises))^[n] w).recorded.map Prod.fst = w.emitted) := by
  have hkept : w.Kept hooks percent := by
    refine run_preserves (Kept hooks percent) ?_ hrun (kept_init percent)
    rintro u v ⟨m, rfl⟩ hu
    exact hu.next m
  exact ⟨hkept.once, hkept.carried, ⟨hkept.traced, hkept.healed⟩, ⟨hkept.handed, hkept.batches⟩,
    hkept.getsThrough⟩

def landedInBurst : List TraceMove :=
  [.knock ["a"], .go false, .go false, .burstOn,
    .send ⟨"a", 1, ["Up"], 0, 5, ["not ready"], 400, "", "", false⟩, .emit 0, .go false, .go false,
    .go false, .burstOff, .go false, .go false, .go false]

theorem attempts_recorded_example :
    ∃ w, w = landedInBurst.foldl (next fun _ => ⟨true, true⟩) (init 100) ∧
      w.recorded.length = 1 ∧
      w.written.traced = w.recorded.filterMap (rowOf fun _ => ⟨true, true⟩) ∧
      ∀ b ∈ w.batches, b.2 = true := by
  refine ⟨_, rfl, by decide +kernel, ?_⟩
  have hrun : Run (fun w v => ∃ m, next (fun _ => ⟨true, true⟩) w m = v) (init 100)
      (landedInBurst.foldl (next fun _ => ⟨true, true⟩) (init 100)) := run_of_events _ landedInBurst
  have h := attempts_recorded (fun _ => ⟨true, true⟩) 100 hrun
  exact ⟨h.2.2.1.1, fun b hb => (h.2.2.2.1.2 b hb).2.2⟩

end Tracing

end EventQuant.Knock
