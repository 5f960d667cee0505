import Mathlib

/-!
One price level under price-time priority, over any amounts that cannot be
negative. An order keeps its place in the queue for good, with the size that is
still open; takers consume from the front. What an order at a known place was
filled is bounded below by the volume taken past those ahead of it, whatever
the others cancel and whoever joins.
-/
namespace EventQuant.PriceLevels

set_option linter.unusedSectionVars false

section Consume

variable {α : Type*} [Sub α]

def consume : α → List α → List α
  | _, [] => []
  | v, size :: rest => (size - v) :: consume (v - size) rest

@[simp] theorem length_consume (v : α) (queue : List α) :
    (consume v queue).length = queue.length := by
  induction queue generalizing v with
  | nil => rfl
  | cons size rest ih => simp [consume, ih]

theorem take_consume (v : α) (queue : List α) (k : ℕ) :
    (consume v queue).take k = consume v (queue.take k) := by
  induction queue generalizing v k with
  | nil => simp [consume]
  | cons size rest ih =>
    cases k with
    | zero => rfl
    | succ k => simp [consume, ih]

variable [AddCommMonoid α] [LinearOrder α] [OrderedSub α]

/-- An order is consumed by what is left after those in front of it. -/
theorem getElem?_consume (v : α) (queue : List α) (k : ℕ) :
    (consume v queue)[k]? = queue[k]?.map (· - (v - (queue.take k).sum)) := by
  induction queue generalizing v k with
  | nil => simp [consume]
  | cons size rest ih =>
    cases k with
    | zero => simp [consume]
    | succ k => simp [consume, ih, tsub_add_eq_tsub_tsub]

variable [IsOrderedCancelAddMonoid α] [CanonicallyOrderedAdd α]

theorem sum_consume (v : α) (queue : List α) : (consume v queue).sum = queue.sum - v := by
  induction queue generalizing v with
  | nil => simp [consume]
  | cons size rest ih =>
    simp only [consume, List.sum_cons, ih]
    by_cases hv : v ≤ size
    · rw [tsub_eq_zero_of_le hv, tsub_zero, tsub_add_eq_add_tsub hv]
    · have hsize : size ≤ v := le_of_not_ge hv
      rw [tsub_eq_zero_of_le hsize, zero_add, tsub_tsub_eq_add_tsub_of_le hsize, add_comm]

/-- Whatever is cancelled in the queue, no part of it from the front grows. -/
theorem sum_take_modify_le (queue : List α) (i k : ℕ) (v : α) :
    ((queue.modify i (· - v)).take k).sum ≤ (queue.take k).sum := by
  induction queue generalizing i k with
  | nil => simp
  | cons size rest ih =>
    cases k with
    | zero => simp
    | succ k =>
      cases i with
      | zero => simp
      | succ i => simpa using ih i k

end Consume

/-- The open sizes of a level's orders in time order, and the place of the one
that is followed. -/
structure Level (α : Type*) where
  queue : List α
  place : ℕ
  placed : place < queue.length

inductive Event (α : Type*)
  | taken (volume : α)
  | through
  | canceled (place : ℕ) (volume : α)
  | joined (volume : α)

variable {α : Type*} [AddCommMonoid α] [LinearOrder α] [Sub α]

namespace Level

def join (ahead : List α) (size : α) : Level α := ⟨ahead ++ [size], ahead.length, by simp⟩

def ours (l : Level α) : α := l.queue.get ⟨l.place, l.placed⟩

def ahead (l : Level α) : α := (l.queue.take l.place).sum

def next (l : Level α) : Event α → Level α
  | .taken v => ⟨consume v l.queue, l.place, by simpa using l.placed⟩
  | .through => l
  | .canceled i v => ⟨l.queue.modify i (· - v), l.place, by simpa using l.placed⟩
  | .joined v => ⟨l.queue ++ [v], l.place, by simpa using Nat.lt_succ_of_lt l.placed⟩

/-- The followed order is never cancelled, and nothing trades through a level
that still has bids. -/
def Allows (l : Level α) : Event α → Prop
  | .through => l.queue.sum = 0
  | .canceled i _ => i ≠ l.place
  | .taken _ | .joined _ => True

def run (l : Level α) (events : List (Event α)) : Level α := events.foldl next l

instance [DecidableEq α] (l : Level α) (e : Event α) : Decidable (l.Allows e) := by
  cases e <;> unfold Allows <;> infer_instance

def History : Level α → List (Event α) → Prop
  | _, [] => True
  | l, e :: events => l.Allows e ∧ History (l.next e) events

instance History.instDecidable [DecidableEq α] :
    (l : Level α) → (events : List (Event α)) → Decidable (l.History events)
  | _, [] => .isTrue trivial
  | l, e :: events =>
    have := History.instDecidable (l.next e) events
    inferInstanceAs (Decidable (l.Allows e ∧ (l.next e).History events))

end Level

def taken : List (Event α) → α
  | [] => 0
  | .taken v :: events => v + taken events
  | _ :: events => taken events

def crossed : List (Event α) → Bool
  | [] => false
  | .through :: _ => true
  | _ :: events => crossed events

variable [OrderedSub α] [IsOrderedCancelAddMonoid α] [CanonicallyOrderedAdd α]

namespace Level

theorem getElem?_place (l : Level α) : l.queue[l.place]? = some l.ours := by
  simp [ours, List.getElem?_eq_getElem l.placed]

@[simp] theorem ours_join (ahead : List α) (size : α) : (join ahead size).ours = size := by
  simp [join, ours]

@[simp] theorem ahead_join (before : List α) (size : α) : (join before size).ahead = before.sum := by
  simp [join, ahead]

theorem ours_taken (l : Level α) (v : α) : (l.next (.taken v)).ours = l.ours - (v - l.ahead) := by
  have hnext := (l.next (.taken v)).getElem?_place
  have hconsume := getElem?_consume v l.queue l.place
  rw [l.getElem?_place] at hconsume
  exact Option.some.inj (hnext.symm.trans hconsume)

theorem ahead_taken (l : Level α) (v : α) : (l.next (.taken v)).ahead = l.ahead - v := by
  simp only [ahead, next, take_consume, sum_consume]

theorem ours_canceled {l : Level α} {i : ℕ} {v : α} (hi : i ≠ l.place) :
    (l.next (.canceled i v)).ours = l.ours := by
  simp [ours, next, hi]

/-- A cancel ahead moves the order forward, one behind leaves it where it is. -/
theorem ahead_canceled_le (l : Level α) (i : ℕ) (v : α) :
    (l.next (.canceled i v)).ahead ≤ l.ahead :=
  sum_take_modify_le l.queue i l.place v

theorem ours_joined (l : Level α) (v : α) : (l.next (.joined v)).ours = l.ours := by
  simp [ours, next, List.getElem_append_left l.placed]

theorem ahead_joined (l : Level α) (v : α) : (l.next (.joined v)).ahead = l.ahead := by
  simp [ahead, next, List.take_append_of_le_length l.placed.le]

/-- An exhausted level has nothing left of the order. -/
theorem ours_eq_zero {l : Level α} (h : l.queue.sum = 0) : l.ours = 0 := by
  have hle : l.ours ≤ l.queue.sum := List.single_le_sum (fun _ _ => zero_le) _ (List.get_mem _ _)
  exact le_antisymm (h ▸ hle) (zero_le)

/-- An order of the size that joined behind the volume, after so much was taken
at its price: either it is filled, or what was taken left the queue in front of
it or filled it. -/
structure Lasts (before size volume : α) (l : Level α) : Prop where
  ours : l.ours ≤ size
  queue : l.ours = 0 ∨ volume + (l.ahead + l.ours) ≤ before + size

theorem lasts_join (ahead : List α) (size : α) : Lasts ahead.sum size 0 (join ahead size) where
  ours := by simp
  queue := .inr (by simp)

/-- What takers leave in front of an order and of the order itself, while
something of it is left. -/
theorem taken_add_left {l : Level α} {v : α} (h : v - l.ahead < l.ours) :
    v + ((l.ahead - v) + (l.ours - (v - l.ahead))) = l.ahead + l.ours := by
  by_cases hv : v ≤ l.ahead
  · rw [tsub_eq_zero_of_le hv, tsub_zero, ← add_assoc, add_tsub_cancel_of_le hv]
  · have hahead : l.ahead ≤ v := le_of_not_ge hv
    calc v + ((l.ahead - v) + (l.ours - (v - l.ahead)))
        = (l.ahead + (v - l.ahead)) + (l.ours - (v - l.ahead)) := by
          rw [tsub_eq_zero_of_le hahead, zero_add, add_tsub_cancel_of_le hahead]
      _ = l.ahead + ((v - l.ahead) + (l.ours - (v - l.ahead))) := add_assoc _ _ _
      _ = l.ahead + l.ours := by rw [add_tsub_cancel_of_le h.le]

theorem lasts_taken {before size volume v : α} {l : Level α} (h : Lasts before size volume l) :
    Lasts before size (volume + v) (l.next (.taken v)) where
  ours := by
    rw [ours_taken]
    exact tsub_le_self.trans h.ours
  queue := by
    rw [ours_taken, ahead_taken]
    by_cases hpast : v - l.ahead < l.ours
    · have hopen : l.ours ≠ 0 := (hpast.trans_le' (zero_le)).ne'
      have hqueue := h.queue.resolve_left hopen
      refine .inr ?_
      rwa [add_assoc, taken_add_left hpast]
    · exact .inl (tsub_eq_zero_of_le (le_of_not_gt hpast))

/-- A step that leaves the order alone and brings nothing in front of it. -/
theorem Lasts.mono {before size volume : α} {l l' : Level α} (h : Lasts before size volume l)
    (hours : l'.ours = l.ours) (hahead : l'.ahead ≤ l.ahead) : Lasts before size volume l' where
  ours := hours ▸ h.ours
  queue := by
    rw [hours]
    exact h.queue.imp id fun hqueue => (by gcongr : _ ≤ _).trans hqueue

theorem lasts_next {before size volume : α} {l : Level α} {e : Event α}
    (h : Lasts before size volume l) (he : l.Allows e) :
    Lasts before size (volume + taken [e]) (l.next e) := by
  cases e with
  | taken v => simpa [PriceLevels.taken] using lasts_taken h
  | through => simpa [PriceLevels.taken, next] using h
  | canceled i v =>
    simpa [PriceLevels.taken] using h.mono (ours_canceled he) (ahead_canceled_le l i v)
  | joined v =>
    simpa [PriceLevels.taken] using h.mono (ours_joined l v) (ahead_joined l v).le

/-- Nothing brings an order back that is filled. -/
theorem ours_next_le {l : Level α} {e : Event α} (he : l.Allows e) : (l.next e).ours ≤ l.ours := by
  cases e with
  | taken v => exact (ours_taken l v).trans_le tsub_le_self
  | through => exact le_rfl
  | canceled i v => exact (ours_canceled he).le
  | joined v => exact (ours_joined l v).le

end Level

theorem taken_cons (e : Event α) (events : List (Event α)) :
    taken (e :: events) = taken [e] + taken events := by
  cases e <;> simp [taken]

theorem crossed_cons (e : Event α) (events : List (Event α)) :
    crossed (e :: events) = (crossed [e] || crossed events) := by
  cases e <;> simp [crossed]

namespace Level

/-- The run lemma of the bound: it lasts with everything that was taken. -/
theorem lasts_run {before size volume : α} {l : Level α} (events : List (Event α))
    (h : Lasts before size volume l) (hevents : l.History events) :
    Lasts before size (volume + taken events) (l.run events) := by
  induction events generalizing l volume with
  | nil => simpa [taken, run] using h
  | cons e events ih =>
    rw [taken_cons, ← add_assoc]
    exact ih (lasts_next h hevents.1) hevents.2

theorem ours_run_le {l : Level α} (events : List (Event α)) (hevents : l.History events) :
    (l.run events).ours ≤ l.ours := by
  induction events generalizing l with
  | nil => exact le_rfl
  | cons e events ih => exact (ih hevents.2).trans (ours_next_le hevents.1)

/-- After a trade through the price the order is filled. -/
theorem ours_run_crossed {l : Level α} (events : List (Event α)) (hevents : l.History events)
    (hcrossed : crossed events = true) : (l.run events).ours = 0 := by
  induction events generalizing l with
  | nil => exact absurd hcrossed (by simp [crossed])
  | cons e events ih =>
    rw [crossed_cons, Bool.or_eq_true] at hcrossed
    obtain hhere | hlater := hcrossed
    · have hzero : l.ours = 0 := by
        cases e with
        | through => exact ours_eq_zero hevents.1
        | taken | canceled | joined => simp [crossed] at hhere
      exact le_antisymm ((ours_run_le (e :: events) hevents).trans hzero.le) (zero_le)
    · exact ih hevents.2 hlater

/-- What was filled of an order that joined behind `ahead` is at least what was
taken at its price past them, up to its size; it is all of it once something
traded through the price. -/
theorem filled_ge (ahead : List α) (size : α) (events : List (Event α))
    (hevents : (join ahead size).History events) :
    min size (taken events - ahead.sum) ≤ size - ((join ahead size).run events).ours := by
  have hlasts := lasts_run events (lasts_join ahead size) hevents
  obtain hours | hqueue := hlasts.queue
  · rw [hours, tsub_zero]
    exact min_le_left _ _
  · rw [zero_add] at hqueue
    have hopen : taken events + ((join ahead size).run events).ours ≤ ahead.sum + size :=
      le_trans (by gcongr; exact le_add_self) hqueue
    refine min_le_of_right_le (tsub_le_iff_left.mpr (le_of_add_le_add_right (hopen.trans ?_)))
    rw [add_assoc, tsub_add_cancel_of_le hlasts.ours]

end Level

end EventQuant.PriceLevels
