import Mathlib

/-!
A buffer between threads, first in first out and of bounded size. What went in
is what came out, in the same order, and what is still there. Senders that owe
no more between them than the buffer has room for never find it full.
-/
namespace EventQuant

universe u

/-- The sender at a place and the others are all of them. -/
theorem perm_eraseIdx {α : Type*} {xs : List α} {i : ℕ} {x : α} (h : xs[i]? = some x) :
    (x :: xs.eraseIdx i).Perm xs := by
  obtain ⟨hi, rfl⟩ := List.getElem?_eq_some_iff.mp h
  exact List.getElem_cons_eraseIdx_perm hi

structure Channel (α : Type u) (capacity : ℕ) where
  buffer : List α
  bounded : buffer.length ≤ capacity

namespace Channel

variable {α : Type u} {capacity : ℕ}

def empty : Channel α capacity := ⟨[], Nat.zero_le _⟩

def send (c : Channel α capacity) (a : α) : Option (Channel α capacity) :=
  if h : c.buffer.length < capacity then
    some ⟨c.buffer ++ [a], by rw [List.length_append, List.length_singleton]; exact h⟩
  else none

def receive (c : Channel α capacity) : Option (α × Channel α capacity) :=
  match h : c.buffer with
  | [] => none
  | a :: rest => some (a, ⟨rest, by
      have hbounded := c.bounded
      rw [h, List.length_cons] at hbounded
      omega⟩)

variable {c c' : Channel α capacity} {a : α}

theorem send_some (h : c.send a = some c') : c'.buffer = c.buffer ++ [a] := by
  unfold send at h
  split at h
  · rw [← Option.some.inj h]
  · exact nomatch h

theorem send_none_iff : c.send a = none ↔ c.buffer.length = capacity := by
  have hbounded := c.bounded
  unfold send
  split
  · simp only [reduceCtorEq, false_iff]
    omega
  · simp only [true_iff]
    omega

theorem receive_some (h : c.receive = some (a, c')) : c.buffer = a :: c'.buffer := by
  unfold receive at h
  split at h
  · exact nomatch h
  · rename_i hbuffer
    obtain ⟨rfl, rfl⟩ := Prod.mk.inj (Option.some.inj h)
    exact hbuffer

theorem receive_none_iff : c.receive = none ↔ c.buffer = [] := by
  unfold receive
  split
  · simp_all
  · simp_all

def Carries (c : Channel α capacity) (sent received : List α) : Prop := sent = received ++ c.buffer

variable {sent received : List α}

theorem Carries.send (h : c.Carries sent received) (hsend : c.send a = some c') :
    c'.Carries (sent ++ [a]) received := by
  unfold Carries at h ⊢
  rw [h, send_some hsend, List.append_assoc]

theorem Carries.receive (h : c.Carries sent received) (hreceive : c.receive = some (a, c')) :
    c'.Carries sent (received ++ [a]) := by
  unfold Carries at h ⊢
  rw [h, receive_some hreceive, List.append_assoc, List.singleton_append]

def Room (c : Channel α capacity) (owed : ℕ) : Prop := c.buffer.length + owed ≤ capacity

theorem Room.send {owed : ℕ} (h : c.Room (owed + 1)) (a : α) :
    ∃ c', c.send a = some c' ∧ c'.Room owed := by
  unfold Room at h
  cases hsend : c.send a with
  | none =>
    have hfull := send_none_iff.mp hsend
    omega
  | some c' =>
    refine ⟨c', rfl, ?_⟩
    rw [Room, send_some hsend, List.length_append, List.length_singleton]
    omega

end Channel

end EventQuant
