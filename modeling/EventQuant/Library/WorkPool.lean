import Mathlib
import EventQuant.Library.Table

/-!
A pool of work told apart by a key: an item is pending from when it is first
offered until it is closed, and a key that was closed is never pending again.
Offering twice keeps the first item.
-/
namespace EventQuant

structure WorkPool (κ ι : Type*) [DecidableEq κ] (key : ι → κ) where
  pending : Table κ ι key
  handled : Finset κ
  apart : ∀ k ∈ handled, pending.get? k = none

namespace WorkPool

variable {κ ι : Type*} [DecidableEq κ] {key : ι → κ}

def empty : WorkPool κ ι key := ⟨Table.empty, ∅, fun _ _ => rfl⟩

def offer (p : WorkPool κ ι key) (item : ι) : WorkPool κ ι key :=
  if h : key item ∈ p.handled ∨ (p.pending.get? (key item)).isSome then p
  else
    { pending := p.pending.put item
      handled := p.handled
      apart := by
        intro k hk
        rw [Table.get?_put, if_neg]
        · exact p.apart k hk
        · rintro rfl
          exact h (.inl hk) }

/-- The key is closed, whether or not an item was pending under it. -/
def close (p : WorkPool κ ι key) (k : κ) : WorkPool κ ι key where
  pending := p.pending.erase k
  handled := insert k p.handled
  apart := by
    intro k' hk'
    rw [Table.get?_erase]
    split
    · rfl
    · rename_i hne
      exact p.apart k' ((Finset.mem_insert.mp hk').resolve_left fun h => hne h.symm)

def Knows (p : WorkPool κ ι key) (k : κ) : Prop := k ∈ p.handled ∨ (p.pending.get? k).isSome

variable (p : WorkPool κ ι key)

@[simp] theorem handled_offer (item : ι) : (p.offer item).handled = p.handled := by
  unfold offer
  split <;> rfl

theorem mem_handled_close (k k' : κ) : k' ∈ (p.close k).handled ↔ k' = k ∨ k' ∈ p.handled :=
  Finset.mem_insert

/-- What is pending after an offer was pending before, or is the item of a key
the pool did not know. -/
theorem mem_pending_offer {item r : ι} (h : r ∈ (p.offer item).pending.rows) :
    r ∈ p.pending.rows ∨ r = item ∧ ¬ p.Knows (key item) := by
  unfold offer at h
  split at h
  · exact .inl h
  · rename_i hunknown
    rcases (Table.mem_put _ _ _).mp h with rfl | ⟨hr, -⟩
    · exact .inr ⟨rfl, hunknown⟩
    · exact .inl hr

theorem mem_pending_close {k : κ} {r : ι} (h : r ∈ (p.close k).pending.rows) :
    r ∈ p.pending.rows ∧ key r ≠ k := (Table.mem_erase _ _ _).mp h

theorem knows_offer (item : ι) (k : κ) : (p.offer item).Knows k ↔ k = key item ∨ p.Knows k := by
  unfold offer
  split
  · rename_i hknown
    constructor
    · exact .inr
    · rintro (rfl | h)
      · exact hknown
      · exact h
  · unfold Knows
    rw [Table.get?_put]
    by_cases hk : key item = k
    · simp [hk]
    · simp [hk, Ne.symm hk]

theorem knows_close (k k' : κ) : (p.close k).Knows k' ↔ k' = k ∨ p.Knows k' := by
  unfold Knows
  rw [mem_handled_close, close, Table.get?_erase]
  by_cases hk : k = k'
  · simp [hk]
  · simp [hk, Ne.symm hk]

/-- A key the pool knows is closed or pending, and not both. -/
theorem knows_iff_one (k : κ) :
    p.Knows k ↔ Xor (k ∈ p.handled) ((p.pending.get? k).isSome = true) := by
  constructor
  · rintro (hclosed | hpending)
    · exact .inl ⟨hclosed, by simp [p.apart k hclosed]⟩
    · exact .inr ⟨hpending, fun hclosed => by simp [p.apart k hclosed] at hpending⟩
  · rintro (⟨hclosed, -⟩ | ⟨hpending, -⟩)
    · exact .inl hclosed
    · exact .inr hpending

end WorkPool

end EventQuant
