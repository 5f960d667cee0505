import Mathlib.Order.Interval.Finset.Basic
import Mathlib.Order.Monotone.Basic
import Mathlib.Data.Set.Finite.Basic

/-!
Walking a set upward. A function that takes each member of a set of a linear
order to the least member above it passes over nothing: iterated from any
member it lists the members above that one, in increasing order.
-/
namespace EventQuant

variable {α : Type*} [LinearOrder α]

/-- The function takes each member of the set to the least one above it. -/
structure Succeeds (S : Set α) (next : α → α) : Prop where
  mem : ∀ s ∈ S, next s ∈ S
  lt : ∀ s ∈ S, s < next s
  least : ∀ s ∈ S, ∀ x ∈ S, s < x → next s ≤ x

namespace Succeeds

variable {S : Set α} {next : α → α} {s x : α}

theorem iterate_mem (h : Succeeds S next) (hs : s ∈ S) (n : ℕ) : next^[n] s ∈ S := by
  induction n with
  | zero => exact hs
  | succ n ih =>
    rw [Function.iterate_succ_apply']
    exact h.mem _ ih

/-- No member comes up twice. -/
theorem strictMono_iterate (h : Succeeds S next) (hs : s ∈ S) :
    StrictMono fun n => next^[n] s := by
  apply strictMono_nat_of_lt_succ
  intro n
  rw [Function.iterate_succ_apply']
  exact h.lt _ (h.iterate_mem hs n)

/-- Where only finitely many values lie between any two, every member is
passed at last. -/
theorem exists_lt_iterate [LocallyFiniteOrder α] (h : Succeeds S next) (hs : s ∈ S) (x : α) :
    ∃ n, x < next^[n] s := by
  by_contra hnone
  have hbelow : ∀ n, next^[n] s ≤ x := fun n => not_lt.mp fun hn => hnone ⟨n, hn⟩
  have hmono := h.strictMono_iterate hs
  have hinf : (Set.Icc s x).Infinite :=
    Set.infinite_of_injective_forall_mem hmono.injective fun n =>
      ⟨hmono.monotone (Nat.zero_le n), hbelow n⟩
  exact hinf (Set.finite_Icc s x)

/-- The walk lists exactly the members above the one it starts from. -/
theorem range_iterate [LocallyFiniteOrder α] (h : Succeeds S next) (hs : s ∈ S) :
    Set.range (fun n => next^[n + 1] s) = {x | x ∈ S ∧ s < x} := by
  ext x
  constructor
  · intro ⟨n, hn⟩
    subst hn
    exact ⟨h.iterate_mem hs _, h.strictMono_iterate hs (Nat.succ_pos n)⟩
  · intro ⟨hx, hlt⟩
    have hpast := h.exists_lt_iterate hs x
    -- the last member not past `x` is the one whose successor would pass it
    have hfind := Nat.find_spec hpast
    obtain ⟨n, hn⟩ : ∃ n, Nat.find hpast = n + 1 := by
      refine Nat.exists_eq_succ_of_ne_zero fun h0 => ?_
      rw [h0] at hfind
      exact absurd hlt (not_lt.mpr hfind.le)
    have hle : next^[n] s ≤ x := not_lt.mp (Nat.find_min hpast (by omega))
    rw [hn, Function.iterate_succ_apply'] at hfind
    have heq : next^[n] s = x := by
      refine le_antisymm hle (not_lt.mp fun hgap => ?_)
      exact absurd (h.least _ (h.iterate_mem hs n) x hx hgap) (not_le.mpr hfind)
    cases n with
    | zero => exact absurd heq hlt.ne
    | succ n => exact ⟨n, heq⟩

end Succeeds

end EventQuant
