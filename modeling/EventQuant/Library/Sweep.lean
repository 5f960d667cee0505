import Mathlib.Algebra.Order.BigOperators.Group.List
import Mathlib.Algebra.Order.Group.Defs
import Mathlib.Order.Bounds.Basic
import Mathlib.Data.List.Induction

/-!
A sweep over dated changes of a quantity. With the changes in order of time,
and at each time those that lower it first, the greatest of the running sums is
the greatest level the quantity has at any time, or nothing where it never
rises above what it starts from.
-/
namespace EventQuant.Sweep

variable {τ α : Type*} [AddCommGroup α]

def total (changes : List (τ × α)) : α := (changes.map Prod.snd).sum

theorem total_append (a b : List (τ × α)) : total (a ++ b) = total a + total b := by
  unfold total
  rw [List.map_append, List.sum_append]

def level [LinearOrder τ] (changes : List (τ × α)) (t : τ) : α := total (changes.filter fun change => change.1 ≤ t)

theorem level_append [LinearOrder τ] (a b : List (τ × α)) (t : τ) :
    level (a ++ b) t = level a t + level b t := by
  unfold level
  rw [List.filter_append, total_append]

/-- The level is the same whatever order the changes are listed in. -/
theorem level_perm [LinearOrder τ] {changes changes' : List (τ × α)} (h : changes.Perm changes') (t : τ) :
    level changes t = level changes' t :=
  ((h.filter _).map Prod.snd).sum_eq

variable [LinearOrder α]

def step (s : α × α) (change : τ × α) : α × α := (s.1 + change.2, max s.2 (s.1 + change.2))

def peak (changes : List (τ × α)) : α := (changes.foldl step (0, 0)).2

theorem running_eq_total (changes : List (τ × α)) : (changes.foldl step (0, 0)).1 = total changes := by
  induction changes using List.reverseRecOn with
  | nil => rfl
  | append_singleton changes change ih =>
    rw [List.foldl_append, total_append, ← ih]
    simp [step, total]

theorem peak_append (changes : List (τ × α)) (change : τ × α) :
    peak (changes ++ [change]) = max (peak changes) (total (changes ++ [change])) := by
  unfold peak
  rw [List.foldl_append, total_append, ← running_eq_total]
  simp [step, total]

/-- The peak is the greatest of the sums on the way. -/
theorem isGreatest_peak (changes : List (τ × α)) :
    IsGreatest {a | ∃ made, made <+: changes ∧ total made = a} (peak changes) := by
  induction changes using List.reverseRecOn with
  | nil =>
    refine ⟨⟨[], List.prefix_refl _, rfl⟩, fun a ha => ?_⟩
    obtain ⟨made, hmade, rfl⟩ := ha
    rw [List.prefix_nil.mp hmade]
    exact le_refl _
  | append_singleton changes change ih =>
    obtain ⟨⟨made, hmade, hpeak⟩, hle⟩ := ih
    rw [peak_append]
    constructor
    · rcases max_choice (peak changes) (total (changes ++ [change])) with h | h
      · rw [h]
        exact ⟨made, hmade.trans (List.prefix_append _ _), hpeak⟩
      · rw [h]
        exact ⟨_, List.prefix_refl _, rfl⟩
    · intro a ha
      obtain ⟨made, hmade, rfl⟩ := ha
      rcases List.prefix_concat_iff.mp hmade with rfl | hmade
      · exact le_max_right _ _
      · exact le_max_of_le_left (hle ⟨made, hmade, rfl⟩)

theorem peak_nonneg (changes : List (τ × α)) : 0 ≤ peak changes :=
  (isGreatest_peak changes).2 ⟨[], List.nil_prefix, rfl⟩

variable [LinearOrder τ]

/-- In order of time, what lowers the quantity first. -/
def Before (a b : τ × α) : Prop := a.1 < b.1 ∨ a.1 = b.1 ∧ (0 < a.2 → 0 < b.2)

variable {changes made : List (τ × α)}

/-- In order of time the changes up to a time come first. -/
theorem filter_prefix {β : Type*} {changes : List (τ × β)}
    (hsorted : changes.Pairwise fun a b => a.1 ≤ b.1) (t : τ) :
    (changes.filter fun change => change.1 ≤ t) <+: changes := by
  induction changes with
  | nil => exact List.prefix_refl _
  | cons change changes ih =>
    obtain ⟨hfirst, hrest⟩ := List.pairwise_cons.mp hsorted
    by_cases hchange : change.1 ≤ t
    · rw [List.filter_cons_of_pos (by simpa using hchange)]
      exact (List.prefix_cons_inj change).mpr (ih hrest)
    · have hnone : (change :: changes).filter (fun change => change.1 ≤ t) = [] := by
        refine List.filter_eq_nil_iff.mpr fun c hc => ?_
        rcases List.mem_cons.mp hc with rfl | hc
        · simpa using hchange
        · have := hfirst c hc
          simpa using lt_of_lt_of_le (not_le.mp hchange) this
      rw [hnone]
      exact List.nil_prefix

theorem Before.time_le {a b : τ × α} (h : Before a b) : a.1 ≤ b.1 :=
  h.elim le_of_lt fun h => h.1.le

/-- The level at a time is one of the sums on the way. -/
theorem level_le_peak (hsorted : changes.Pairwise Before) (t : τ) :
    level changes t ≤ peak changes :=
  (isGreatest_peak changes).2 ⟨_, filter_prefix (hsorted.imp Before.time_le) t, rfl⟩

variable [IsOrderedAddMonoid α]

/-- After a change that raises the quantity, what is left at its time raises it
too. -/
theorem total_le_level {rest : List (τ × α)} {change : τ × α}
    (hsorted : (made ++ [change] ++ rest).Pairwise Before) (hraise : 0 < change.2) :
    total (made ++ [change]) ≤ level (made ++ [change] ++ rest) change.1 := by
  obtain ⟨hmade, -, hacross⟩ := List.pairwise_append.mp hsorted
  have hall : (made ++ [change]).filter (fun c => c.1 ≤ change.1) = made ++ [change] := by
    refine List.filter_eq_self.mpr fun c hc => ?_
    rcases List.mem_append.mp hc with hc | hc
    · have hbefore := (List.pairwise_append.mp hmade).2.2 c hc change List.mem_cons_self
      simpa using hbefore.time_le
    · obtain rfl := List.mem_singleton.mp hc
      simp
  have hrest : 0 ≤ total (rest.filter fun c => c.1 ≤ change.1) := by
    refine List.sum_nonneg fun a ha => ?_
    obtain ⟨c, hc, rfl⟩ := List.mem_map.mp ha
    obtain ⟨hmem, hle⟩ := List.mem_filter.mp hc
    have hle : c.1 ≤ change.1 := by simpa using hle
    rcases hacross change (List.mem_append_right _ List.mem_cons_self) c hmem with hlt | ⟨-, hpos⟩
    · exact absurd hle (not_le.mpr hlt)
    · exact (hpos hraise).le
  unfold level
  rw [List.filter_append, hall, total_append _ (rest.filter _)]
  exact le_add_of_nonneg_right hrest

/-- A sum on the way is nothing or no more than the level at some time: the
changes that lower the quantity may be taken back from its end. -/
theorem total_le_of_prefix (hsorted : changes.Pairwise Before) (hmade : made <+: changes) :
    total made ≤ 0 ∨ ∃ t, total made ≤ level changes t := by
  induction made using List.reverseRecOn with
  | nil => exact Or.inl (le_refl _)
  | append_singleton made change ih =>
    by_cases hraise : 0 < change.2
    · obtain ⟨rest, rfl⟩ := hmade
      exact Or.inr ⟨change.1, total_le_level hsorted hraise⟩
    · have hless : total (made ++ [change]) ≤ total made := by
        rw [total_append]
        refine add_le_of_nonpos_right ?_
        simpa [total] using not_lt.mp hraise
      obtain h | ⟨t, h⟩ := ih ((List.prefix_append _ _).trans hmade)
      · exact Or.inl (hless.trans h)
      · exact Or.inr ⟨t, hless.trans h⟩

/-- The peak is nothing, or the level at a time. -/
theorem peak_cases (hsorted : changes.Pairwise Before) :
    peak changes = 0 ∨ ∃ t, peak changes = level changes t := by
  obtain ⟨made, hmade, hpeak⟩ := (isGreatest_peak changes).1
  rcases total_le_of_prefix hsorted hmade with h | ⟨t, h⟩
  · exact Or.inl (le_antisymm (hpeak ▸ h) (peak_nonneg changes))
  · exact Or.inr ⟨t, le_antisymm (hpeak ▸ h) (level_le_peak hsorted t)⟩

end EventQuant.Sweep
