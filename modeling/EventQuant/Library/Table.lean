import Mathlib

/-!
A table of rows told apart by a key, in the order the rows were written.
Putting a row replaces the one with its key and moves to the end; an update
changes chosen rows where they stand and leaves their keys.
-/
namespace EventQuant

variable {κ ρ : Type*} {key : ρ → κ}

structure Table (κ ρ : Type*) (key : ρ → κ) where
  rows : List ρ
  distinct : (rows.map key).Nodup

namespace Table

def empty : Table κ ρ key := ⟨[], List.nodup_nil⟩

def update (t : Table κ ρ key) (chosen : ρ → Bool) (f : ρ → ρ) (hf : ∀ r, key (f r) = key r) :
    Table κ ρ key where
  rows := t.rows.map fun r => if chosen r then f r else r
  distinct := by
    have hkeys : (key ∘ fun r => if chosen r then f r else r) = key := by
      funext r
      simp only [Function.comp]
      split
      · exact hf r
      · rfl
    rw [List.map_map, hkeys]
    exact t.distinct

variable [DecidableEq κ]

def get? (t : Table κ ρ key) (k : κ) : Option ρ := t.rows.find? fun r => key r = k

def put (t : Table κ ρ key) (row : ρ) : Table κ ρ key where
  rows := t.rows.filter (fun r => key r ≠ key row) ++ [row]
  distinct := by
    rw [List.map_append, List.map_singleton, List.nodup_append]
    refine ⟨t.distinct.sublist (List.filter_sublist.map key), List.nodup_singleton _, ?_⟩
    intro k hk l hl
    obtain ⟨r, hr, rfl⟩ := List.mem_map.mp hk
    rw [List.mem_singleton] at hl
    subst hl
    simpa using (List.mem_filter.mp hr).2

theorem get?_eq_some_iff (t : Table κ ρ key) (k : κ) (r : ρ) :
    t.get? k = some r ↔ r ∈ t.rows ∧ key r = k := by
  constructor
  · intro h
    exact ⟨List.mem_of_find?_eq_some h, by simpa using List.find?_some h⟩
  · rintro ⟨hr, rfl⟩
    unfold get?
    cases hfind : t.rows.find? (fun r' => key r' = key r) with
    | none => simpa using List.find?_eq_none.mp hfind r hr
    | some r' =>
      have hkey : key r' = key r := by simpa using List.find?_some hfind
      rw [List.inj_on_of_nodup_map t.distinct (List.mem_of_find?_eq_some hfind) hr hkey]

theorem get?_key {t : Table κ ρ key} {k : κ} {r : ρ} (h : t.get? k = some r) : key r = k :=
  ((t.get?_eq_some_iff k r).mp h).2

theorem get?_mem {t : Table κ ρ key} {k : κ} {r : ρ} (h : t.get? k = some r) : r ∈ t.rows :=
  ((t.get?_eq_some_iff k r).mp h).1

theorem get?_of_mem {t : Table κ ρ key} {r : ρ} (h : r ∈ t.rows) : t.get? (key r) = some r :=
  (t.get?_eq_some_iff _ r).mpr ⟨h, rfl⟩

theorem get?_eq_none_iff (t : Table κ ρ key) (k : κ) :
    t.get? k = none ↔ ∀ r ∈ t.rows, key r ≠ k := by
  simp [get?]

theorem mem_put (t : Table κ ρ key) (row r : ρ) :
    r ∈ (t.put row).rows ↔ r = row ∨ (r ∈ t.rows ∧ key r ≠ key row) := by
  simp [put, or_comm]

@[simp] theorem get?_empty (k : κ) : (empty : Table κ ρ key).get? k = none := rfl

theorem get?_put (t : Table κ ρ key) (row : ρ) (k : κ) :
    (t.put row).get? k = if key row = k then some row else t.get? k := by
  split
  · rename_i hk
    exact (get?_eq_some_iff _ _ _).mpr ⟨(mem_put t row row).mpr (Or.inl rfl), hk⟩
  · rename_i hk
    cases ht : t.get? k with
    | none =>
      rw [get?_eq_none_iff] at ht ⊢
      intro r hr
      rcases (mem_put t row r).mp hr with rfl | ⟨hr, _⟩
      · exact hk
      · exact ht r hr
    | some r =>
      obtain ⟨hr, rfl⟩ := (get?_eq_some_iff t k r).mp ht
      exact get?_of_mem ((mem_put t row r).mpr (Or.inr ⟨hr, fun h => hk h.symm⟩))

def erase (t : Table κ ρ key) (k : κ) : Table κ ρ key where
  rows := t.rows.filter fun r => key r ≠ k
  distinct := t.distinct.sublist (List.filter_sublist.map key)

theorem mem_erase (t : Table κ ρ key) (k : κ) (r : ρ) :
    r ∈ (t.erase k).rows ↔ r ∈ t.rows ∧ key r ≠ k := by
  simp [erase]

theorem get?_erase (t : Table κ ρ key) (k k' : κ) :
    (t.erase k).get? k' = if k = k' then none else t.get? k' := by
  split
  · rename_i hk
    rw [get?_eq_none_iff]
    exact fun r hr => hk ▸ ((mem_erase t k r).mp hr).2
  · rename_i hk
    cases ht : t.get? k' with
    | none =>
      rw [get?_eq_none_iff] at ht ⊢
      exact fun r hr => ht r ((mem_erase t k r).mp hr).1
    | some r =>
      obtain ⟨hr, rfl⟩ := (get?_eq_some_iff t k' r).mp ht
      exact get?_of_mem ((mem_erase t k r).mpr ⟨hr, fun h => hk h.symm⟩)

theorem get?_update (t : Table κ ρ key) (chosen : ρ → Bool) (f : ρ → ρ)
    (hf : ∀ r, key (f r) = key r) (k : κ) :
    (t.update chosen f hf).get? k = (t.get? k).map fun r => if chosen r then f r else r := by
  have hkeys : ∀ r, key (if chosen r then f r else r) = key r := by
    intro r
    split
    · exact hf r
    · rfl
  cases ht : t.get? k with
  | none =>
    rw [get?_eq_none_iff] at ht
    rw [Option.map_none, get?_eq_none_iff]
    intro r' hr'
    obtain ⟨r, hr, rfl⟩ := List.mem_map.mp hr'
    rw [hkeys]
    exact ht r hr
  | some r =>
    obtain ⟨hr, rfl⟩ := (get?_eq_some_iff t k r).mp ht
    exact (get?_eq_some_iff _ _ _).mpr ⟨List.mem_map_of_mem hr, hkeys r⟩

end Table

end EventQuant
