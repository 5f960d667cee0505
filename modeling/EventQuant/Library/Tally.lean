import Mathlib

/-!
Counting in a loop. A figure that goes up by one on the items of a kind ends as
the number of them. In a dictionary of counts a key that is there counts one
more where it stands and a new one comes last: it lists each key that occurs,
with the number of times it does.
-/
namespace EventQuant.Tally

/-- A figure of the loop's state that each item of a kind raises by one. -/
theorem foldl_count {σ ρ : Type*} {add : σ → ρ → σ} {figure : σ → ℕ} {p : ρ → Bool}
    (h : ∀ s r, figure (add s r) = figure s + if p r then 1 else 0) (rs : List ρ) (s : σ) :
    figure (rs.foldl add s) = figure s + rs.countP p := by
  induction rs generalizing s with
  | nil => rfl
  | cons r rs ih =>
    rw [List.foldl_cons, ih, h, List.countP_cons]
    omega

theorem foldl_length {σ ρ : Type*} {add : σ → ρ → σ} {figure : σ → ℕ}
    (h : ∀ s r, figure (add s r) = figure s + 1) (rs : List ρ) (s : σ) :
    figure (rs.foldl add s) = figure s + rs.length := by
  have hall : rs.countP (fun _ => true) = rs.length := by simp
  rw [← hall]
  exact foldl_count (fun s r => (h s r).trans (by simp)) rs s

variable {κ : Type*} [DecidableEq κ]

def note (counts : List (κ × ℕ)) (k : κ) : List (κ × ℕ) :=
  if k ∈ counts.map Prod.fst then counts.map fun (l, n) => if l = k then (l, n + 1) else (l, n)
  else counts ++ [(k, 1)]

def tally (ks : List κ) : List (κ × ℕ) := ks.foldl note []

theorem tally_append (ks : List κ) (k : κ) : tally (ks ++ [k]) = note (tally ks) k := by
  rw [tally, List.foldl_append]
  rfl

theorem mem_note {counts : List (κ × ℕ)} {k l : κ} {n : ℕ} :
    (l, n) ∈ note counts k ↔
      if l = k then (∃ m, (k, m) ∈ counts ∧ n = m + 1) ∨ k ∉ counts.map Prod.fst ∧ n = 1
      else (l, n) ∈ counts := by
  unfold note
  by_cases hknown : k ∈ counts.map Prod.fst
  · rw [if_pos hknown, List.mem_map]
    by_cases hl : l = k
    · subst hl
      rw [if_pos rfl]
      constructor
      · rintro ⟨⟨l', m⟩, hmem, heq⟩
        by_cases hl' : l' = l
        · subst hl'
          simp only [if_true, Prod.mk.injEq, true_and] at heq
          exact .inl ⟨m, hmem, heq.symm⟩
        · simp only [if_neg hl', Prod.mk.injEq] at heq
          exact absurd heq.1 hl'
      · rintro (⟨m, hmem, rfl⟩ | ⟨hnew, -⟩)
        · exact ⟨(l, m), hmem, by simp⟩
        · exact absurd hknown hnew
    · rw [if_neg hl]
      constructor
      · rintro ⟨⟨l', m⟩, hmem, heq⟩
        by_cases hl' : l' = k
        · simp only [if_pos hl', Prod.mk.injEq] at heq
          exact absurd (heq.1.symm.trans hl') hl
        · simp only [if_neg hl'] at heq
          exact heq ▸ hmem
      · exact fun hmem => ⟨(l, n), hmem, by simp [hl]⟩
  · rw [if_neg hknown, List.mem_append, List.mem_singleton, Prod.mk.injEq]
    by_cases hl : l = k
    · subst hl
      rw [if_pos rfl]
      constructor
      · rintro (hmem | ⟨-, rfl⟩)
        · exact absurd (List.mem_map_of_mem (f := Prod.fst) hmem) hknown
        · exact .inr ⟨hknown, rfl⟩
      · rintro (⟨m, hmem, -⟩ | ⟨-, rfl⟩)
        · exact absurd (List.mem_map_of_mem (f := Prod.fst) hmem) hknown
        · exact .inr ⟨rfl, rfl⟩
    · simp [hl]

/-- The entries are the keys that occur, with how often. -/
theorem mem_tally {ks : List κ} {k : κ} {n : ℕ} :
    (k, n) ∈ tally ks ↔ n = ks.count k ∧ 0 < n := by
  induction ks using List.reverseRecOn generalizing k n with
  | nil => simp [tally]
  | append_singleton ks k' ih =>
    have hmem : k' ∈ (tally ks).map Prod.fst ↔ 0 < ks.count k' := by
      rw [List.mem_map]
      constructor
      · rintro ⟨⟨l, m⟩, hentry, rfl⟩
        obtain ⟨rfl, hpos⟩ := ih.mp hentry
        exact hpos
      · exact fun hpos => ⟨(k', ks.count k'), ih.mpr ⟨rfl, hpos⟩, rfl⟩
    rw [tally_append, mem_note, List.count_append]
    by_cases hk : k = k'
    · subst hk
      rw [if_pos rfl, List.count_singleton_self, hmem]
      constructor
      · rintro (⟨m, hentry, rfl⟩ | ⟨hnew, rfl⟩)
        · obtain ⟨rfl, -⟩ := ih.mp hentry
          exact ⟨rfl, Nat.succ_pos _⟩
        · exact ⟨by omega, Nat.one_pos⟩
      · rintro ⟨rfl, -⟩
        by_cases hpos : 0 < ks.count k
        · exact .inl ⟨_, ih.mpr ⟨rfl, hpos⟩, rfl⟩
        · exact .inr ⟨hpos, by omega⟩
    · have hother : [k'].count k = 0 := List.count_singleton.trans (by simp [Ne.symm hk])
      rw [if_neg hk, ih, hother, Nat.add_zero]

end EventQuant.Tally
