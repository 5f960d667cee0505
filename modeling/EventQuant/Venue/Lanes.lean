import Mathlib

/-!
The connections an order request can ride on: how many there are, how many
requests each may carry, and which one the next request takes.
-/
namespace EventQuant.Venue

def lanes : ℕ := 15

def streamsPerLane : ℕ := 100

/-- `(*Venue).Pick` over the requests each lane carries: the first lane with a
stream to spare, else the least loaded one. The scan keeps the lane chosen so
far and stops at the first lane below the limit. -/
def pickFrom (carrying : List ℕ) (chosen : ℕ) (i : ℕ) : List ℕ → ℕ
  | [] => chosen
  | load :: rest =>
    if load < streamsPerLane then i
    else if load < carrying.getD chosen 0 then pickFrom carrying i (i + 1) rest
    else pickFrom carrying chosen (i + 1) rest

def pick (carrying : List ℕ) : ℕ := pickFrom carrying 0 0 carrying

/-- The scan returns the lane chosen so far or one it has still to pass. -/
theorem pickFrom_range (carrying : List ℕ) (chosen i : ℕ) (rest : List ℕ) :
    pickFrom carrying chosen i rest = chosen ∨
      i ≤ pickFrom carrying chosen i rest ∧
        pickFrom carrying chosen i rest < i + rest.length := by
  induction rest generalizing chosen i with
  | nil => exact Or.inl rfl
  | cons load rest ih =>
    unfold pickFrom
    split
    · exact Or.inr ⟨Nat.le_refl i, by simp⟩
    · split
      · rcases ih i (i + 1) with h | ⟨hlow, hhigh⟩
        · exact Or.inr ⟨by omega, by rw [h]; simp⟩
        · exact Or.inr ⟨by omega, by simp only [List.length_cons]; omega⟩
      · rcases ih chosen (i + 1) with h | ⟨hlow, hhigh⟩
        · exact Or.inl h
        · exact Or.inr ⟨by omega, by simp only [List.length_cons]; omega⟩

theorem pick_lt (carrying : List ℕ) (hne : carrying ≠ []) : pick carrying < carrying.length := by
  have hpos := List.length_pos_iff.mpr hne
  rcases pickFrom_range carrying 0 0 carrying with h | ⟨_, h⟩
  · rw [pick, h]
    exact hpos
  · simpa [pick] using h

/-- With a stream to spare anywhere, the lane picked has one. -/
theorem pickFrom_spare (carrying : List ℕ) (chosen : ℕ) (passed rest : List ℕ)
    (hsplit : carrying = passed ++ rest) (hspare : ∃ load ∈ rest, load < streamsPerLane) :
    carrying.getD (pickFrom carrying chosen passed.length rest) 0 < streamsPerLane := by
  induction rest generalizing chosen passed with
  | nil => simp at hspare
  | cons load rest ih =>
    unfold pickFrom
    split
    · rename_i hload
      subst hsplit
      simpa [List.getD_eq_getElem?_getD] using hload
    · rename_i hfull
      have hrest : ∃ load ∈ rest, load < streamsPerLane := by
        obtain ⟨l, hl, hlt⟩ := hspare
        rcases List.mem_cons.mp hl with rfl | hl
        · exact absurd hlt hfull
        · exact ⟨l, hl, hlt⟩
      have hnext : carrying = (passed ++ [load]) ++ rest := by simpa using hsplit
      have hlength : (passed ++ [load]).length = passed.length + 1 := by simp
      split
      · exact hlength ▸ ih passed.length (passed ++ [load]) hnext hrest
      · exact hlength ▸ ih chosen (passed ++ [load]) hnext hrest

theorem pick_spare (carrying : List ℕ) (hspare : ∃ load ∈ carrying, load < streamsPerLane) :
    carrying.getD (pick carrying) 0 < streamsPerLane :=
  pickFrom_spare carrying 0 [] carrying rfl hspare

def FirstFit (carrying : List ℕ) (lane : ℕ) : Prop :=
  (carrying.getD lane 0 < streamsPerLane ∧ ∀ j < lane, streamsPerLane ≤ carrying.getD j 0) ∨
    (∀ load ∈ carrying, streamsPerLane ≤ load) ∧ ∀ load ∈ carrying, carrying.getD lane 0 ≤ load

/-- The scan past full lanes, from the least loaded of them. -/
theorem pickFrom_firstFit (carrying : List ℕ) (chosen : ℕ) (passed rest : List ℕ)
    (hsplit : carrying = passed ++ rest) (hfull : ∀ load ∈ passed, streamsPerLane ≤ load)
    (hleast : ∀ load ∈ passed, carrying.getD chosen 0 ≤ load) :
    FirstFit carrying (pickFrom carrying chosen passed.length rest) := by
  induction rest generalizing chosen passed with
  | nil =>
    obtain rfl : carrying = passed := by simpa using hsplit
    exact .inr ⟨hfull, hleast⟩
  | cons load rest ih =>
    have hnext : carrying = (passed ++ [load]) ++ rest := by simpa using hsplit
    have hlength : (passed ++ [load]).length = passed.length + 1 := by simp
    have hload : carrying.getD passed.length 0 = load := by
      rw [hsplit]
      simp [List.getD_eq_getElem?_getD]
    unfold pickFrom
    split
    · rename_i hspare
      refine .inl ⟨by rw [hload]; exact hspare, fun j hj => ?_⟩
      have hpassed : carrying.getD j 0 = passed.getD j 0 := by
        rw [hsplit, List.getD_append _ _ _ _ hj]
      rw [hpassed, List.getD_eq_getElem _ _ hj]
      exact hfull _ (List.getElem_mem hj)
    · rename_i hnone
      have hfull' : ∀ l ∈ passed ++ [load], streamsPerLane ≤ l := by
        intro l hl
        rcases List.mem_append.mp hl with hl | hl
        · exact hfull l hl
        · rw [List.mem_singleton.mp hl]
          omega
      split
      · rename_i hless
        refine hlength ▸ ih passed.length (passed ++ [load]) hnext hfull' fun l hl => ?_
        rw [hload]
        rcases List.mem_append.mp hl with hl | hl
        · exact hless.le.trans (hleast l hl)
        · exact (List.mem_singleton.mp hl).ge
      · rename_i hmore
        refine hlength ▸ ih chosen (passed ++ [load]) hnext hfull' fun l hl => ?_
        rcases List.mem_append.mp hl with hl | hl
        · exact hleast l hl
        · rw [List.mem_singleton.mp hl]
          omega

theorem pick_firstFit (carrying : List ℕ) : FirstFit carrying (pick carrying) :=
  pickFrom_firstFit carrying 0 [] carrying rfl (by simp) (by simp)

end EventQuant.Venue
