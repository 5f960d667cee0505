import Mathlib

/-!
A resource under a count of its holders, of any kind: the first holder changes
it and the last one puts it back. What the two changes lead between holds of it
by the count, and the count is that of the holders in a list while each of them
counts itself in and out.
-/
namespace EventQuant.Refcount

variable {σ α : Type*}

structure Counted (σ : Type*) where
  held : ℕ
  resource : σ
  deriving DecidableEq, Repr

namespace Counted

def acquire (first : σ → σ) (c : Counted σ) : Counted σ :=
  ⟨c.held + 1, if c.held = 0 then first c.resource else c.resource⟩

def release (last : σ → σ) (c : Counted σ) : Counted σ :=
  if c.held = 0 then c else ⟨c.held - 1, if c.held = 1 then last c.resource else c.resource⟩

@[simp] theorem acquire_held (first : σ → σ) (c : Counted σ) :
    (c.acquire first).held = c.held + 1 := rfl

@[simp] theorem release_held (last : σ → σ) (c : Counted σ) :
    (c.release last).held = c.held - 1 := by
  unfold release
  split
  · omega
  · rfl

/-- What holds of the resource without a holder, and with one. -/
structure Kept (free held : σ → Prop) (c : Counted σ) : Prop where
  free : c.held = 0 → free c.resource
  held : 0 < c.held → held c.resource

theorem Kept.acquire {free held : σ → Prop} {c : Counted σ} (h : c.Kept free held)
    {first : σ → σ} (hfirst : ∀ x, free x → held (first x)) :
    (c.acquire first).Kept free held := by
  constructor
  · intro hnone
    simp at hnone
  · intro _
    show held (if c.held = 0 then first c.resource else c.resource)
    split
    · rename_i hnone
      exact hfirst _ (h.free hnone)
    · rename_i hsome
      exact h.held (Nat.pos_of_ne_zero hsome)

theorem Kept.release {free held : σ → Prop} {c : Counted σ} (h : c.Kept free held)
    {last : σ → σ} (hlast : ∀ x, held x → free (last x)) :
    (c.release last).Kept free held := by
  unfold Counted.release
  split
  · exact h
  · rename_i hsome
    have hresource := h.held (Nat.pos_of_ne_zero hsome)
    constructor
    · intro hnone
      have hone : c.held = 1 := by
        simp only at hnone
        omega
      simp only [if_pos hone]
      exact hlast _ hresource
    · intro hmore
      have hone : ¬ c.held = 1 := by
        simp only at hmore
        omega
      simp only [if_neg hone]
      exact hresource

end Counted

/-! ### Holders in a list -/

variable {holds : α → Bool} {l : List α} {i : ℕ} {a b : α}

/-- A count that moves as one holder is counted in, out or neither. -/
inductive Moved (n : ℕ) : Bool → ℕ → Bool → Prop
  | same (b : Bool) : Moved n b n b
  | taken : Moved n false (n + 1) true
  | given : Moved n true (n - 1) false

/-- It goes on counting the holders of the list. -/
theorem Moved.count {n n' : ℕ} (hmoved : Moved n (holds a) n' (holds b)) (ha : l[i]? = some a)
    (hn : n = l.countP holds) : n' = (l.set i b).countP holds := by
  obtain ⟨hi, hget⟩ := List.getElem?_eq_some_iff.mp ha
  have hpos : holds a = true → 0 < l.countP holds := fun hheld =>
    List.countP_pos_iff.mpr ⟨a, List.mem_of_getElem? ha, hheld⟩
  rw [List.countP_set hi, hget]
  generalize holds a = was at hmoved hpos
  generalize holds b = is at hmoved
  cases hmoved with
  | same =>
    cases was with
    | false => simpa using hn
    | true =>
      have hsome := hpos rfl
      simp only [if_true]
      omega
  | taken => simpa using hn
  | given => simp [hn]

end EventQuant.Refcount
