import Mathlib

/-!
Runs of a step relation, with nothing assumed of states or steps. What holds
of the first state and survives each step holds of every state reached; what
one step does to a pair of states, a run does when the relation composes. The
guarded step keeps only the steps that meet a condition on the state they
start from and on the event they take.
-/
namespace EventQuant.Runs

open Relation

variable {σ ε : Type*}

abbrev Run (step : σ → σ → Prop) : σ → σ → Prop := ReflTransGen step

/-- The induction rule for invariants over a whole run. -/
theorem run_preserves {step : σ → σ → Prop} (inv : σ → Prop)
    (hstep : ∀ s t, step s t → inv s → inv t) {s t : σ}
    (hrun : Run step s t) (hs : inv s) : inv t := by
  induction hrun with
  | refl => exact hs
  | tail _ hlast ih => exact hstep _ _ hlast ih

/-- A reflexive and transitive relation that each step from a state of the
invariant stays inside relates both ends of a run. -/
theorem run_relates {step : σ → σ → Prop} (rel : σ → σ → Prop) (inv : σ → Prop)
    (hrefl : ∀ s, rel s s) (htrans : ∀ s t u, rel s t → rel t u → rel s u)
    (hinv : ∀ s t, step s t → inv s → inv t)
    (hrel : ∀ s t, step s t → inv s → rel s t) {s t : σ}
    (hrun : Run step s t) (hs : inv s) : rel s t := by
  induction hrun with
  | refl => exact hrefl s
  | @tail u v hpre hlast ih =>
    have hu : inv u := run_preserves inv hinv hpre hs
    exact htrans s u v ih (hrel u v hlast hu)

def Guarded (cond : σ → ε → Prop) (next : σ → ε → σ) (s t : σ) : Prop :=
  ∃ e, cond s e ∧ next s e = t

/-- Guarded runs stay inside a preorder that each allowed step stays inside. -/
theorem guarded_run_relates {cond : σ → ε → Prop} {next : σ → ε → σ}
    (rel : σ → σ → Prop) (hrefl : ∀ s, rel s s)
    (htrans : ∀ s t u, rel s t → rel t u → rel s u)
    (hrel : ∀ s e, cond s e → rel s (next s e)) {s t : σ}
    (hrun : Run (Guarded cond next) s t) : rel s t := by
  apply run_relates rel (fun _ => True) hrefl htrans (fun _ _ _ _ => trivial) ?_ hrun trivial
  rintro u v ⟨e, hcond, rfl⟩ _
  exact hrel u e hcond

/-- Events taken in turn are a run. -/
theorem run_of_events {next : σ → ε → σ} (s : σ) (events : List ε) :
    Run (fun s t => ∃ e, next s e = t) s (events.foldl next s) := by
  induction events generalizing s with
  | nil => exact .refl
  | cons e events ih => exact .head ⟨e, rfl⟩ (ih (next s e))

/-- Each event of the list is allowed in the state the ones before it lead to. -/
def Meets (cond : σ → ε → Prop) (next : σ → ε → σ) : σ → List ε → Prop
  | _, [] => True
  | s, e :: events => cond s e ∧ Meets cond next (next s e) events

instance Meets.instDecidable {cond : σ → ε → Prop} {next : σ → ε → σ}
    [∀ s e, Decidable (cond s e)] : ∀ (s : σ) (events : List ε), Decidable (Meets cond next s events)
  | _, [] => .isTrue trivial
  | s, e :: events =>
    have : Decidable (Meets cond next (next s e) events) := instDecidable (next s e) events
    inferInstanceAs (Decidable (cond s e ∧ Meets cond next (next s e) events))

/-- Allowed events, taken in turn, are a guarded run. -/
theorem run_of_meets {cond : σ → ε → Prop} {next : σ → ε → σ} {s : σ} {events : List ε}
    (h : Meets cond next s events) : Run (Guarded cond next) s (events.foldl next s) := by
  induction events generalizing s with
  | nil => exact .refl
  | cons e events ih => exact .head ⟨e, h.1, rfl⟩ (ih h.2)

end EventQuant.Runs
