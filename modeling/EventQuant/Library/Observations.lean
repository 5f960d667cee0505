import EventQuant.Library.Runs

/-!
What is observed of a run. Where each step acts on the observation alone, a run
of steps acts on it as their fold does; and where what the steps do to the
observation commutes, it is the same in every order they are taken in,
whatever else the order changes.
-/
namespace EventQuant.Runs

variable {σ τ ε ω : Type*} {cond : σ → τ × ε → Prop} {next : σ → τ × ε → σ} (obs : σ → ω)
  (effect : ω → ε → ω) {s : σ} {events events' : List (τ × ε)}

/-- The observation after a run is the fold of the effects of its events. -/
theorem observed_run (hstep : ∀ s e, cond s e → obs (next s e) = effect (obs s) e.2)
    (h : Meets cond next s events) :
    obs (events.foldl next s) = (events.map Prod.snd).foldl effect (obs s) := by
  induction events generalizing s with
  | nil => rfl
  | cons e events ih =>
    rw [List.foldl_cons, List.map_cons, List.foldl_cons, ih h.2, hstep s e h.1]

/-- Events that commute on the observation leave it the same in any order. -/
theorem observed_perm (hstep : ∀ s e, cond s e → obs (next s e) = effect (obs s) e.2)
    (hcomm : ∀ a ∈ events.map Prod.snd, ∀ b ∈ events.map Prod.snd, ∀ o,
      effect (effect o a) b = effect (effect o b) a)
    (hperm : (events.map Prod.snd).Perm (events'.map Prod.snd))
    (h : Meets cond next s events) (h' : Meets cond next s events') :
    obs (events.foldl next s) = obs (events'.foldl next s) := by
  rw [observed_run obs effect hstep h, observed_run obs effect hstep h']
  exact hperm.foldl_eq' (fun a ha b hb o => hcomm a ha b hb o) _

end EventQuant.Runs
