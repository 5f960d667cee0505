import EventQuant.Library.Commits

/-!
What a program writes, of some kind: its commits read through a partial view.
A program writes as far as a list where, wherever it stops, what it wrote is the
list's beginning.
-/
namespace EventQuant

open Store

universe u

variable {σ ω ε β : Type*} {α γ : Type u}

/-- The commits write the list as far as they go. -/
def Writes (view : ω → Option β) (commits : List ω) (written : List β) : Prop :=
  commits.filterMap view <+: written

namespace Writes

variable {view : ω → Option β} {ws vs : List ω} {written later : List β}

theorem nothing (h : ∀ w ∈ ws, view w = none) : Writes view ws written := by
  unfold Writes
  rw [List.filterMap_eq_nil_iff.mpr h]
  exact List.nil_prefix

/-- A program cut short has written no more. -/
theorem take (h : Writes view ws written) (n : ℕ) : Writes view (ws.take n) written :=
  List.IsPrefix.trans ((List.take_prefix n ws).filterMap view) h

/-- Commits that are not of the kind, before or after. -/
theorem after_other (h : Writes view vs written) (hws : ∀ w ∈ ws, view w = none) :
    Writes view (ws ++ vs) written := by
  unfold Writes at h ⊢
  rwa [List.filterMap_append, List.filterMap_eq_nil_iff.mpr hws, List.nil_append]

theorem before_other (h : Writes view ws written) (hvs : ∀ w ∈ vs, view w = none) :
    Writes view (ws ++ vs) written := by
  unfold Writes at h ⊢
  rwa [List.filterMap_append, List.filterMap_eq_nil_iff.mpr hvs, List.append_nil]

end Writes

namespace Program

variable {view : ω → Option β} {written : List β}

theorem Emits.writes {p : Program σ ω ε α} (h : Emits (fun w => view w = none) p) (s : σ) :
    Writes view (p.commits s) written := .nothing (h s)

variable [Store σ ω]

/-- After a part that writes nothing of the kind, what is written is the rest's;
the rest is met only with what the part returned. -/
theorem writes_after {p : Program σ ω ε α} {f : α → Program σ ω ε γ} {s : σ}
    (hp : Emits (fun w => view w = none) p)
    (hf : ∀ a, p.result s = .ok a → Writes view ((f a).commits (p.after s)) written) :
    Writes view ((p.andThen f).commits s) written := by
  cases hresult : p.result s with
  | error e =>
    rw [commits_andThen_error hresult]
    exact hp.writes s
  | ok a =>
    rw [commits_andThen_ok hresult]
    exact (hf a hresult).after_other (hp s)

/-- Before parts that write nothing of the kind, what is written is the first's. -/
theorem writes_before {p : Program σ ω ε α} {f : α → Program σ ω ε γ} {s : σ}
    (hp : Writes view (p.commits s) written) (hf : ∀ a, Emits (fun w => view w = none) (f a)) :
    Writes view ((p.andThen f).commits s) written := by
  cases hresult : p.result s with
  | error e => rwa [commits_andThen_error hresult]
  | ok a =>
    rw [commits_andThen_ok hresult]
    exact hp.before_other (hf a _)

/-- A loop whose bodies each write their own item, or stop at it, writes the
items in their order as far as it comes. -/
theorem writes_forEach {ι : Type*} {items : List ι} {body : ι → Program σ ω ε Unit} {value : ι → β}
    (hbody : ∀ item ∈ items, ∀ t, ((body item).commits t).filterMap view = [value item] ∨
      ((body item).commits t).filterMap view = [] ∧ ∃ e, (body item).result t = .error e) (s : σ) :
    Writes view ((forEach items body).commits s) (items.map value) := by
  induction items generalizing s with
  | nil => exact List.prefix_refl _
  | cons item items ih =>
    have hrest := ih fun item' hitem' => hbody item' (List.mem_cons_of_mem _ hitem')
    unfold Writes at hrest ⊢
    rw [forEach_cons, List.map_cons]
    rcases hbody item List.mem_cons_self s with hwrote | ⟨hnothing, e, hstopped⟩
    · cases hresult : (body item).result s with
      | error e =>
        rw [commits_andThen_error hresult, hwrote]
        exact List.prefix_append [value item] _
      | ok _ =>
        rw [commits_andThen_ok hresult, List.filterMap_append, hwrote, List.singleton_append,
          List.cons_prefix_cons]
        exact ⟨rfl, hrest _⟩
    · rw [commits_andThen_error hstopped, hnothing]
      exact List.nil_prefix

end Program

end EventQuant
