import Mathlib

/-!
A list of computations that may fail, run in turn: it returns when each of
them does, and then each result stands at its computation's place.
-/
namespace EventQuant.Results

universe u v

variable {ε : Type*} {α : Type u} {β : Type v}

theorem bind_ok {α β : Type u} {x : Except ε α} {f : α → Except ε β} {b : β} (h : x >>= f = .ok b) :
    ∃ a, x = .ok a ∧ f a = .ok b := by
  cases x with
  | error e => exact nomatch h
  | ok a => exact ⟨a, rfl, h⟩

theorem mapM_cons_ok {f : α → Except ε β} {a : α} {as : List α} {b : β} {bs : List β}
    (ha : f a = .ok b) (has : as.mapM f = .ok bs) : (a :: as).mapM f = .ok (b :: bs) := by
  rw [List.mapM_cons, ha, has]
  rfl

/-- Lists related place by place: what stands opposite an element. -/
theorem exists_right {R : α → β → Prop} {as : List α} {bs : List β} (h : List.Forall₂ R as bs)
    {a : α} (ha : a ∈ as) : ∃ b ∈ bs, R a b := by
  induction h with
  | nil => exact absurd ha List.not_mem_nil
  | @cons a' b as bs hab _ ih =>
    rcases List.mem_cons.mp ha with rfl | ha
    · exact ⟨b, List.mem_cons_self, hab⟩
    · obtain ⟨b', hb', hR⟩ := ih ha
      exact ⟨b', List.mem_cons_of_mem _ hb', hR⟩

theorem exists_left {R : α → β → Prop} {as : List α} {bs : List β} (h : List.Forall₂ R as bs)
    {b : β} (hb : b ∈ bs) : ∃ a ∈ as, R a b :=
  exists_right (List.Forall₂.flip (R := fun b a => R a b) h) hb

/-- What stands opposite two lists together stands opposite each. -/
theorem forall₂_append_left {R : α → β → Prop} {as as' : List α} {bs : List β}
    (h : List.Forall₂ R (as ++ as') bs) :
    ∃ bs₁ bs₂, List.Forall₂ R as bs₁ ∧ List.Forall₂ R as' bs₂ ∧ bs = bs₁ ++ bs₂ := by
  induction as generalizing bs with
  | nil => exact ⟨[], bs, .nil, h, rfl⟩
  | cons a as ih =>
    obtain ⟨b, bs, hab, hrest, rfl⟩ := List.forall₂_cons_left_iff.mp h
    obtain ⟨bs₁, bs₂, hfirst, hsecond, rfl⟩ := ih hrest
    exact ⟨b :: bs₁, bs₂, .cons hab hfirst, hsecond, rfl⟩

/-- Each result at its computation's place. -/
theorem forall₂_of_mapM {f : α → Except ε β} {as : List α} {bs : List β}
    (h : as.mapM f = .ok bs) : List.Forall₂ (fun a b => f a = .ok b) as bs := by
  induction as generalizing bs with
  | nil =>
    obtain rfl : [] = bs := Except.ok.inj h
    exact .nil
  | cons a as ih =>
    rw [List.mapM_cons] at h
    cases ha : f a with
    | error e => rw [ha] at h; cases h
    | ok b =>
      cases has : as.mapM f with
      | error e => rw [ha, has] at h; cases h
      | ok bs' =>
        rw [ha, has] at h
        obtain rfl : b :: bs' = bs := Except.ok.inj h
        exact .cons ha (ih has)

/-- What each element keeps of the one it stands opposite, the list keeps. -/
theorem map_of_forall₂ {γ : Type*} {R : α → β → Prop} {as : List α} {bs : List β} {g : α → γ}
    {k : β → γ} (h : List.Forall₂ R as bs) (hkeeps : ∀ a b, R a b → k b = g a) :
    bs.map k = as.map g := by
  induction h with
  | nil => rfl
  | @cons a b as bs hab _ ih => rw [List.map_cons, List.map_cons, ih, hkeeps a b hab]

theorem map_of_mapM {γ : Type*} {f : α → Except ε β} {as : List α} {bs : List β} {g : α → γ}
    {k : β → γ} (h : as.mapM f = .ok bs) (hkeeps : ∀ a b, f a = .ok b → k b = g a) :
    bs.map k = as.map g :=
  map_of_forall₂ (forall₂_of_mapM h) hkeeps

theorem mapM_returns {f : α → Except ε β} {as : List α} (h : ∀ a ∈ as, ∃ b, f a = .ok b) :
    ∃ bs, as.mapM f = .ok bs := by
  induction as with
  | nil => exact ⟨[], rfl⟩
  | cons a as ih =>
    obtain ⟨b, hb⟩ := h a List.mem_cons_self
    obtain ⟨bs, hbs⟩ := ih fun a' ha' => h a' (List.mem_cons_of_mem _ ha')
    exact ⟨b :: bs, mapM_cons_ok hb hbs⟩

/-- The result of a computation of the list. -/
theorem exists_result {f : α → Except ε β} {as : List α} {bs : List β}
    (h : as.mapM f = .ok bs) {a : α} (ha : a ∈ as) : ∃ b ∈ bs, f a = .ok b :=
  exists_right (forall₂_of_mapM h) ha

/-- The computation a result of the list came from. -/
theorem exists_source {f : α → Except ε β} {as : List α} {bs : List β}
    (h : as.mapM f = .ok bs) {b : β} (hb : b ∈ bs) : ∃ a ∈ as, f a = .ok b :=
  exists_left (forall₂_of_mapM h) hb

/-- The same for computations that may have no result. -/
theorem forall₂_of_mapM_some {f : α → Option β} {as : List α} {bs : List β}
    (h : as.mapM f = some bs) : List.Forall₂ (fun a b => f a = some b) as bs := by
  induction as generalizing bs with
  | nil =>
    obtain rfl : [] = bs := Option.some.inj h
    exact .nil
  | cons a as ih =>
    rw [List.mapM_cons] at h
    obtain ⟨b, hb, h⟩ := Option.bind_eq_some_iff.mp h
    obtain ⟨bs', hbs, h⟩ := Option.bind_eq_some_iff.mp h
    obtain rfl : b :: bs' = bs := Option.some.inj h
    exact .cons hb (ih hbs)

theorem exists_source_some {f : α → Option β} {as : List α} {bs : List β}
    (h : as.mapM f = some bs) {b : β} (hb : b ∈ bs) : ∃ a ∈ as, f a = some b :=
  exists_left (forall₂_of_mapM_some h) hb

theorem mapM_some {f : α → Option β} {g : α → β} {as : List α} (h : ∀ a ∈ as, f a = some (g a)) :
    as.mapM f = some (as.map g) := by
  induction as with
  | nil => rfl
  | cons a as ih =>
    rw [List.mapM_cons, h a List.mem_cons_self, ih fun a' ha' => h a' (List.mem_cons_of_mem _ ha')]
    rfl

/-- Where each one returns, the results are those that return. -/
theorem mapM_filterMap {f : α → Option β} {as : List α} (h : ∀ a ∈ as, (f a).isSome = true) :
    as.mapM f = some (as.filterMap f) := by
  induction as with
  | nil => rfl
  | cons a as ih =>
    obtain ⟨b, hb⟩ := Option.isSome_iff_exists.mp (h a List.mem_cons_self)
    rw [List.mapM_cons, hb, ih fun a' ha' => h a' (List.mem_cons_of_mem _ ha'),
      List.filterMap_cons_some hb]
    rfl

/-- One of the list without a result leaves the whole without. -/
theorem mapM_eq_none {f : α → Option β} {as : List α} (h : as.mapM f = none) :
    ∃ a ∈ as, f a = none := by
  induction as with
  | nil => cases h
  | cons a as ih =>
    cases ha : f a with
    | none => exact ⟨a, List.mem_cons_self, ha⟩
    | some b =>
      cases has : as.mapM f with
      | none =>
        obtain ⟨a', ha', hnone⟩ := ih has
        exact ⟨a', List.mem_cons_of_mem _ ha', hnone⟩
      | some bs =>
        rw [List.mapM_cons, ha, has] at h
        cases h

/-- Results without a repetition come from one element each. -/
theorem eq_of_nodup_filterMap {f : α → Option β} {as : List α} (h : (as.filterMap f).Nodup)
    {a a' : α} (ha : a ∈ as) (ha' : a' ∈ as) {b : β} (hb : f a = some b) (hb' : f a' = some b) :
    a = a' := by
  induction as with
  | nil => exact absurd ha List.not_mem_nil
  | cons first as ih =>
    cases hfirst : f first with
    | none =>
      rw [List.filterMap_cons_none hfirst] at h
      have hother : ∀ x, f x = some b → x ≠ first := by
        rintro x hx rfl
        rw [hfirst] at hx
        cases hx
      exact ih h ((List.mem_cons.mp ha).resolve_left (hother a hb))
        ((List.mem_cons.mp ha').resolve_left (hother a' hb'))
    | some c =>
      rw [List.filterMap_cons_some hfirst, List.nodup_cons] at h
      have hlater : ∀ x ∈ as, f x = some b → c ≠ b := by
        rintro x hx hfx rfl
        exact h.1 (List.mem_filterMap.mpr ⟨x, hx, hfx⟩)
      rcases List.mem_cons.mp ha with rfl | hrest
      · rcases List.mem_cons.mp ha' with rfl | hrest'
        · rfl
        · exact absurd (Option.some.inj (hfirst.symm.trans hb)) (hlater a' hrest' hb')
      · rcases List.mem_cons.mp ha' with rfl | hrest'
        · exact absurd (Option.some.inj (hfirst.symm.trans hb')) (hlater a hrest hb)
        · exact ih h.2 hrest hrest'

/-- What holds of the value, if one was returned, can be decided. -/
instance decidableForallOk {r : Except ε α} {P : α → Prop} [∀ a, Decidable (P a)] :
    Decidable (∀ a, r = .ok a → P a) :=
  match r with
  | .error _ => .isTrue fun _ h => nomatch h
  | .ok a => decidable_of_iff (P a) ⟨fun h _ ha => Except.ok.inj ha ▸ h, fun h => h a rfl⟩

end EventQuant.Results
