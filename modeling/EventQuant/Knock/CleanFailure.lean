import EventQuant.Knock.Books

/-!
When a member's clean result is a verdict on every send. A reply handled in
time leaves an order or an ambiguous item unless it is a verdict against the
send; a reply handled past the member's drain, and a request still out when
the result is taken, leave neither.
-/
namespace EventQuant.Knock

open Runs Venue

def Reply.Against (rep : Reply) : Prop := rep.failure = none ∧ rep.verdict.Against

def MemberResult.Clean (r : MemberResult) : Prop := r.accepted = [] ∧ r.ambiguous = []

namespace MemberState

/-- A reply in time is a verdict against its send, or leaves an order or an
ambiguous item. -/
theorem onReply_inTime (now : ℤ) (rep : Reply) (m : MemberState) (htime : InTime now m) :
    rep.Against ∨ rep.outcome ∈ (m.onReply now rep).accepted ∨
      (m.onReply now rep).ambiguous.list ≠ [] := by
  unfold onReply
  rw [if_neg (by simpa [InTime] using htime)]
  split
  · exact Or.inr (Or.inr (List.ne_nil_of_mem (by simpa using m.ambiguous.mem_text_list _)))
  · rename_i hfailure
    split
    · exact Or.inr (Or.inr (m.ambiguous.firstOf_list_ne_nil _ _))
    · rename_i htransient
      have hquiet := (conclude_after now rep (m.counted.record now rep)).1
      by_cases haccepted : rep.verdict.accepted = true
      · have hrecord : m.counted.record now rep = m.counted.accept now rep := if_pos haccepted
        rw [hrecord] at hquiet ⊢
        rcases accept_cases now rep m.counted with ⟨⟨_, _, _, hi⟩, _⟩ | ⟨_, hkeep⟩
        · exact Or.inr (Or.inr (List.ne_nil_of_mem (hquiet.ambiguous _ hi)))
        · rw [hkeep] at hquiet ⊢
          exact Or.inr (Or.inl (hquiet.accepted ▸ (AList.mem_insert _).mpr (Or.inl rfl)))
      · exact Or.inl ⟨hfailure, by simpa using htransient, by simpa using haccepted⟩

/-- A leg with a registered order is in the result. -/
theorem result_accepted_ne_nil (m : MemberState) (o : String) (ho : o ∈ m.accepted)
    (hleg : o ∈ m.plan.legs.map Leg.outcome) : m.result.accepted ≠ [] := by
  obtain ⟨leg, hmem, rfl⟩ := List.mem_map.mp hleg
  obtain ⟨a, ha⟩ := Option.isSome_iff_exists.mp (AList.lookup_isSome.mpr ho)
  exact List.ne_nil_of_mem (List.mem_filterMap.mpr ⟨leg, hmem, ha⟩)

end MemberState

namespace Track

/-- Every reply handled in time was a verdict against its send, or the member
holds an order or an ambiguous item. -/
def Spoken (t : Track) : Prop :=
  ∀ h ∈ t.handled, h.late = false → h.reply.Against ∨
    (∃ o, o ∈ t.state.accepted) ∨ t.state.ambiguous.list ≠ []

/-- What a member holds, it goes on holding. -/
theorem Kept.holds {t t' : Track} (h : Kept t t')
    (hold : (∃ o, o ∈ t.state.accepted) ∨ t.state.ambiguous.list ≠ []) :
    (∃ o, o ∈ t'.state.accepted) ∨ t'.state.ambiguous.list ≠ [] := by
  rcases hold with ⟨o, ho⟩ | hne
  · obtain ⟨a, ha⟩ := Option.isSome_iff_exists.mp (AList.lookup_isSome.mpr ho)
    obtain ⟨a', ha', _⟩ := h.ids o a ha
    exact Or.inl ⟨o, AList.lookup_isSome.mp (by simp [ha'])⟩
  · obtain ⟨i, hi⟩ := List.exists_mem_of_ne_nil _ hne
    exact Or.inr (List.ne_nil_of_mem (h.ambiguous i hi))

theorem Step.spoken {t t' : Track} (h : Step t t') (ht : Spoken t) : Spoken t' := by
  have hkept := h.kept
  -- a reply handled before stays spoken for, whatever the step is
  have hbefore : ∀ x ∈ t.handled, x.late = false → x.reply.Against ∨
      (∃ o, o ∈ t'.state.accepted) ∨ t'.state.ambiguous.list ≠ [] :=
    fun x hx hlate => (ht x hx hlate).imp_right hkept.holds
  cases h with
  | idle => exact ht
  | slot limits now =>
    have hsame : (t.onSlot limits now).handled = t.handled := by
      unfold Track.onSlot
      split <;> rfl
    intro x hx
    exact hbefore x (hsame ▸ hx)
  | reply now send rep hsend hleg =>
    intro x hx hlate
    rcases List.mem_append.mp hx with hx | hx
    · exact hbefore x hx hlate
    · rw [List.mem_singleton] at hx
      subst hx
      rcases MemberState.onReply_inTime now rep t.state hlate with hagainst | hin | hambiguous
      · exact Or.inl hagainst
      · exact Or.inr (Or.inl ⟨_, hin⟩)
      · exact Or.inr (Or.inr hambiguous)
  | failed now failure => exact hbefore
  | stopping now => exact hbefore
  | timer limits now => exact hbefore

theorem run_spoken {m : Member} {t : Track} (h : Run Step (start (MemberState.start m)) t) :
    Spoken t :=
  run_preserves Spoken (fun _ _ hstep ht => Step.spoken hstep ht) h
    (fun _ hx => absurd hx List.not_mem_nil)

def Decided (t : Track) : Prop :=
  ∀ s ∈ t.sent, ∃ h ∈ t.handled, h.send = s ∧ h.reply.Against

def Drained (t : Track) : Prop :=
  t.outstanding = [] ∧ ∀ h ∈ t.handled, h.late = true → h.reply.Against

/-- A clean result decides every send exactly when nothing was left to drain. -/
theorem decided_iff_drained {t : Track} (hbooks : Books t) (hspoken : Spoken t)
    (hclean : t.state.result.Clean) : t.Decided ↔ t.Drained := by
  have hnodup := hbooks.settled.nodup_iff.mpr hbooks.sent_nodup
  rw [List.nodup_append] at hnodup
  obtain ⟨_, hhandled, hdisjoint⟩ := hnodup
  have hsent : ∀ s, s ∈ t.sent ↔ s ∈ t.outstanding ∨ s ∈ t.handled.map Handled.send := by
    intro s
    rw [← hbooks.settled.mem_iff, List.mem_append]
  constructor
  · intro hdecided
    constructor
    · apply List.eq_nil_iff_forall_not_mem.mpr
      intro s hs
      obtain ⟨h, hh, rfl, _⟩ := hdecided s ((hsent s).mpr (Or.inl hs))
      exact hdisjoint _ hs _ (List.mem_map_of_mem hh) rfl
    · intro h hh _
      obtain ⟨h', hh', hsend, hagainst⟩ :=
        hdecided h.send ((hsent _).mpr (Or.inr (List.mem_map_of_mem hh)))
      exact List.inj_on_of_nodup_map hhandled hh' hh hsend ▸ hagainst
  · rintro ⟨hout, hlate⟩ s hs
    obtain ⟨h, hh, rfl⟩ : ∃ h ∈ t.handled, h.send = s := by
      rcases (hsent s).mp hs with hs | hs
      · simp [hout] at hs
      · exact List.mem_map.mp hs
    refine ⟨h, hh, rfl, ?_⟩
    cases hwhen : h.late with
    | true => exact hlate h hh hwhen
    | false =>
      rcases hspoken h hh hwhen with hagainst | ⟨o, ho⟩ | hambiguous
      · exact hagainst
      · exact absurd hclean.1 (t.state.result_accepted_ne_nil o ho (hbooks.registered o ho))
      · exact absurd hclean.2 hambiguous

end Track

end EventQuant.Knock
