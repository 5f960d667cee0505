import EventQuant.Knock.Books

/-!
Which order ids a member holds. The id kept for a leg came with an accepting
reply handled in time; a later one for the leg names the same id, or the
member says which two disagree.
-/
namespace EventQuant.Knock

open Runs

/-- A reply in time that carries the id of an order the venue holds. -/
structure Handled.Accepts (h : Handled) : Prop where
  inTime : h.late = false
  sent : h.reply.failure = none
  verdict : h.reply.verdict.transient = false
  accepted : h.reply.verdict.accepted = true

def conflictItem (a : AcceptedOrder) (rep : Reply) : Item :=
  .text (MemberState.conflictText rep.outcome a.orderId rep.verdict.orderId)

namespace MemberState

/-- After an accepting reply in time its leg has an id: this one, or the one
it had, and then the member says so. -/
theorem onReply_accepts (now : ℤ) (rep : Reply) (m : MemberState) (htime : InTime now m)
    (hsent : rep.failure = none) (hverdict : rep.verdict.transient = false)
    (haccepted : rep.verdict.accepted = true) :
    (∃ a, (m.onReply now rep).accepted.lookup rep.outcome = some a ∧
        a.orderId = rep.verdict.orderId) ∨
      (∃ a, m.accepted.lookup rep.outcome = some a ∧ a.orderId ≠ rep.verdict.orderId ∧
        conflictItem a rep ∈ (m.onReply now rep).ambiguous.list) := by
  have hreply : m.onReply now rep = (m.counted.accept now rep).conclude now rep := by
    unfold onReply record
    rw [if_neg (by simpa [InTime] using htime), hsent]
    simp [hverdict, haccepted]
  have hquiet := (conclude_after now rep (m.counted.accept now rep)).1
  rw [hreply]
  rcases accept_cases now rep m.counted with ⟨⟨a, ha, hother, hsaid⟩, _⟩ | ⟨_, hkeep⟩
  · exact Or.inr ⟨a, ha, hother, hquiet.ambiguous _ hsaid⟩
  · rw [hkeep] at hquiet ⊢
    refine Or.inl ⟨⟨rep.outcome, rep.verdict.orderId, rep.status, rep.body⟩, ?_, rfl⟩
    rw [hquiet.accepted]
    exact AList.lookup_insert _

end MemberState

namespace Track

/-- Each id came with an accepting reply, and each accepting reply either names
its leg's id or is answered for by the reply that came first. -/
structure Registrations (t : Track) : Prop where
  named : ∀ (o : String) (a : AcceptedOrder), t.state.accepted.lookup o = some a → a.outcome = o
  carried : ∀ (o : String) (a : AcceptedOrder), t.state.accepted.lookup o = some a →
    ∃ h ∈ t.handled, h.Accepts ∧ h.reply.outcome = o ∧ h.reply.verdict.orderId = a.orderId
  told : ∀ (before : List Handled) (h : Handled) (after : List Handled),
    t.handled = before ++ h :: after → h.Accepts →
    ∃ a, t.state.accepted.lookup h.reply.outcome = some a ∧
      (a.orderId = h.reply.verdict.orderId ∨
        ((∃ first ∈ before, first.Accepts ∧ first.reply.outcome = h.reply.outcome ∧
            first.reply.verdict.orderId = a.orderId) ∧
          a.orderId ≠ h.reply.verdict.orderId ∧ conflictItem a h.reply ∈ t.state.ambiguous.list))

theorem start_registrations (m : Member) : Registrations (start (MemberState.start m)) where
  named o a ha := by simp [start, MemberState.start] at ha
  carried o a ha := by simp [start, MemberState.start] at ha
  told before h after hsplit := by simp [start] at hsplit

/-- What was told of a leg stays true while the member keeps what it holds. -/
theorem Kept.told {t t' : Track} (hkept : Kept t t') {o : String} {rep : Reply}
    {before : List Handled}
    (h : ∃ a, t.state.accepted.lookup o = some a ∧ (a.orderId = rep.verdict.orderId ∨
      ((∃ first ∈ before, first.Accepts ∧ first.reply.outcome = o ∧
          first.reply.verdict.orderId = a.orderId) ∧
        a.orderId ≠ rep.verdict.orderId ∧ conflictItem a rep ∈ t.state.ambiguous.list))) :
    ∃ a, t'.state.accepted.lookup o = some a ∧ (a.orderId = rep.verdict.orderId ∨
      ((∃ first ∈ before, first.Accepts ∧ first.reply.outcome = o ∧
          first.reply.verdict.orderId = a.orderId) ∧
        a.orderId ≠ rep.verdict.orderId ∧ conflictItem a rep ∈ t'.state.ambiguous.list)) := by
  obtain ⟨a, ha, htold⟩ := h
  obtain ⟨a', ha', hid⟩ := hkept.ids o a ha
  refine ⟨a', ha', ?_⟩
  unfold conflictItem at htold ⊢
  rw [hid]
  exact htold.imp_right fun ⟨hfirst, hother, hsaid⟩ => ⟨hfirst, hother, hkept.ambiguous _ hsaid⟩

/-- A step that handles no reply changes no registration. -/
theorem Registrations.quiet {t : Track} (h : Registrations t) {m : MemberState}
    (hm : MemberState.Quiet t.state m) : Registrations { t with state := m } where
  named o a ha := h.named o a (by rw [← hm.accepted]; exact ha)
  carried o a ha := h.carried o a (by rw [← hm.accepted]; exact ha)
  told before x after hsplit hx :=
    have hkept : Kept t { t with state := m } := Kept.quiet hm
    hkept.told (h.told before x after hsplit hx)

theorem Registrations.onReply {t : Track} (h : Registrations t) (now : ℤ) (send : Send)
    (rep : Reply) : Registrations (t.onReply now send rep) := by
  have hkept := Kept.onReply t now send rep
  refine ⟨?_, ?_, ?_⟩
  · intro o a ha
    rcases t.state.onReply_cases now rep with hquiet | ⟨_, _, hquiet, _⟩
    · have hsame : (t.onReply now send rep).state.accepted = t.state.accepted := hquiet.accepted
      exact h.named o a (hsame ▸ ha)
    · have hsame : (t.onReply now send rep).state.accepted =
          (t.state.counted.keep rep).accepted := hquiet.accepted
      rw [hsame] at ha
      by_cases ho : o = rep.outcome
      · subst ho
        obtain rfl : _ = a := Option.some.inj ((AList.lookup_insert _).symm.trans ha)
        rfl
      · exact h.named o a ((AList.lookup_insert_ne ho).symm.trans ha)
  · intro o a ha
    have hold : ∀ b, t.state.accepted.lookup o = some b →
        ∃ x ∈ (t.onReply now send rep).handled, x.Accepts ∧ x.reply.outcome = o ∧
          x.reply.verdict.orderId = b.orderId := by
      intro b hb
      obtain ⟨x, hx, hrest⟩ := h.carried o b hb
      exact ⟨x, List.mem_append_left _ hx, hrest⟩
    rcases t.state.onReply_cases now rep with hquiet | ⟨htime, hregisters, hquiet, _⟩
    · refine hold a ?_
      have hsame : (t.onReply now send rep).state.accepted = t.state.accepted := hquiet.accepted
      rwa [hsame] at ha
    · have hsame : (t.onReply now send rep).state.accepted =
          (t.state.counted.keep rep).accepted := hquiet.accepted
      rw [hsame] at ha
      by_cases ho : o = rep.outcome
      · subst ho
        obtain rfl : _ = a := Option.some.inj ((AList.lookup_insert _).symm.trans ha)
        exact ⟨_, List.mem_append_right _ (List.mem_singleton_self _),
          ⟨htime, hregisters.1, hregisters.2.1, hregisters.2.2.1⟩, rfl, rfl⟩
      · exact hold a ((AList.lookup_insert_ne ho).symm.trans ha)
  · intro before x after hsplit hx
    rcases List.eq_nil_or_concat after with rfl | ⟨after, last, rfl⟩
    · -- the reply just handled
      obtain ⟨rfl, hlast⟩ := List.append_inj' hsplit rfl
      obtain rfl := (List.cons.inj hlast).1
      rcases t.state.onReply_accepts now rep hx.inTime hx.sent hx.verdict hx.accepted with
        ⟨a, ha, hid⟩ | ⟨a, ha, hother, hsaid⟩
      · exact ⟨a, ha, Or.inl hid⟩
      · obtain ⟨a', ha', hid⟩ := hkept.ids _ a ha
        refine ⟨a', ha', Or.inr ?_⟩
        unfold conflictItem at hsaid ⊢
        rw [hid]
        exact ⟨h.carried _ a ha, hother, hsaid⟩
    · have hbefore : t.handled = before ++ x :: after := by
        have hends : (t.onReply now send rep).handled = (before ++ x :: after) ++ [last] := by
          simpa using hsplit
        exact (List.append_inj' hends rfl).1
      exact hkept.told (h.told before x after hbefore hx)

theorem Step.registrations {t t' : Track} (h : Step t t') (ht : Registrations t) :
    Registrations t' := by
  cases h with
  | idle => exact ht
  | slot limits now =>
    rcases t.state.onSlot_cases limits now with ⟨m, hslot, hquiet⟩ | ⟨leg, hslot, _⟩
    · simp only [Track.onSlot, hslot]
      exact ht.quiet hquiet
    · simp only [Track.onSlot, hslot]
      exact ⟨ht.named, ht.carried, ht.told⟩
  | reply now send rep hsend hleg => exact ht.onReply now send rep
  | failed now failure => exact ht.quiet (t.state.onFailed_quiet now failure)
  | stopping now => exact ht.quiet (t.state.onStopping_quiet now)
  | timer limits now => exact ht.quiet (t.state.onTimer_quiet limits now)

theorem run_registrations {m : Member} {t : Track}
    (h : Run Step (start (MemberState.start m)) t) : Registrations t :=
  run_preserves Registrations (fun _ _ hstep ht => Step.registrations hstep ht) h
    (start_registrations m)

/-- A registered leg of the member is in its result. -/
theorem mem_result {t : Track} (hbooks : Books t) {o : String} {a : AcceptedOrder}
    (ha : t.state.accepted.lookup o = some a) : a ∈ t.state.result.accepted := by
  have ho : o ∈ t.state.accepted := AList.lookup_isSome.mp (by simp [ha])
  obtain ⟨leg, hleg, rfl⟩ := List.mem_map.mp (hbooks.registered o ho)
  exact List.mem_filterMap.mpr ⟨leg, hleg, ha⟩

end Track

end EventQuant.Knock
