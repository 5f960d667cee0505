import EventQuant.Knock.MemberSpec

/-!
The knock's deadline and its end. Whatever comes to the coordinator, a member
is stopped once and for good, at its own moment and with its own drain; a
timer at the deadline stops those that are left, and three seconds later the
knock is done. A member gave up when the knocking budget was what stopped it.
-/
namespace EventQuant.Knock

def Limits.deadline (l : Limits) : ℤ := ofUnixMilli (min l.knockUntil l.marketEndMs)

theorem Limits.deadline_le {l : Limits} {now : ℤ} :
    l.deadline ≤ now ↔ l.knockUntil ≤ unixMilli now ∨ l.marketEndMs ≤ unixMilli now := by
  unfold Limits.deadline ofUnixMilli unixMilli
  omega

def Limits.OutOfBudget (l : Limits) (now : ℤ) : Prop :=
  l.knockUntil ≤ unixMilli now ∧ unixMilli now < l.marketEndMs

namespace MemberState

def handle (limits : Limits) (now : ℤ) (place : ℕ) (m : MemberState) : Event → MemberState
  | .slot index => if index = place then (m.onSlot limits now).1 else m
  | .reply rep => if rep.member = place then m.onReply now rep else m
  | .giveUp _ => m
  | .failed failure => m.onFailed now failure
  | .stopping => m.onStopping now
  | .timer => m.onTimer limits now

def Checks (place : ℕ) (e : Event) : Prop := e = .slot place ∨ e = .timer

def Ends (now : ℤ) (gives : Prop) (m m' : MemberState) : Prop :=
  (m'.stopped = m.stopped ∧ m'.drainUntil = m.drainUntil ∧ m'.gaveUp = m.gaveUp) ∨
    (m.stopped = false ∧ m'.stopped = true ∧ m'.drainUntil = now + drainTime ∧
      (m'.gaveUp = true ↔ m.gaveUp = true ∨ gives))

theorem Ends.refl (now : ℤ) (gives : Prop) (m : MemberState) : Ends now gives m m :=
  .inl ⟨rfl, rfl, rfl⟩

theorem Ends.iff {now : ℤ} {gives gives' : Prop} {m m' : MemberState} (h : Ends now gives m m')
    (hgives : gives ↔ gives') : Ends now gives' m m' := by
  rcases h with h | ⟨hopen, hstopped, hdrain, hgave⟩
  · exact .inl h
  · exact .inr ⟨hopen, hstopped, hdrain, hgave.trans (by rw [hgives])⟩

/-- A stop, after anything else has changed. -/
theorem ends_stop {now : ℤ} {m m' : MemberState} (hstopped : m'.stopped = m.stopped)
    (hdrain : m'.drainUntil = m.drainUntil) (hgave : m'.gaveUp = m.gaveUp) :
    Ends now False m (stop now m') := by
  unfold stop
  split
  · exact .inl ⟨hstopped, hdrain, hgave⟩
  · rename_i hopen
    refine .inr ⟨?_, rfl, rfl, by simp [hgave]⟩
    rw [← hstopped]
    simpa using hopen

/-- The clock stops a member at the deadline, and gives it up where the market
has not ended. -/
theorem ends_pastDeadline {limits : Limits} {now : ℤ} {m : MemberState} (hopen : m.stopped = false) :
    Ends now (limits.OutOfBudget now) m (m.pastDeadline limits now).1 ∧
      ((m.pastDeadline limits now).2 = true ↔ limits.deadline ≤ now) ∧
      ((m.pastDeadline limits now).1.stopped = true ↔ limits.deadline ≤ now) := by
  rw [Limits.deadline_le]
  unfold pastDeadline Limits.OutOfBudget
  split
  · rename_i hended
    refine ⟨.inr ⟨hopen, by simp, ?_, ?_⟩, by simp [hended], by simp [hended]⟩
    · simp [stop, hopen]
    · simp [stop, hopen, not_lt.mpr hended]
  · rename_i hlasting
    split
    · rename_i hbudget
      refine ⟨.inr ⟨hopen, by simp, ?_, ?_⟩, by simp [hbudget], by simp [hbudget]⟩
      · simp [stop, hopen]
      · simp [stop, hopen, hbudget, not_le.mp hlasting]
    · rename_i hbudget
      exact ⟨Ends.refl now _ m, by simp [hlasting, hbudget], by simp [hopen, hlasting, hbudget]⟩

theorem ends_onSlot (limits : Limits) (now : ℤ) (m : MemberState) :
    Ends now (limits.OutOfBudget now) m (m.onSlot limits now).1 ∧
      (m.stopped = false → limits.deadline ≤ now → (m.onSlot limits now).1.stopped = true) ∧
      ((m.onSlot limits now).2.isSome = true → now < limits.deadline) := by
  unfold onSlot
  cases hstopped : m.stopped with
  | true => exact ⟨Ends.refl now _ m, fun h => absurd h (by simp), fun h => absurd h (by simp)⟩
  | false =>
    obtain ⟨hends, hpast, hstops⟩ := ends_pastDeadline hstopped
    simp only [Bool.false_eq_true, if_false]
    split
    · rename_i ended hcheck
      rw [hcheck] at hends hpast hstops
      exact ⟨hends, fun _ hdue => hstops.mpr hdue, fun h => absurd h (by simp)⟩
    · rename_i left hcheck
      rw [hcheck] at hpast
      have hbefore : ¬ limits.deadline ≤ now := fun hdue => absurd (hpast.mpr hdue) (by simp)
      split
      · exact ⟨.inl ⟨hstopped.symm, rfl, rfl⟩, fun _ hdue => absurd hdue hbefore, fun h => absurd h (by simp)⟩
      · split
        · exact ⟨Ends.refl now _ m, fun _ hdue => absurd hdue hbefore, fun h => absurd h (by simp)⟩
        · exact ⟨.inl ⟨hstopped.symm, rfl, rfl⟩, fun _ hdue => absurd hdue hbefore, fun _ => not_le.mp hbefore⟩

theorem ends_onReply (now : ℤ) (rep : Reply) (m : MemberState) :
    Ends now False m (m.onReply now rep) := by
  -- what a reply is counted as leaves the three fields, and a stop may follow
  have hconclude : ∀ m' : MemberState, Ends now False m m' → m'.stopped = m.stopped ∧
      m'.drainUntil = m.drainUntil ∧ m'.gaveUp = m.gaveUp ∨ m'.stopped = true →
      Ends now False m (m'.conclude now rep) := by
    intro m' hends hkept
    have hstop : Ends now False m (stop now m') := by
      rcases hkept with ⟨hstopped, hdrain, hgave⟩ | hstopped
      · exact ends_stop hstopped hdrain hgave
      · unfold stop
        rw [if_pos hstopped]
        exact hends
    unfold conclude
    split_ifs
    · exact hstop
    · exact hstop
    · exact hends
  unfold onReply
  split
  · exact .inl ⟨rfl, rfl, rfl⟩
  · split
    · exact ends_stop rfl rfl rfl
    · split
      · exact .inl ⟨rfl, rfl, rfl⟩
      · unfold record
        split
        · unfold accept
          split
          · split
            · exact hconclude _ (.inl ⟨rfl, rfl, rfl⟩) (.inl ⟨rfl, rfl, rfl⟩)
            · exact hconclude _ (ends_stop rfl rfl rfl) (.inr (by simp))
          · exact hconclude _ (.inl ⟨rfl, rfl, rfl⟩) (.inl ⟨rfl, rfl, rfl⟩)
        · exact hconclude _ (.inl ⟨rfl, rfl, rfl⟩) (.inl ⟨rfl, rfl, rfl⟩)

/-- What one event does to a member: it stops at most once, by the clock only
where its slot or the timer looks at it, and then gives up just when the budget
was what had run out. -/
theorem handle_ends (limits : Limits) (now : ℤ) (place : ℕ) (m : MemberState) (e : Event) :
    Ends now (Checks place e ∧ limits.OutOfBudget now) m (m.handle limits now place e) ∧
      (m.stopped = false → Checks place e → limits.deadline ≤ now →
        (m.handle limits now place e).stopped = true) := by
  have hnever : ∀ e, ¬ Checks place e → Ends now False m (m.handle limits now place e) →
      Ends now (Checks place e ∧ limits.OutOfBudget now) m (m.handle limits now place e) ∧
        (m.stopped = false → Checks place e → limits.deadline ≤ now →
          (m.handle limits now place e).stopped = true) := by
    intro e hquiet hends
    exact ⟨hends.iff ⟨False.elim, fun h => hquiet h.1⟩, fun _ hchecks => absurd hchecks hquiet⟩
  cases e with
  | slot index =>
    simp only [handle]
    by_cases hindex : index = place
    · obtain ⟨hends, hstops, -⟩ := ends_onSlot limits now m
      rw [if_pos hindex]
      exact ⟨hends.iff ⟨fun h => ⟨.inl (hindex ▸ rfl), h⟩, And.right⟩, fun hopen _ hdue => hstops hopen hdue⟩
    · have hquiet : ¬ Checks place (.slot index) := by
        intro h
        rcases h with h | h
        · exact hindex (Event.slot.inj h)
        · cases h
      refine hnever _ hquiet ?_
      simp only [handle]
      rw [if_neg hindex]
      exact Ends.refl now _ m
  | reply rep =>
    refine hnever _ (by simp [Checks]) ?_
    simp only [handle]
    split
    · exact ends_onReply now rep m
    · exact Ends.refl now _ m
  | giveUp bound => exact hnever _ (by simp [Checks]) (Ends.refl now _ m)
  | failed failure =>
    refine hnever _ (by simp [Checks]) ?_
    simp only [handle, onFailed]
    split
    · exact Ends.refl now _ m
    · exact ends_stop rfl rfl rfl
  | stopping =>
    refine hnever _ (by simp [Checks]) ?_
    simp only [handle, onStopping]
    split
    · exact Ends.refl now _ m
    · exact ends_stop rfl rfl rfl
  | timer =>
    simp only [handle, onTimer]
    cases hstopped : m.stopped with
    | true => exact ⟨Ends.refl now _ m, fun h => absurd h (by simp)⟩
    | false =>
      obtain ⟨hends, -, hstops⟩ := ends_pastDeadline hstopped
      simp only [Bool.false_eq_true, if_false]
      exact ⟨hends.iff ⟨fun h => ⟨.inr rfl, h⟩, And.right⟩, fun _ _ hdue => hstops.mpr hdue⟩

end MemberState

namespace RunState

open MemberState

/-- One event acts on each member at its own place. -/
theorem members_handle (r : RunState) (now : ℤ) (e : Event) (place : ℕ) :
    (r.handle now e).1.members[place]? =
      (r.members[place]?).map fun m => m.handle r.limits now place e := by
  cases e with
  | slot index =>
    simp only [handle, onSlot]
    cases hm : r.members[index]? with
    | none =>
      simp only
      by_cases hindex : index = place
      · rw [← hindex, hm]
        rfl
      · simp [MemberState.handle, hindex]
    | some m =>
      simp only [List.getElem?_set]
      by_cases hindex : index = place
      · subst hindex
        obtain ⟨hbound, -⟩ := List.getElem?_eq_some_iff.mp hm
        rw [if_pos rfl, if_pos hbound, hm]
        simp [MemberState.handle]
      · simp [MemberState.handle, hindex]
  | reply rep =>
    simp only [handle, List.getElem?_modify]
    by_cases hmember : rep.member = place <;> simp [MemberState.handle, hmember]
  | giveUp bound => simp [handle, MemberState.handle]
  | failed failure => simp [handle, MemberState.handle]
  | stopping => simp [handle, MemberState.handle]
  | timer => simp [handle, MemberState.handle]

def play (r : RunState) (events : List (ℤ × Event)) : RunState :=
  events.foldl (fun r e => (r.handle e.1 e.2).1) r

theorem play_concat (r : RunState) (events : List (ℤ × Event)) (e : ℤ × Event) :
    r.play (events ++ [e]) = ((r.play events).handle e.1 e.2).1 := by
  unfold play
  rw [List.foldl_append]
  rfl

theorem play_append (r : RunState) (events more : List (ℤ × Event)) :
    r.play (events ++ more) = (r.play events).play more := by
  unfold play
  rw [List.foldl_append]

theorem members_play_concat (r : RunState) (events : List (ℤ × Event)) (e : ℤ × Event) (place : ℕ) :
    (r.play (events ++ [e])).members[place]? = ((r.play events).members[place]?).map
      fun m => m.handle (r.play events).limits e.1 place e.2 := by
  rw [play_concat, members_handle]

/-- Stopped members stay so, each with its drain and its reason. -/
theorem play_stopped {r : RunState} {place : ℕ} {m : MemberState} (hm : r.members[place]? = some m)
    (hstopped : m.stopped = true) (events : List (ℤ × Event)) :
    ∃ m', (r.play events).members[place]? = some m' ∧ m'.stopped = true ∧
      m'.drainUntil = m.drainUntil := by
  induction events using List.reverseRecOn with
  | nil => exact ⟨m, hm, hstopped, rfl⟩
  | append_singleton events e ih =>
    obtain ⟨m', hm', hstopped', hdrain'⟩ := ih
    rw [members_play_concat, hm', Option.map_some]
    refine ⟨_, rfl, ?_⟩
    obtain ⟨hends, -⟩ := m'.handle_ends (r.play events).limits e.1 place e.2
    rcases hends with ⟨hsame, hdrain, -⟩ | ⟨hopen, -⟩
    · exact ⟨hsame.trans hstopped', hdrain.trans hdrain'⟩
    · exact absurd hstopped' (by simp [hopen])

/-- Before the last reading, no drain ends later than the drain time after it. -/
theorem play_drains {r : RunState} (hfresh : ∀ m ∈ r.members, m.stopped = false)
    {events : List (ℤ × Event)} {now : ℤ} (hclock : ∀ e ∈ events, e.1 ≤ now) {place : ℕ}
    {m : MemberState} (hm : (r.play events).members[place]? = some m) (hstopped : m.stopped = true) :
    m.drainUntil ≤ now + drainTime := by
  induction events using List.reverseRecOn generalizing m with
  | nil => exact absurd hstopped (by simp [hfresh m (List.mem_of_getElem? hm)])
  | append_singleton events e ih =>
    rw [members_play_concat] at hm
    obtain ⟨u, hu, rfl⟩ := Option.map_eq_some_iff.mp hm
    have hearlier : ∀ e' ∈ events, e'.1 ≤ now := fun e' he' => hclock e' (List.mem_append_left _ he')
    obtain ⟨hends, -⟩ := u.handle_ends (r.play events).limits e.1 place e.2
    rcases hends with ⟨hsame, hdrain, -⟩ | ⟨-, -, hdrain, -⟩
    · rw [hdrain]
      exact ih hearlier hu (hsame.symm.trans hstopped)
    · have hlast := hclock e (List.mem_append_right _ (List.mem_singleton_self e))
      rw [hdrain]
      omega

/-- This event stops the member, still sending then, because the knocking
budget had run out and the market had not ended. -/
structure StoppedByBudget (r : RunState) (now : ℤ) (e : Event) (place : ℕ) : Prop where
  checks : Checks place e
  budget : r.limits.OutOfBudget now
  sending : ∃ m, r.members[place]? = some m ∧ m.stopped = false
  stops : ∃ m, (r.handle now e).1.members[place]? = some m ∧ m.stopped = true

/-- A member gave up exactly when the budget is what stopped it. -/
theorem play_gaveUp {r : RunState} (hfresh : ∀ m ∈ r.members, m.stopped = false ∧ m.gaveUp = false)
    (events : List (ℤ × Event)) {place : ℕ} {m : MemberState}
    (hm : (r.play events).members[place]? = some m) :
    m.gaveUp = true ↔ ∃ before e after, events = before ++ e :: after ∧
      (r.play before).StoppedByBudget e.1 e.2 place := by
  induction events using List.reverseRecOn generalizing m with
  | nil =>
    have hgave : m.gaveUp = false := (hfresh m (List.mem_of_getElem? hm)).2
    constructor
    · intro h
      exact absurd h (by simp [hgave])
    · intro h
      obtain ⟨before, e, after, hsplit, -⟩ := h
      exact absurd hsplit (by simp)
  | append_singleton events e ih =>
    have hafter := hm
    rw [members_play_concat] at hm
    obtain ⟨u, hu, rfl⟩ := Option.map_eq_some_iff.mp hm
    have hsplits : (∃ before e' after, events ++ [e] = before ++ e' :: after ∧
          (r.play before).StoppedByBudget e'.1 e'.2 place) ↔
        (∃ before e' after, events = before ++ e' :: after ∧
          (r.play before).StoppedByBudget e'.1 e'.2 place) ∨
        (r.play events).StoppedByBudget e.1 e.2 place := by
      constructor
      · intro h
        obtain ⟨before, e', after, hsplit, hstops⟩ := h
        rcases List.eq_nil_or_concat after with rfl | ⟨after, last, rfl⟩
        · obtain ⟨rfl, hlast⟩ := List.append_inj' hsplit rfl
          obtain rfl := (List.cons.inj hlast).1
          exact .inr hstops
        · have hends : events ++ [e] = (before ++ e' :: after) ++ [last] := by simpa using hsplit
          exact .inl ⟨before, e', after, (List.append_inj' hends rfl).1, hstops⟩
      · intro h
        rcases h with ⟨before, e', after, rfl, hstops⟩ | hstops
        · exact ⟨before, e', after ++ [e], by simp, hstops⟩
        · exact ⟨events, e, [], rfl, hstops⟩
    rw [hsplits, ← ih hu]
    obtain ⟨hends, hdue⟩ := u.handle_ends (r.play events).limits e.1 place e.2
    rcases hends with ⟨hsame, -, hgave⟩ | ⟨hopen, hstopped, -, hgave⟩
    · -- the event stopped nothing
      rw [hgave]
      refine ⟨.inl, fun h => h.resolve_right fun hstops => ?_⟩
      obtain ⟨u', hu', hopen⟩ := hstops.sending
      obtain rfl := Option.some.inj (hu.symm.trans hu')
      have hreached : (r.play events).limits.deadline ≤ e.1 := Limits.deadline_le.mpr (.inl hstops.budget.1)
      have hstopped := hdue hopen hstops.checks hreached
      rw [hsame, hopen] at hstopped
      cases hstopped
    · rw [hgave]
      refine or_congr Iff.rfl ⟨fun h => ⟨h.1, h.2, ⟨u, hu, hopen⟩, _, ?_, hstopped⟩, fun h => ⟨h.1, h.2⟩⟩
      rw [← play_concat]
      exact hafter

theorem mem_members {r : RunState} {m : MemberState} (h : m ∈ r.members) :
    ∃ place : ℕ, r.members[place]? = some m := by
  obtain ⟨place, hplace, rfl⟩ := List.getElem_of_mem h
  exact ⟨place, List.getElem?_eq_getElem hplace⟩

/-- Where a member still sends, the coordinator is to wake by the deadline. -/
theorem pending_sending {r : RunState} {m : MemberState} (hm : m ∈ r.members)
    (hopen : m.stopped = false) (now : ℤ) :
    ∃ wake, r.pending now = some wake ∧ wake ≤ r.limits.deadline := by
  have hdue : m.due r.limits now = some r.limits.deadline := by
    unfold MemberState.due
    rw [if_pos hopen]
    rfl
  have hmem : r.limits.deadline ∈ r.members.filterMap (·.due r.limits now) :=
    List.mem_filterMap.mpr ⟨m, hm, hdue⟩
  unfold pending
  cases hmin : (r.members.filterMap (·.due r.limits now)).min? with
  | none => exact absurd (List.min?_eq_none_iff.mp hmin) (List.ne_nil_of_mem hmem)
  | some wake => exact ⟨wake, rfl, (List.min?_eq_some_iff.mp hmin).2 _ hmem⟩

/-- The knock is finished once every member is stopped and drained. -/
theorem finished_of_drained {r : RunState} {now : ℤ}
    (h : ∀ m ∈ r.members, m.stopped = true ∧ m.drainUntil ≤ now) : r.finished now = true := by
  have hnone : r.members.filterMap (·.due r.limits now) = [] := by
    rw [List.filterMap_eq_nil_iff]
    intro m hm
    obtain ⟨hstopped, hdrained⟩ := h m hm
    unfold MemberState.due
    rw [if_neg (by simp [hstopped]), if_neg fun h => absurd h.2 (not_lt.mpr hdrained)]
  unfold finished pending
  rw [hnone]
  rfl

/-- No send starts at or past the deadline, and no wake-up is asked for past
it while a member sends. A timer at the deadline stops every member, and from
the drain time after it the knock is finished, as it never is with a member
still sending. A member gave up exactly when the budget stopped it. -/
theorem deadline_and_end (plan : Plan) (venue : Except String Unit) (r : RunState)
    (hstart : RunState.start plan venue = .ok r) (events : List (ℤ × Event))
    (hclock : (events.map Prod.fst).Pairwise (· ≤ ·)) :
    (∀ before now index after, events = before ++ (now, .slot index) :: after →
      ((r.play before).handle now (.slot index)).2.isSome = true →
        now < (r.play before).limits.deadline) ∧
    (∀ now, (∃ m ∈ (r.play events).members, m.stopped = false) →
      ∃ wake, (r.play events).pending now = some wake ∧ wake ≤ (r.play events).limits.deadline) ∧
    (∀ before now after, events = before ++ (now, .timer) :: after →
      (r.play before).limits.deadline ≤ now →
        (∀ m ∈ (r.play (before ++ [(now, .timer)])).members, m.stopped = true) ∧
        ∀ later, now + drainTime ≤ later → (r.play events).finished later = true) ∧
    (∀ now, (r.play events).finished now = true → ∀ m ∈ (r.play events).members, m.stopped = true) ∧
    ∀ (place : ℕ) m, (r.play events).members[place]? = some m →
      (m.gaveUp = true ↔ ∃ before e after, events = before ++ e :: after ∧
        (r.play before).StoppedByBudget e.1 e.2 place) := by
  have hfresh : ∀ m ∈ r.members, m.stopped = false ∧ m.gaveUp = false := by
    intro m hm
    rw [(RunState.start_members hstart).1] at hm
    obtain ⟨plan, -, rfl⟩ := List.mem_map.mp hm
    exact ⟨rfl, rfl⟩
  refine ⟨?_, fun now hsending => ?_, ?_, fun now hfinished m hm => ?_,
    fun place m hm => play_gaveUp hfresh events hm⟩
  · intro before now index after hsplit hsent
    simp only [handle, onSlot] at hsent
    split at hsent
    · cases hsent
    · rename_i m _
      exact (m.ends_onSlot (r.play before).limits now).2.2 hsent
  · obtain ⟨m, hm, hopen⟩ := hsending
    exact pending_sending hm hopen now
  · intro before now after hsplit hdue
    have hearlier : ∀ e ∈ before, e.1 ≤ now := by
      intro e he
      rw [hsplit, List.map_append, List.pairwise_append] at hclock
      exact hclock.2.2 _ (List.mem_map_of_mem he) _ (List.mem_map_of_mem List.mem_cons_self)
    have hstopped : ∀ (place : ℕ) m, (r.play (before ++ [(now, .timer)])).members[place]? = some m →
        m.stopped = true ∧ m.drainUntil ≤ now + drainTime := by
      intro place m hm
      have hat : ∀ e ∈ before ++ [(now, Event.timer)], e.1 ≤ now := by
        intro e he
        rcases List.mem_append.mp he with he | he
        · exact hearlier e he
        · rw [List.mem_singleton.mp he]
      have hstopped : m.stopped = true := by
        rw [members_play_concat] at hm
        obtain ⟨u, hu, rfl⟩ := Option.map_eq_some_iff.mp hm
        obtain ⟨hends, hstops⟩ := u.handle_ends (r.play before).limits now place .timer
        cases hopen : u.stopped with
        | false => exact hstops hopen (.inr rfl) hdue
        | true =>
          rcases hends with ⟨hsame, -⟩ | ⟨hopen', -⟩
          · exact hsame.trans hopen
          · exact absurd hopen (by simp [hopen'])
      exact ⟨hstopped, play_drains (fun m hm => (hfresh m hm).1) hat hm hstopped⟩
    refine ⟨fun m hm => ?_, fun later hlater => ?_⟩
    · obtain ⟨place, hplace⟩ := mem_members hm
      exact (hstopped place m hplace).1
    · have hwhole : r.play events = (r.play (before ++ [(now, .timer)])).play after := by
        rw [← play_append, hsplit]
        simp
      rw [hwhole]
      refine finished_of_drained fun m hm => ?_
      obtain ⟨place, hplace⟩ := mem_members hm
      cases hthen : (r.play (before ++ [(now, .timer)])).members[place]? with
      | none =>
        have hlength : ∀ (r : RunState) (events : List (ℤ × Event)),
            r.members[place]? = none → (r.play events).members[place]? = none := by
          intro r events hnone
          induction events using List.reverseRecOn with
          | nil => exact hnone
          | append_singleton events e ih => rw [members_play_concat, ih, Option.map_none]
        rw [hlength _ _ hthen] at hplace
        cases hplace
      | some u =>
        obtain ⟨hu, hdrain⟩ := hstopped place u hthen
        obtain ⟨m', hm', hm'stopped, hsame⟩ := play_stopped hthen hu after
        obtain rfl := Option.some.inj (hplace.symm.trans hm')
        exact ⟨hm'stopped, hsame ▸ hdrain.trans hlater⟩
  · cases hopen : m.stopped with
    | true => rfl
    | false =>
      obtain ⟨wake, hwake, -⟩ := pending_sending hm hopen now
      unfold finished at hfinished
      rw [hwake] at hfinished
      cases hfinished

end RunState

def lateEvents : List (ℤ × Event) :=
  [(0, .slot 0), (240000000000, .slot 0), (240000000000, .timer)]

theorem deadline_and_end_late :
    (pairRun.play lateEvents).finished (240000000000 + drainTime) = true ∧
    ∀ (place : ℕ) m, (pairRun.play lateEvents).members[place]? = some m →
      (m.gaveUp = true ↔ ∃ before e after, lateEvents = before ++ e :: after ∧
        (pairRun.play before).StoppedByBudget e.1 e.2 place) := by
  obtain ⟨-, -, hends, -, hgave⟩ := RunState.deadline_and_end pairPlan (.ok ()) pairRun pairPlan_starts
    lateEvents (by decide)
  exact ⟨(hends [(0, .slot 0), (240000000000, .slot 0)] 240000000000 [] rfl (by decide)).2 _ (le_refl _),
    hgave⟩

end EventQuant.Knock
