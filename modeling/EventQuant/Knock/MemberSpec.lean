import EventQuant.Knock.World

/-!
What each event can do to a member, one lemma for each handler. A quiet change
leaves the counters and the registered orders alone; a slot is quiet or sends
one leg of a member that is still sending; a reply takes one request off the
count, and touches the registered orders only to add a leg's first id or to
repeat it.
-/
namespace EventQuant.Knock

def Reply.Accepts (rep : Reply) : Prop :=
  rep.failure = none ∧ rep.verdict.transient = false ∧ rep.verdict.accepted = true

namespace MemberState

/-- The counters of sends and the registered orders stay, and so does a stop. -/
structure Quiet (m m' : MemberState) : Prop where
  plan : m'.plan = m.plan
  attempts : m'.attempts = m.attempts
  inFlight : m'.inFlight = m.inFlight
  accepted : m'.accepted = m.accepted
  stopped : m.stopped = true → m'.stopped = true ∧ m'.drainUntil = m.drainUntil
  ambiguous : ∀ i ∈ m.ambiguous.list, i ∈ m'.ambiguous.list

theorem Quiet.refl (m : MemberState) : Quiet m m :=
  ⟨rfl, rfl, rfl, rfl, fun h => ⟨h, rfl⟩, fun _ hi => hi⟩

theorem Quiet.trans {m₁ m₂ m₃ : MemberState} (h : Quiet m₁ m₂) (h' : Quiet m₂ m₃) :
    Quiet m₁ m₃ where
  plan := h'.plan.trans h.plan
  attempts := h'.attempts.trans h.attempts
  inFlight := h'.inFlight.trans h.inFlight
  accepted := h'.accepted.trans h.accepted
  stopped hs := by
    obtain ⟨hs', hd⟩ := h.stopped hs
    exact ⟨(h'.stopped hs').1, (h'.stopped hs').2.trans hd⟩
  ambiguous i hi := h'.ambiguous i (h.ambiguous i hi)

theorem stop_quiet (now : ℤ) (m : MemberState) : Quiet m (stop now m) := by
  unfold stop
  split
  · exact Quiet.refl m
  · rename_i hstopped
    exact ⟨rfl, rfl, rfl, rfl, fun h => absurd h hstopped, fun _ hi => hi⟩

theorem Quiet.andStop {m m' : MemberState} (h : Quiet m m') (now : ℤ) : Quiet m (stop now m') :=
  h.trans (stop_quiet now m')

theorem errors_quiet (m : MemberState) (errors : Items) (gaveUp : Bool) :
    Quiet m { m with errors := errors, gaveUp := gaveUp } :=
  ⟨rfl, rfl, rfl, rfl, fun h => ⟨h, rfl⟩, fun _ hi => hi⟩

theorem ambiguous_quiet (m : MemberState) (key : ItemKey) (item : Item)
    (hnames : key.Names item) :
    Quiet m { m with ambiguous := m.ambiguous.note key item hnames } :=
  ⟨rfl, rfl, rfl, rfl, fun h => ⟨h, rfl⟩, fun i hi => m.ambiguous.mem_note_list key item hnames i hi⟩

@[simp] theorem stop_stopped (now : ℤ) (m : MemberState) : (stop now m).stopped = true := by
  unfold stop
  split
  · assumption
  · rfl

@[simp] theorem stop_ambiguous (now : ℤ) (m : MemberState) :
    (stop now m).ambiguous = m.ambiguous := by
  unfold stop
  split <;> rfl

@[simp] theorem stop_accepted (now : ℤ) (m : MemberState) :
    (stop now m).accepted = m.accepted := (stop_quiet now m).accepted

/-- A member the deadline catches is stopped, and nothing else counts. -/
theorem pastDeadline_quiet (limits : Limits) (now : ℤ) (m : MemberState) :
    Quiet m (m.pastDeadline limits now).1 := by
  unfold pastDeadline
  split
  · exact (errors_quiet m _ m.gaveUp).andStop now
  · split
    · exact (errors_quiet m _ true).andStop now
    · exact Quiet.refl m

theorem onFailed_quiet (now : ℤ) (failure : String) (m : MemberState) :
    Quiet m (m.onFailed now failure) := by
  unfold onFailed
  split
  · exact Quiet.refl m
  · exact (ambiguous_quiet m _ _ _).andStop now

theorem onStopping_quiet (now : ℤ) (m : MemberState) : Quiet m (m.onStopping now) := by
  unfold onStopping
  split
  · exact Quiet.refl m
  · exact (errors_quiet m _ m.gaveUp).andStop now

theorem onTimer_quiet (limits : Limits) (now : ℤ) (m : MemberState) :
    Quiet m (m.onTimer limits now) := by
  unfold onTimer
  split
  · exact Quiet.refl m
  · exact pastDeadline_quiet limits now m

def fire (m : MemberState) : MemberState :=
  { m with attempts := m.attempts + 1, inFlight := m.inFlight + 1 }

/-- A slot sends nothing and is quiet, or a member still sending, with room
under the cap, sends the leg whose turn it is. -/
theorem onSlot_cases (limits : Limits) (now : ℤ) (m : MemberState) :
    (∃ m', m.onSlot limits now = (m', none) ∧ Quiet m m') ∨
    (∃ leg, m.onSlot limits now = (m.fire, some leg) ∧ m.stopped = false ∧
      m.inFlight < inFlightCap ∧ m.turn[m.attempts % m.turn.length]? = some leg) := by
  unfold onSlot
  split
  · exact Or.inl ⟨m, rfl, Quiet.refl m⟩
  · rename_i hstopped
    have hquiet := pastDeadline_quiet limits now m
    split
    · rename_i ended hpast
      rw [hpast] at hquiet
      exact Or.inl ⟨ended, rfl, hquiet⟩
    · split
      · exact Or.inl ⟨_, rfl, ⟨rfl, rfl, rfl, rfl, fun h => ⟨h, rfl⟩, fun _ hi => hi⟩⟩
      · rename_i hroom
        split
        · exact Or.inl ⟨m, rfl, Quiet.refl m⟩
        · rename_i leg hleg
          exact Or.inr ⟨leg, rfl, by simpa using hstopped, by omega, hleg⟩

theorem mem_turn_legs (m : MemberState) (leg : Leg) (hleg : leg ∈ m.turn) :
    leg ∈ m.plan.legs := by
  unfold turn at hleg
  split at hleg
  · exact hleg
  · exact List.mem_of_mem_filter hleg

def InTime (now : ℤ) (m : MemberState) : Prop :=
  (m.stopped && decide (m.drainUntil < now)) = false

def Registers (m : MemberState) (rep : Reply) : Prop :=
  rep.failure = none ∧ rep.verdict.transient = false ∧ rep.verdict.accepted = true ∧
  ∀ earlier, m.accepted.lookup rep.outcome = some earlier → earlier.orderId = rep.verdict.orderId

/-- An accepting reply registers its leg, or the leg has another id and the
member says so. -/
theorem accept_cases (now : ℤ) (rep : Reply) (m : MemberState) :
    ((∃ earlier, m.accepted.lookup rep.outcome = some earlier ∧
        earlier.orderId ≠ rep.verdict.orderId ∧
        Item.text (conflictText rep.outcome earlier.orderId rep.verdict.orderId) ∈
          (m.accept now rep).ambiguous.list) ∧
      Quiet m (m.accept now rep) ∧ (m.accept now rep).stopped = true) ∨
    ((∀ earlier, m.accepted.lookup rep.outcome = some earlier →
        earlier.orderId = rep.verdict.orderId) ∧ m.accept now rep = m.keep rep) := by
  unfold accept
  split
  · rename_i earlier hearlier
    split
    · rename_i hsame
      refine Or.inr ⟨fun e he => ?_, rfl⟩
      rw [hearlier, Option.some.injEq] at he
      exact he ▸ hsame
    · rename_i hother
      refine Or.inl ⟨⟨earlier, hearlier, hother, ?_⟩, (ambiguous_quiet m _ _ _).andStop now,
        stop_stopped now _⟩
      rw [stop_ambiguous]
      exact m.ambiguous.mem_text_list _
  · rename_i hnone
    exact Or.inr ⟨fun e he => by simp [hnone] at he, rfl⟩

/-- The stops at the end of a verdict are quiet, and a member with every leg
registered does not go on. -/
theorem conclude_after (now : ℤ) (rep : Reply) (m : MemberState) :
    Quiet m (m.conclude now rep) ∧
    ((m.conclude now rep).stopped = false → m.accepted.entries.length ≠ m.plan.legs.length) := by
  unfold conclude
  split
  · exact ⟨stop_quiet now m, fun h => by simp at h⟩
  · rename_i hopen
    split
    · exact ⟨stop_quiet now m, fun h => by simp at h⟩
    · exact ⟨Quiet.refl m, fun _ => hopen⟩

/-- A reply takes one request off the count. It is quiet beyond that, or it
registers its leg, after which the member goes on only with a leg to go. -/
theorem onReply_cases (now : ℤ) (rep : Reply) (m : MemberState) :
    Quiet m.counted (m.onReply now rep) ∨
    (InTime now m ∧ Registers m rep ∧ Quiet (m.counted.keep rep) (m.onReply now rep) ∧
      ((m.onReply now rep).stopped = false →
        (m.counted.keep rep).accepted.entries.length ≠ m.plan.legs.length)) := by
  unfold onReply
  split
  · exact Or.inl (Quiet.refl m.counted)
  · rename_i htime
    split
    · exact Or.inl ((ambiguous_quiet m.counted _ _ _).andStop now)
    · rename_i hfailure
      split
      · exact Or.inl (ambiguous_quiet m.counted _ _ _)
      · rename_i htransient
        obtain ⟨hquiet, hopen⟩ := conclude_after now rep (m.counted.record now rep)
        by_cases haccepted : rep.verdict.accepted = true
        · have hrecord : m.counted.record now rep = m.counted.accept now rep := if_pos haccepted
          rcases accept_cases now rep m.counted with ⟨_, hconflict, _⟩ | ⟨hsame, hkeep⟩
          · rw [hrecord] at hquiet ⊢
            exact Or.inl (hconflict.trans hquiet)
          · rw [hrecord, hkeep] at hquiet hopen ⊢
            exact Or.inr ⟨by simpa [InTime] using htime,
              ⟨hfailure, by simpa using htransient, haccepted, hsame⟩, hquiet, hopen⟩
        · have hrecord : m.counted.record now rep =
              { m.counted with errors := m.errors.reply rep.status rep.body } := if_neg haccepted
          rw [hrecord] at hquiet ⊢
          exact Or.inl ((errors_quiet m.counted _ m.gaveUp).trans hquiet)

end MemberState

end EventQuant.Knock
