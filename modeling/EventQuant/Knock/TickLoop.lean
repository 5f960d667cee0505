import EventQuant.Knock.Slots
import EventQuant.Library.Runs

/-!
The timing thread's loop over a whole knock, and over one knock after another.
The thread looks the members still sending over one by one, sleeps until the
first of their slots, hands it over and reads the clock once more before it
moves the member on; the slot it moves it on to is left in `nextSlot` for the
account's next knock. Members stop at any point of this.
-/
namespace EventQuant.Knock

open Runs

/-- This long before a slot the thread goes over to the precise clock. -/
def preciseStretch : ℤ := 1500000

/-- Where the loop is: looking members over with the first slot's so far,
asleep, on Go's own timer or not, past the hand-over, or back from `tick`. -/
inductive Stage
  | looking (i : ℕ) (due : Option ℕ)
  | sleeping (due : ℕ) (coarse : Bool)
  | handing (due : ℕ)
  | ended
  deriving DecidableEq, Repr

/-- A member moved on: from a slot handed over, at a reading, to the next. -/
structure Resumption where
  member : ℕ
  slot : ℤ
  now : ℤ
  next : ℤ
  deriving DecidableEq, Repr

/-- One knock's timing thread. `found` is `nextSlot` as it was found, `first`
the slots the members started with; `handed` and `resumed` record the slots
handed over and the members moved on, in order. -/
structure TimingThread where
  accounts : List String
  tick : Tick
  sending : ℕ → Bool
  stage : Stage
  found : List (String × ℤ)
  first : List ℤ
  handed : List (ℕ × ℤ)
  resumed : List Resumption

/-- What the thread does next, or what happens to it. -/
inductive TickMove
  | stops (i : ℕ)
  | look
  | wake
  | hand
  | record
  | finish
  deriving DecidableEq, Repr

/-- `nextSlot` of an account; nothing recorded reads as 0. -/
def slotOf (nextSlot : List (String × ℤ)) (account : String) : ℤ := (nextSlot.lookup account).getD 0

namespace TimingThread

/-- `tick` up to its loop, from the moment it read before `nextSlot`. -/
def begin (members : List (String × Timetable)) (moment : ℤ) (nextSlot : List (String × ℤ)) :
    TimingThread :=
  let tick := Tick.start (members.map Prod.snd) moment (members.map fun m => slotOf nextSlot m.1)
  ⟨members.map Prod.fst, tick, fun _ => true, .looking 0 none, nextSlot, tick.next, [], []⟩

def move (now : ℤ) (th : TimingThread) : TickMove → Option TimingThread
  | .stops i => some { th with sending := Function.update th.sending i false }
  | .look =>
    match th.stage with
    | .looking i due =>
      match th.tick.next[i]? with
      | some slot =>
        let earlier := due.all fun d => decide (slot < th.tick.next.getD d 0)
        some { th with stage := .looking (i + 1) (if th.sending i && earlier then some i else due) }
      | none =>
        match due with
        | none => some { th with stage := .ended }
        | some d =>
          let wait := th.tick.next.getD d 0 - now - preciseStretch
          some { th with stage := .sleeping d (decide (0 < wait)) }
    | _ => none
  | .wake =>
    match th.stage with
    | .sleeping due true =>
      -- only after the coarse timer is the member asked again whether it sends
      some { th with stage := if th.sending due then .sleeping due false else .looking 0 none }
    | _ => none
  | .hand =>
    match th.stage with
    | .sleeping due false =>
      if th.tick.next.getD due 0 ≤ now then
        some { th with
          stage := .handing due
          handed := th.handed ++ [(due, th.tick.next.getD due 0)] }
      else none
    | _ => none
  | .record =>
    match th.stage with
    | .handing due =>
      let tick := th.tick.handed now due
      some { th with
        tick := tick
        stage := .looking 0 none
        resumed := th.resumed ++ [⟨due, th.tick.next.getD due 0, now, tick.next.getD due 0⟩] }
    | _ => none
  | .finish =>
    match th.stage with
    | .sleeping _ _ => some { th with stage := .ended }
    | _ => none

/-- What a step leaves in `nextSlot`. -/
def recorded (now : ℤ) (th : TimingThread) : TickMove → List (String × ℤ)
  | .record =>
    match th.stage with
    | .handing due =>
      (th.accounts[due]?).elim [] fun account => [(account, (th.tick.handed now due).next.getD due 0)]
    | _ => []
  | _ => []

end TimingThread

/-- The knocks begun so far, and the slots they share. -/
structure Knocks where
  clock : ℤ
  nextSlot : List (String × ℤ)
  threads : List TimingThread

/-- A knock begins, with the moment it read before, or one's thread goes on. -/
inductive KnocksMove
  | begin (members : List (String × Timetable)) (moment : ℤ)
  | thread (k : ℕ) (m : TickMove)

namespace Knocks

def start (clock : ℤ) : Knocks := ⟨clock, [], []⟩

def next (s : Knocks) (step : ℤ × KnocksMove) : Knocks :=
  if s.clock ≤ step.1 then
    match step.2 with
    | .begin members moment =>
      if moment ≤ step.1 then
        { s with
          clock := step.1
          threads := s.threads ++ [TimingThread.begin members moment s.nextSlot] }
      else s
    | .thread k m =>
      match s.threads[k]? with
      | some th =>
        (th.move step.1 m).elim s fun th' =>
          ⟨step.1, th.recorded step.1 m ++ s.nextSlot, s.threads.set k th'⟩
      | none => s
  else s

end Knocks

/-! ### Moving a member on -/

namespace Timetable

variable {t : Timetable} {slot now x : ℤ}

/-- The slot a member goes on at from one handed over, at a reading: a later
slot of its table, the first one not before the reading by more than the
tolerance of the stretches not over by then, and none still to come is passed
over. -/
structure Resumes (t : Timetable) (slot now next : ℤ) : Prop where
  isSlot : t.IsSlot next
  later : slot < next
  stalled : slot + gridTolerance < now →
    IsLeast {x | t.IsOpen now x ∧ now - gridTolerance ≤ x} next
  unskipped : t.Long → ∀ x, t.IsSlot x → slot < x → now ≤ x → next ≤ x

theorem resumes_at (h : t.WellFormed) (hslot : t.IsSlot slot) (now : ℤ) :
    t.Resumes slot now (t.at (max (slot + gridTolerance + 1) now)) where
  isSlot := at_isSlot h _
  later := by
    have := le_at h (max (slot + gridTolerance + 1) now)
    omega
  stalled hstall := by
    have hmax : max (slot + gridTolerance + 1) now = now := max_eq_right (by omega)
    rw [hmax]
    exact isLeast_at h now
  unskipped hlong x hx hlater hcome := by
    by_cases hstall : slot + gridTolerance + 1 ≤ now
    · rw [max_eq_right hstall]
      exact at_le h hx hcome
    · rw [max_eq_left (by omega)]
      exact after_le h hlong hslot hx hlater

end Timetable

namespace Tick

variable {t : Tick} {i j : ℕ} {table : Timetable} {slot now : ℤ}

theorem handed_tables (now : ℤ) (i : ℕ) (t : Tick) : (t.handed now i).tables = t.tables := by
  unfold handed
  split <;> rfl

theorem handed_length (now : ℤ) (i : ℕ) (t : Tick) :
    (t.handed now i).next.length = t.next.length := by
  unfold handed
  split
  · exact List.length_set
  · rfl

theorem handed_next (ht : t.tables[i]? = some table) (hs : t.next[i]? = some slot) :
    (t.handed now i).next = t.next.set i (table.at (max (slot + gridTolerance + 1) now)) := by
  unfold handed
  rw [ht, hs]

end Tick

namespace TimingThread

variable {th th' : TimingThread} {now : ℤ} {m : TickMove}

/-! ### Which slots are next -/

/-- Each member's next slot is one of its table, and none before the slot its
account was left with. -/
structure Kept (th : TimingThread) : Prop where
  wellFormed : ∀ t ∈ th.tick.tables, t.WellFormed
  length : th.tick.next.length = th.tick.tables.length
  isSlot : ∀ (i : ℕ) (t : Timetable) (s : ℤ),
    th.tick.tables[i]? = some t → th.tick.next[i]? = some s → t.IsSlot s
  spaced : ∀ (i : ℕ) (s : ℤ) (account : String) (r : ℤ), th.tick.next[i]? = some s →
    th.accounts[i]? = some account →
    th.found.lookup account = some r → r - gridTolerance ≤ s

theorem Kept.table (h : Kept th) {i : ℕ} {s : ℤ} (hs : th.tick.next[i]? = some s) :
    ∃ t, th.tick.tables[i]? = some t ∧ t ∈ th.tick.tables := by
  obtain ⟨hi, -⟩ := List.getElem?_eq_some_iff.mp hs
  have hi' : i < th.tick.tables.length := by
    rw [← h.length]
    exact hi
  exact ⟨_, List.getElem?_eq_getElem hi', List.getElem_mem hi'⟩

theorem kept_begin {members : List (String × Timetable)} (hwf : ∀ m ∈ members, m.2.WellFormed)
    (moment : ℤ) (nextSlot : List (String × ℤ)) : Kept (begin members moment nextSlot) := by
  have hnext : ∀ (i : ℕ) (s : ℤ), (begin members moment nextSlot).tick.next[i]? = some s →
      ∃ m, members[i]? = some m ∧ m ∈ members ∧ s = m.2.at (max moment (slotOf nextSlot m.1)) := by
    intro i s hs
    simp only [begin, Tick.start, List.zipWith_map_left, List.zipWith_map_right,
      List.zipWith_self, List.getElem?_map, Option.map_eq_some_iff] at hs
    obtain ⟨m, hm, rfl⟩ := hs
    exact ⟨m, hm, List.mem_of_getElem? hm, rfl⟩
  constructor
  · intro t ht
    obtain ⟨m, hm, rfl⟩ := List.mem_map.mp ht
    exact hwf m hm
  · simp [begin, Tick.start]
  · intro i t s ht hs
    obtain ⟨m, hm, hmem, rfl⟩ := hnext i s hs
    simp only [begin, Tick.start, List.getElem?_map, hm, Option.map_some, Option.some.injEq] at ht
    rw [← ht]
    exact Timetable.at_isSlot (hwf m hmem) _
  · intro i s account r hs ha hr
    obtain ⟨m, hm, hmem, rfl⟩ := hnext i s hs
    simp only [begin, List.getElem?_map, hm, Option.map_some, Option.some.injEq] at ha
    subst ha
    have hle := Timetable.le_at (hwf m hmem) (max moment (slotOf nextSlot m.1))
    have hslot : slotOf nextSlot m.1 = r := by
      unfold slotOf
      have hfound : nextSlot.lookup m.1 = some r := hr
      rw [hfound]
      rfl
    omega

/-! ### What a step does -/

/-- A step, by where the loop was and what it found. -/
inductive Moves (now : ℤ) (th : TimingThread) : TickMove → TimingThread → Prop
  | stops (i : ℕ) : Moves now th (.stops i) { th with sending := Function.update th.sending i false }
  | passes {i : ℕ} {due : Option ℕ} {slot : ℤ} (hstage : th.stage = .looking i due)
      (hslot : th.tick.next[i]? = some slot)
      (hdue : th.sending i = true → ∃ d, due = some d ∧ th.tick.next.getD d 0 ≤ slot) :
      Moves now th .look { th with stage := .looking (i + 1) due }
  | takes {i : ℕ} {due : Option ℕ} {slot : ℤ} (hstage : th.stage = .looking i due)
      (hslot : th.tick.next[i]? = some slot) (hsending : th.sending i = true)
      (hdue : ∀ d, due = some d → slot < th.tick.next.getD d 0) :
      Moves now th .look { th with stage := .looking (i + 1) (some i) }
  | runsOut {i : ℕ} (hstage : th.stage = .looking i none) :
      Moves now th .look { th with stage := .ended }
  | chooses {i d : ℕ} (hstage : th.stage = .looking i (some d)) (hall : th.tick.next[i]? = none)
      (coarse : Bool) : Moves now th .look { th with stage := .sleeping d coarse }
  | wakes {due : ℕ} (hstage : th.stage = .sleeping due true) :
      Moves now th .wake { th with stage := .sleeping due false }
  | stopped {due : ℕ} (hstage : th.stage = .sleeping due true) :
      Moves now th .wake { th with stage := .looking 0 none }
  | hands {due : ℕ} (hstage : th.stage = .sleeping due false) :
      Moves now th .hand { th with
        stage := .handing due
        handed := th.handed ++ [(due, th.tick.next.getD due 0)] }
  | records {due : ℕ} (hstage : th.stage = .handing due) :
      Moves now th .record { th with
        tick := th.tick.handed now due
        stage := .looking 0 none
        resumed := th.resumed ++
          [⟨due, th.tick.next.getD due 0, now, (th.tick.handed now due).next.getD due 0⟩] }
  | finishes {due : ℕ} {coarse : Bool} (hstage : th.stage = .sleeping due coarse) :
      Moves now th .finish { th with stage := .ended }

theorem moves_of_move (h : th.move now m = some th') : Moves now th m th' := by
  cases m with
  | stops i =>
    obtain rfl := Option.some.inj h
    exact .stops i
  | look =>
    simp only [move] at h
    split at h
    · rename_i i due hstage
      split at h
      · rename_i slot hslot
        obtain rfl := Option.some.inj h
        by_cases htakes : (th.sending i && due.all fun d => decide (slot < th.tick.next.getD d 0)) = true
        · rw [if_pos htakes]
          simp only [Bool.and_eq_true, Option.all_eq_true, decide_eq_true_eq] at htakes
          exact .takes hstage hslot htakes.1 htakes.2
        · rw [if_neg htakes]
          refine .passes hstage hslot fun hsending => ?_
          by_contra hnone
          refine htakes ?_
          simp only [hsending, Bool.true_and, Option.all_eq_true, decide_eq_true_eq]
          intro d hd
          by_contra hle
          exact hnone ⟨d, hd, not_lt.mp hle⟩
      · rename_i hall
        split at h
        · obtain rfl := Option.some.inj h
          exact .runsOut hstage
        · obtain rfl := Option.some.inj h
          exact .chooses hstage hall _
    · cases h
  | wake =>
    simp only [move] at h
    split at h
    · rename_i due hstage
      obtain rfl := Option.some.inj h
      split
      · exact .wakes hstage
      · exact .stopped hstage
    · cases h
  | hand =>
    simp only [move] at h
    split at h
    · rename_i due hstage
      split_ifs at h
      obtain rfl := Option.some.inj h
      exact .hands hstage
    · cases h
  | record =>
    simp only [move] at h
    split at h
    · rename_i due hstage
      obtain rfl := Option.some.inj h
      exact .records hstage
    · cases h
  | finish =>
    simp only [move] at h
    split at h
    · rename_i due coarse hstage
      obtain rfl := Option.some.inj h
      exact .finishes hstage
    · cases h

/-- Moving a member on puts its next slot past the one handed over and leaves
the other members' alone. -/
theorem Kept.handed (h : Kept th) (now : ℤ) {due : ℕ} {slot : ℤ}
    (hslot : th.tick.next[due]? = some slot) :
    ∃ t next, th.tick.tables[due]? = some t ∧ t.Resumes slot now next ∧
      (th.tick.handed now due).next[due]? = some next ∧
      ∀ j, due ≠ j → (th.tick.handed now due).next[j]? = th.tick.next[j]? := by
  obtain ⟨t, ht, hmem⟩ := h.table hslot
  obtain ⟨hlt, -⟩ := List.getElem?_eq_some_iff.mp hslot
  refine ⟨t, _, ht, Timetable.resumes_at (h.wellFormed t hmem) (h.isSlot due t slot ht hslot) now,
    ?_, fun j hj => ?_⟩
  · rw [Tick.handed_next ht hslot, List.getElem?_set_self hlt]
  · rw [Tick.handed_next ht hslot, List.getElem?_set_ne hj]

theorem Kept.records (h : Kept th) (now : ℤ) (due : ℕ) (resumed : List Resumption) :
    Kept { th with tick := th.tick.handed now due, stage := .looking 0 none, resumed := resumed } := by
  cases hslot : th.tick.next[due]? with
  | none =>
    have htick : th.tick.handed now due = th.tick := by
      unfold Tick.handed
      rw [hslot]
      split <;> simp_all
    rw [htick]
    exact ⟨h.wellFormed, h.length, h.isSlot, h.spaced⟩
  | some slot =>
    obtain ⟨t, next, ht, hresumes, hself, hother⟩ := h.handed now hslot
    constructor
    · simp only [Tick.handed_tables]
      exact h.wellFormed
    · simp only [Tick.handed_tables, Tick.handed_length]
      exact h.length
    · intro i t' s ht' hs
      simp only [Tick.handed_tables] at ht' hs
      by_cases hi : due = i
      · subst hi
        rw [ht] at ht'
        rw [hself] at hs
        obtain rfl := Option.some.inj ht'
        obtain rfl := Option.some.inj hs
        exact hresumes.isSlot
      · rw [hother i hi] at hs
        exact h.isSlot i t' s ht' hs
    · intro i s account r hs ha hr
      simp only at hs
      by_cases hi : due = i
      · subst hi
        rw [hself] at hs
        obtain rfl := Option.some.inj hs
        have := h.spaced due slot account r hslot ha hr
        have := hresumes.later
        omega
      · rw [hother i hi] at hs
        exact h.spaced i s account r hs ha hr

theorem Kept.moves (h : Kept th) (hmoves : Moves now th m th') : Kept th' := by
  cases hmoves with
  | records hstage => exact h.records now _ _
  | stops i => exact ⟨h.wellFormed, h.length, h.isSlot, h.spaced⟩
  | _ => exact ⟨h.wellFormed, h.length, h.isSlot, h.spaced⟩

/-! ### In which order slots are handed over -/

/-- The member's next slot is past every slot handed over and not past that of
any member still sending. -/
def Leads (th : TimingThread) (d : ℕ) : Prop :=
  ∃ s, th.tick.next[d]? = some s ∧ (∀ h ∈ th.handed, h.2 ≤ s) ∧
    ∀ (j : ℕ) (s' : ℤ), th.sending j = true → th.tick.next[j]? = some s' → s ≤ s'

/-- The first of the members looked over so far is one whose slot is still to
hand over, and none of the others looked over sends before it. -/
def LeadsBelow (th : TimingThread) (i : ℕ) (due : Option ℕ) : Prop :=
  (∀ d, due = some d → ∃ s, th.tick.next[d]? = some s ∧ ∀ h ∈ th.handed, h.2 ≤ s) ∧
    ∀ (j : ℕ) (s' : ℤ), j < i → th.sending j = true → th.tick.next[j]? = some s' →
      ∃ d s, due = some d ∧ th.tick.next[d]? = some s ∧ s ≤ s'

theorem leadsBelow_zero (th : TimingThread) : th.LeadsBelow 0 none := by
  refine ⟨fun d hd => ?_, fun j _ hj => absurd hj (Nat.not_lt_zero j)⟩
  cases hd

def Knows (th : TimingThread) : Prop :=
  match th.stage with
  | .looking i due => th.LeadsBelow i due
  | .sleeping due _ => th.Leads due
  | .handing due => th.Leads due
  | .ended => True

/-- The slots handed over so far are in order, and no member still sending is
behind them. -/
structure Ordered (th : TimingThread) : Prop where
  sorted : th.handed.Pairwise fun h h' => h.2 ≤ h'.2
  increasing : th.handed.Pairwise fun h h' => h.1 = h'.1 → h.2 < h'.2
  passed : ∀ g ∈ th.handed, ∀ s, th.tick.next[g.1]? = some s →
    g.2 < s ∨ th.stage = .handing g.1 ∧ g.2 ≤ s
  ahead : ∀ g ∈ th.handed, ∀ (j : ℕ) (s : ℤ), th.sending j = true →
    th.tick.next[j]? = some s → g.2 ≤ s
  knows : Knows th

theorem ordered_begin (members : List (String × Timetable)) (moment : ℤ)
    (nextSlot : List (String × ℤ)) : Ordered (begin members moment nextSlot) where
  sorted := .nil
  increasing := .nil
  passed _ hg := absurd hg List.not_mem_nil
  ahead _ hg := absurd hg List.not_mem_nil
  knows := leadsBelow_zero _

/-- A stop takes a member out of every comparison. -/
theorem sending_of_stops {sending : ℕ → Bool} {i j : ℕ}
    (h : Function.update sending i false j = true) : sending j = true := by
  by_cases hj : j = i
  · subst hj
    simp at h
  · rwa [Function.update_of_ne hj] at h

theorem Ordered.stops (h : Ordered th) (i : ℕ) :
    Ordered { th with sending := Function.update th.sending i false } := by
  refine ⟨h.sorted, h.increasing, h.passed, fun g hg j s hj => h.ahead g hg j s (sending_of_stops hj), ?_⟩
  have hknows := h.knows
  unfold Knows at *
  cases hstage : th.stage with
  | looking k due =>
    rw [hstage] at hknows
    exact ⟨hknows.1, fun j s' hlt hj => hknows.2 j s' hlt (sending_of_stops hj)⟩
  | sleeping due coarse =>
    rw [hstage] at hknows
    obtain ⟨s, hs, hpast, hleads⟩ := hknows
    exact ⟨s, hs, hpast, fun j s' hj => hleads j s' (sending_of_stops hj)⟩
  | handing due =>
    rw [hstage] at hknows
    obtain ⟨s, hs, hpast, hleads⟩ := hknows
    exact ⟨s, hs, hpast, fun j s' hj => hleads j s' (sending_of_stops hj)⟩
  | ended => trivial

/-- A step that only takes the loop to another stage. -/
theorem Ordered.stage (h : Ordered th) {before stage : Stage} (hbefore : th.stage = before)
    (hhanding : ∀ i, before ≠ .handing i) (hknows : Knows { th with stage := stage }) :
    Ordered { th with stage := stage } := by
  refine ⟨h.sorted, h.increasing, fun g hg s hs => ?_, h.ahead, hknows⟩
  obtain hlt | ⟨hstage, -⟩ := h.passed g hg s hs
  · exact Or.inl hlt
  · exact absurd (hbefore.symm.trans hstage) (hhanding _)

theorem Leads.getD {d : ℕ} (h : Leads th d) : th.tick.next[d]? = some (th.tick.next.getD d 0) := by
  obtain ⟨s, hs, -⟩ := h
  simp [List.getD_eq_getElem?_getD, hs]

theorem Ordered.moves (h : Ordered th) (hkept : Kept th) (hmoves : Moves now th m th') :
    Ordered th' := by
  have hknows := h.knows
  unfold Knows at hknows
  cases hmoves with
  | stops i => exact h.stops i
  | @passes i due slot hstage hslot hdue =>
    rw [hstage] at hknows
    obtain ⟨hpast, hbelow⟩ := hknows
    refine h.stage hstage (fun _ => nofun) ⟨hpast, fun j s' hj hsending hs' => ?_⟩
    by_cases hji : j = i
    · -- the member passed over sends no earlier than the one found so far
      subst hji
      rw [hslot] at hs'
      obtain rfl := Option.some.inj hs'
      obtain ⟨d, hd, hle⟩ := hdue hsending
      obtain ⟨s, hs, -⟩ := hpast d hd
      refine ⟨d, s, hd, hs, ?_⟩
      simpa [List.getD_eq_getElem?_getD, hs] using hle
    · exact hbelow j s' (by omega) hsending hs'
  | @takes i due slot hstage hslot hsending hdue =>
    rw [hstage] at hknows
    obtain ⟨hpast, hbelow⟩ := hknows
    refine h.stage hstage (fun _ => nofun) ⟨fun d hd => ?_, fun j s' hj hsj hs' => ?_⟩
    · obtain rfl := Option.some.inj hd
      exact ⟨slot, hslot, fun g hg => h.ahead g hg i slot hsending hslot⟩
    · refine ⟨i, slot, rfl, hslot, ?_⟩
      by_cases hji : j = i
      · subst hji
        rw [hslot] at hs'
        exact (Option.some.inj hs').le
      · obtain ⟨d, s, hd, hs, hle⟩ := hbelow j s' (by omega) hsj hs'
        have hlt := hdue d hd
        simp only [List.getD_eq_getElem?_getD, hs, Option.getD_some] at hlt
        omega
  | runsOut hstage => exact h.stage hstage (fun _ => nofun) trivial
  | @chooses i d hstage hall coarse =>
    rw [hstage] at hknows
    obtain ⟨hpast, hbelow⟩ := hknows
    obtain ⟨s, hs, hle⟩ := hpast d rfl
    refine h.stage hstage (fun _ => nofun) ⟨s, hs, hle, fun j s' hj hs' => ?_⟩
    -- every member has been looked over
    have hs' : th.tick.next[j]? = some s' := hs'
    have hji : j < i := by
      have hlen := List.getElem?_eq_none_iff.mp hall
      obtain ⟨hlt, -⟩ := List.getElem?_eq_some_iff.mp hs'
      omega
    obtain ⟨d', s'', hd', hs'', hle'⟩ := hbelow j s' hji hj hs'
    obtain rfl := Option.some.inj hd'
    rw [hs] at hs''
    obtain rfl := Option.some.inj hs''
    exact hle'
  | wakes hstage =>
    rw [hstage] at hknows
    exact h.stage hstage (fun _ => nofun) hknows
  | stopped hstage =>
    exact h.stage hstage (fun _ => nofun)
      (leadsBelow_zero _)
  | @hands due hstage =>
    rw [hstage] at hknows
    have hslot := Leads.getD hknows
    obtain ⟨s, hs, hpast, hleads⟩ := hknows
    rw [hs] at hslot
    obtain rfl := (Option.some.inj hslot).symm
    constructor
    · rw [List.pairwise_append]
      refine ⟨h.sorted, List.pairwise_singleton _ _, fun g hg g' hg' => ?_⟩
      rw [List.mem_singleton.mp hg']
      exact hpast g hg
    · rw [List.pairwise_append]
      refine ⟨h.increasing, List.pairwise_singleton _ _, fun g hg g' hg' hmember => ?_⟩
      rw [List.mem_singleton.mp hg'] at hmember ⊢
      have hown := hmember ▸ h.passed g hg
      obtain hlt | ⟨hhanding, -⟩ := hown _ hs
      · exact hlt
      · rw [hstage] at hhanding
        cases hhanding
    · intro g hg s' hs'
      rcases List.mem_append.mp hg with hg | hg
      · obtain hlt | ⟨hhanding, -⟩ := h.passed g hg s' hs'
        · exact Or.inl hlt
        · rw [hstage] at hhanding
          cases hhanding
      · rw [List.mem_singleton.mp hg] at hs' ⊢
        have heq : some (th.tick.next.getD due 0) = some s' := hs.symm.trans hs'
        exact Or.inr ⟨rfl, (Option.some.inj heq).le⟩
    · intro g hg j s' hj hs'
      rcases List.mem_append.mp hg with hg | hg
      · exact h.ahead g hg j s' hj hs'
      · rw [List.mem_singleton.mp hg]
        exact hleads j s' hj hs'
    · refine ⟨_, hs, fun g hg => ?_, hleads⟩
      rcases List.mem_append.mp hg with hg | hg
      · exact hpast g hg
      · rw [List.mem_singleton.mp hg]
  | @records due hstage =>
    rw [hstage] at hknows
    obtain ⟨s, hs, hpast, hleads⟩ := hknows
    obtain ⟨t, next, -, hresumes, hself, hother⟩ := hkept.handed now hs
    have hlater := hresumes.later
    refine ⟨h.sorted, h.increasing, fun g hg s' hs' => Or.inl ?_, fun g hg j s' hj hs' => ?_,
      leadsBelow_zero _⟩
    · by_cases hg1 : due = g.1
      · rw [← hg1] at hs'
        obtain rfl := Option.some.inj (hself.symm.trans hs')
        have := hpast g hg
        omega
      · obtain hlt | ⟨hhanding, -⟩ := h.passed g hg s' ((hother _ hg1).symm.trans hs')
        · exact hlt
        · rw [hstage] at hhanding
          exact absurd (Stage.handing.inj hhanding) hg1
    · by_cases hj1 : due = j
      · rw [← hj1] at hs'
        obtain rfl := Option.some.inj (hself.symm.trans hs')
        have := hpast g hg
        omega
      · exact h.ahead g hg j s' hj ((hother _ hj1).symm.trans hs')
  | finishes hstage => exact h.stage hstage (fun _ => nofun) trivial

/-! ### Each member's slots -/

def slotsOf (i : ℕ) (th : TimingThread) : List ℤ := (th.handed.filter fun g => g.1 = i).map Prod.snd

def movedOf (i : ℕ) (th : TimingThread) : List Resumption := th.resumed.filter fun r => r.member = i

/-- A member's slots are the one it started with and those it was moved on to,
the last of them not handed over yet; it is moved on from each one handed over,
the last of them perhaps not yet. -/
structure Chained (th : TimingThread) : Prop where
  length : th.first.length = th.tick.next.length
  own : ∀ g ∈ th.handed, ∃ t : Timetable, th.tick.tables[g.1]? = some t ∧ t.IsSlot g.2
  spaced : ∀ g ∈ th.handed, ∀ account r, th.accounts[g.1]? = some account →
    th.found.lookup account = some r → r - gridTolerance ≤ g.2
  resumes : ∀ r ∈ th.resumed, ∃ t : Timetable,
    th.tick.tables[r.member]? = some t ∧ t.Resumes r.slot r.now r.next
  chain : ∀ (i : ℕ) (s : ℤ), th.tick.next[i]? = some s → ∃ f, th.first[i]? = some f ∧
    th.slotsOf i ++ (if th.stage = .handing i then [] else [s]) =
      f :: (th.movedOf i).map Resumption.next ∧
    th.slotsOf i =
      (th.movedOf i).map Resumption.slot ++ (if th.stage = .handing i then [s] else [])

theorem chained_begin (members : List (String × Timetable)) (moment : ℤ)
    (nextSlot : List (String × ℤ)) : Chained (begin members moment nextSlot) where
  length := rfl
  own _ hg := absurd hg List.not_mem_nil
  spaced _ hg := absurd hg List.not_mem_nil
  resumes _ hr := absurd hr List.not_mem_nil
  chain _ s hs := ⟨s, hs, rfl, rfl⟩

theorem Chained.stage (h : Chained th) {before stage : Stage} (hbefore : th.stage = before)
    (hhanding : ∀ i, before ≠ .handing i) (hafter : ∀ i, stage ≠ .handing i) :
    Chained { th with stage := stage } := by
  refine ⟨h.length, h.own, h.spaced, h.resumes, fun i s hs => ?_⟩
  have hchain := h.chain i s hs
  rw [if_neg (hbefore ▸ hhanding i), if_neg (hbefore ▸ hhanding i)] at hchain
  show ∃ f, _ ∧ _ ++ (if stage = .handing i then [] else [s]) = _ ∧
    _ = _ ++ (if stage = .handing i then [s] else [])
  rw [if_neg (hafter i), if_neg (hafter i)]
  exact hchain

theorem Chained.hands (h : Chained th) (hkept : Kept th) {due : ℕ} {slot : ℤ}
    (hstage : th.stage = .sleeping due false) (hslot : th.tick.next[due]? = some slot) :
    Chained { th with stage := .handing due, handed := th.handed ++ [(due, slot)] } := by
  obtain ⟨t, ht, -⟩ := hkept.table hslot
  constructor
  · exact h.length
  · intro g hg
    rcases List.mem_append.mp hg with hg | hg
    · exact h.own g hg
    · rw [List.mem_singleton.mp hg]
      exact ⟨t, ht, hkept.isSlot due t slot ht hslot⟩
  · intro g hg account r ha hr
    rcases List.mem_append.mp hg with hg | hg
    · exact h.spaced g hg account r ha hr
    · rw [List.mem_singleton.mp hg] at ha ⊢
      exact hkept.spaced due slot account r hslot ha hr
  · exact h.resumes
  · intro i s hs
    obtain ⟨f, hf, hnexts, hslots⟩ := h.chain i s hs
    have hother : th.stage ≠ .handing i := by
      rw [hstage]
      exact nofun
    rw [if_neg hother] at hnexts hslots
    refine ⟨f, hf, ?_⟩
    by_cases hi : due = i
    · subst hi
      obtain rfl := Option.some.inj (hslot.symm.trans hs)
      simp only [slotsOf, movedOf, List.filter_append, List.map_append, if_true] at *
      simp_all
    · have hstage' : Stage.handing due ≠ .handing i := fun heq => hi (Stage.handing.inj heq)
      simp only [slotsOf, movedOf, List.filter_append, List.map_append, if_neg hstage'] at *
      simp_all

theorem Chained.records (h : Chained th) (hkept : Kept th) (now : ℤ) {due : ℕ} {slot : ℤ}
    (hstage : th.stage = .handing due) (hslot : th.tick.next[due]? = some slot) :
    Chained { th with
      tick := th.tick.handed now due
      stage := .looking 0 none
      resumed := th.resumed ++ [⟨due, slot, now, (th.tick.handed now due).next.getD due 0⟩] } := by
  obtain ⟨t, next, ht, hresumes, hself, hother⟩ := hkept.handed now hslot
  have hnext : (th.tick.handed now due).next.getD due 0 = next := by
    rw [List.getD_eq_getElem?_getD, hself, Option.getD_some]
  rw [hnext]
  constructor
  · rw [Tick.handed_length]
    exact h.length
  · simp only [Tick.handed_tables]
    exact h.own
  · exact h.spaced
  · intro r hr
    simp only [Tick.handed_tables]
    rcases List.mem_append.mp hr with hr | hr
    · exact h.resumes r hr
    · rw [List.mem_singleton.mp hr]
      exact ⟨t, ht, hresumes⟩
  · intro i s hs
    by_cases hi : due = i
    · subst hi
      obtain ⟨f, hf, hnexts, hslots⟩ := h.chain due slot hslot
      obtain rfl := Option.some.inj (hself.symm.trans hs)
      refine ⟨f, hf, ?_⟩
      simp only [slotsOf, movedOf, List.filter_append, List.map_append, hstage, if_true] at *
      simp_all
    · have hs' := (hother i hi).symm.trans hs
      obtain ⟨f, hf, hnexts, hslots⟩ := h.chain i s hs'
      have hstage' : Stage.handing due ≠ .handing i := fun heq => hi (Stage.handing.inj heq)
      refine ⟨f, hf, ?_⟩
      simp only [slotsOf, movedOf, List.filter_append, List.map_append, hstage, if_neg hstage'] at *
      simp_all

theorem Chained.moves (h : Chained th) (hkept : Kept th) (hordered : Ordered th)
    (hmoves : Moves now th m th') : Chained th' := by
  have hknows := hordered.knows
  unfold Knows at hknows
  cases hmoves with
  | stops i => exact ⟨h.length, h.own, h.spaced, h.resumes, h.chain⟩
  | passes hstage => exact h.stage hstage (fun _ => nofun) (fun _ => nofun)
  | takes hstage => exact h.stage hstage (fun _ => nofun) (fun _ => nofun)
  | runsOut hstage => exact h.stage hstage (fun _ => nofun) (fun _ => nofun)
  | chooses hstage => exact h.stage hstage (fun _ => nofun) (fun _ => nofun)
  | wakes hstage => exact h.stage hstage (fun _ => nofun) (fun _ => nofun)
  | stopped hstage => exact h.stage hstage (fun _ => nofun) (fun _ => nofun)
  | finishes hstage => exact h.stage hstage (fun _ => nofun) (fun _ => nofun)
  | hands hstage =>
    rw [hstage] at hknows
    exact h.hands hkept hstage (Leads.getD hknows)
  | records hstage =>
    rw [hstage] at hknows
    exact h.records hkept now hstage (Leads.getD hknows)

/-- Accounts, tables and what was found in `nextSlot` are a thread's for good. -/
theorem Moves.same (h : Moves now th m th') :
    th'.accounts = th.accounts ∧ th'.tick.tables = th.tick.tables ∧ th'.found = th.found := by
  cases h with
  | records hstage => exact ⟨rfl, Tick.handed_tables _ _ _, rfl⟩
  | _ => exact ⟨rfl, rfl, rfl⟩

/-- What a timing thread does over a whole knock. The slots come in order,
each member's strictly so and all of its own table, none before the slot its
account was left with; a member's slots are the one it started with and then
those it was moved on to. -/
structure Orderly (th : TimingThread) : Prop where
  sorted : th.handed.Pairwise fun g g' => g.2 ≤ g'.2
  increasing : th.handed.Pairwise fun g g' => g.1 = g'.1 → g.2 < g'.2
  own : ∀ g ∈ th.handed, ∃ t : Timetable, th.tick.tables[g.1]? = some t ∧ t.IsSlot g.2
  spaced : ∀ g ∈ th.handed, ∀ account r, th.accounts[g.1]? = some account →
    th.found.lookup account = some r → r - gridTolerance ≤ g.2
  resumes : ∀ r ∈ th.resumed, ∃ t : Timetable,
    th.tick.tables[r.member]? = some t ∧ t.Resumes r.slot r.now r.next
  chain : ∀ (i : ℕ) (f : ℤ), th.first[i]? = some f →
    th.slotsOf i <+: f :: (th.movedOf i).map Resumption.next ∧
      (th.movedOf i).map Resumption.slot <+: th.slotsOf i

theorem orderly (hordered : Ordered th) (hchained : Chained th) : Orderly th where
  sorted := hordered.sorted
  increasing := hordered.increasing
  own := hchained.own
  spaced := hchained.spaced
  resumes := hchained.resumes
  chain i f hf := by
    obtain ⟨hi, -⟩ := List.getElem?_eq_some_iff.mp hf
    rw [hchained.length] at hi
    obtain ⟨f', hf', hnexts, hslots⟩ := hchained.chain i _ (List.getElem?_eq_getElem hi)
    obtain rfl := Option.some.inj (hf.symm.trans hf')
    exact ⟨⟨_, hnexts⟩, ⟨_, hslots.symm⟩⟩

end TimingThread

namespace Knocks

def Has (k : ℕ) (members : List (String × Timetable)) (found : List (String × ℤ)) (s : Knocks) :
    Prop :=
  ∃ th, s.threads[k]? = some th ∧ th.accounts = members.map Prod.fst ∧
    th.tick.tables = members.map Prod.snd ∧ th.found = found ∧ th.Kept ∧ th.Ordered ∧ th.Chained

variable {s : Knocks} {k : ℕ} {members : List (String × Timetable)} {found : List (String × ℤ)}

/-- Another knock's beginning, or another thread's step, leaves it alone. -/
theorem Has.next (h : Has k members found s) (step : ℤ × KnocksMove) :
    Has k members found (s.next step) := by
  obtain ⟨th, hth, haccounts, htables, hfound, hkept, hordered, hchained⟩ := h
  have hsame : Has k members found s :=
    ⟨th, hth, haccounts, htables, hfound, hkept, hordered, hchained⟩
  have hk : k < s.threads.length := (List.getElem?_eq_some_iff.mp hth).1
  unfold Knocks.next
  split
  · split
    · split
      · refine ⟨th, ?_, haccounts, htables, hfound, hkept, hordered, hchained⟩
        simpa only [List.getElem?_append_left hk] using hth
      · exact hsame
    · rename_i k' m _
      split
      · rename_i th₀ hth₀
        cases hmove : th₀.move step.1 m with
        | none => exact hsame
        | some th' =>
          by_cases hkk : k' = k
          · subst hkk
            obtain rfl := Option.some.inj (hth.symm.trans hth₀)
            have hmoves := TimingThread.moves_of_move hmove
            obtain ⟨haccounts', htables', hfound'⟩ := hmoves.same
            refine ⟨th', ?_, haccounts'.trans haccounts, htables'.trans htables,
              hfound'.trans hfound, hkept.moves hmoves, hordered.moves hkept hmoves,
              hchained.moves hkept hordered hmoves⟩
            simp only [Option.elim_some]
            exact List.getElem?_set_self hk
          · refine ⟨th, ?_, haccounts, htables, hfound, hkept, hordered, hchained⟩
            simp only [Option.elim_some]
            rw [List.getElem?_set_ne hkk]
            exact hth
      · exact hsame
  · exact hsame

theorem Has.run (h : Has k members found s) (steps : List (ℤ × KnocksMove)) :
    Has k members found (steps.foldl Knocks.next s) :=
  run_preserves (Has k members found)
    (fun _ _ ⟨step, hstep⟩ hhas => hstep ▸ Has.next hhas step) (run_of_events s steps) h

theorem has_begin (hwf : ∀ m ∈ members, m.2.WellFormed) {now moment : ℤ} (hnow : s.clock ≤ now)
    (hmoment : moment ≤ now) :
    Has s.threads.length members s.nextSlot (s.next (now, .begin members moment)) := by
  refine ⟨TimingThread.begin members moment s.nextSlot, ?_, rfl, rfl, rfl,
    TimingThread.kept_begin hwf _ _, TimingThread.ordered_begin _ _ _,
    TimingThread.chained_begin _ _ _⟩
  unfold Knocks.next
  simp only [if_pos hnow, if_pos hmoment]
  simp

/-- Whatever knocks came before it and go on beside it, a knock whose tables
are well formed is handed over in order, from the slots it finds recorded. -/
theorem thread_orderly (hwf : ∀ m ∈ members, m.2.WellFormed) (clock : ℤ)
    (before after : List (ℤ × KnocksMove)) {now moment : ℤ} (hmoment : moment ≤ now)
    (hnow : (before.foldl Knocks.next (Knocks.start clock)).clock ≤ now) :
    ∃ th : TimingThread,
      ((before ++ (now, .begin members moment) :: after).foldl Knocks.next
        (Knocks.start clock)).threads[(before.foldl Knocks.next
          (Knocks.start clock)).threads.length]? = some th ∧
      th.accounts = members.map Prod.fst ∧ th.tick.tables = members.map Prod.snd ∧
      th.found = (before.foldl Knocks.next (Knocks.start clock)).nextSlot ∧ th.Orderly := by
  rw [List.foldl_append, List.foldl_cons]
  obtain ⟨th, hth, haccounts, htables, hfound, -, hordered, hchained⟩ :=
    (has_begin hwf hnow hmoment).run after
  exact ⟨th, hth, haccounts, htables, hfound, TimingThread.orderly hordered hchained⟩

def turnOf (slot reading : ℤ) : List (ℤ × KnocksMove) :=
  [(slot, .thread 0 .look), (slot, .thread 0 .look), (slot, .thread 0 .hand),
    (reading, .thread 0 .record)]

def closeBursts : Timetable :=
  ⟨[⟨0, 45500, 5000, 20000⟩, ⟨45500, 46000, 475, 1900⟩], 46000, 5000, 20000⟩

theorem closeBursts_wellFormed : closeBursts.WellFormed := by
  unfold closeBursts
  refine ⟨by simp, by simp, by simp, ?_, ⟨by simp, by simp [gridTolerance]⟩⟩
  intro b hb
  simp only [List.mem_cons, List.not_mem_nil, or_false] at hb
  obtain rfl | rfl := hb
  · exact ⟨by simp, by simp [gridTolerance]⟩
  · exact ⟨by simp, by simp [gridTolerance]⟩

theorem thread_orderly_closeBursts :
    ∃ th : TimingThread,
      (([] ++ (0, KnocksMove.begin [("a", closeBursts)] 0) :: turnOf 5000 25200).foldl Knocks.next
        (Knocks.start 0)).threads[0]? = some th ∧ th.Orderly := by
  have hwf : ∀ m ∈ [("a", closeBursts)], m.2.WellFormed := by
    intro m hm
    rw [List.mem_singleton.mp hm]
    exact closeBursts_wellFormed
  obtain ⟨th, hth, -, -, -, horderly⟩ :=
    thread_orderly hwf 0 [] (turnOf 5000 25200) (le_refl 0) (le_refl 0)
  exact ⟨th, hth, horderly⟩

/-- After a stall to the burst's end the member goes on at 45975, although its
slot at 45000 is within the tolerance; and with no stall at all it goes on from
45000 past the slot at 45975. -/
theorem closeBursts_passes_over :
    closeBursts.IsSlot 45000 ∧ closeBursts.IsSlot 45975 ∧ 45500 - gridTolerance ≤ 45000 ∧
      (([(0, KnocksMove.begin [("a", closeBursts)] 0)] ++ turnOf 5000 5000 ++ turnOf 25000 45500).foldl
        Knocks.next (Knocks.start 0)).threads.map TimingThread.resumed =
          [[⟨0, 5000, 5000, 25000⟩, ⟨0, 25000, 45500, 45975⟩]] ∧
      (([(0, KnocksMove.begin [("a", closeBursts)] 0)] ++ turnOf 5000 5000 ++ turnOf 25000 25000 ++
        turnOf 45000 45000).foldl Knocks.next (Knocks.start 0)).threads.map TimingThread.resumed =
          [[⟨0, 5000, 5000, 25000⟩, ⟨0, 25000, 25000, 45000⟩, ⟨0, 45000, 45000, 51000⟩]] := by
  refine ⟨Or.inl ⟨⟨0, 45500, 5000, 20000⟩, by simp [closeBursts], ⟨2, by simp⟩, by simp⟩,
    Or.inl ⟨⟨45500, 46000, 475, 1900⟩, by simp [closeBursts], ⟨0, by simp⟩, by simp⟩,
    by simp [gridTolerance], by decide +kernel, by decide +kernel⟩

end Knocks

end EventQuant.Knock
