import EventQuant.Knock.Schedule
import EventQuant.Library.Successors

/-!
The slots of a timetable. The timing thread never lists them: it asks for the
first at or after a moment and for the one after that. Where the stretches
follow one another and each phase leaves the tolerance free before the next
slot, the answer is a slot of the table, none later than it had to be.
-/
namespace EventQuant.Knock

/-- `from + phase + k*interval`, `k` from 0 on, before `until`. -/
def Stretch.IsSlot (b : Stretch) (s : ℤ) : Prop :=
  (∃ k : ℤ, 0 ≤ k ∧ s = b.fromNs + b.phase + k * b.interval) ∧ s < b.untilNs

/-- `origin + phase + k*interval`, `k` from 0 on. -/
def Timetable.IsCadence (t : Timetable) (s : ℤ) : Prop :=
  ∃ k : ℤ, 0 ≤ k ∧ s = t.origin + t.phase + k * t.interval

def Timetable.IsSlot (t : Timetable) (s : ℤ) : Prop :=
  (∃ b ∈ t.bursts, b.IsSlot s) ∨ t.IsCadence s

/-- A phase within its interval, with more than the tolerance to spare. -/
structure Spaced (phase interval : ℤ) : Prop where
  nonneg : 0 ≤ phase
  lt : phase + gridTolerance < interval

/-- The bursts follow one another and the cadence follows the last. -/
structure Timetable.WellFormed (t : Timetable) : Prop where
  ends : ∀ b ∈ t.bursts, b.fromNs < b.untilNs
  follow : t.bursts.IsChain fun b c => b.untilNs ≤ c.fromNs
  last : ∀ b ∈ t.bursts.getLast?, b.untilNs ≤ t.origin
  spaced : ∀ b ∈ t.bursts, Spaced b.phase b.interval
  cadence : Spaced t.phase t.interval

def Timetable.Long (t : Timetable) : Prop :=
  ∀ b ∈ t.bursts, gridTolerance < b.untilNs - b.fromNs

/-- `after`: the slot that follows the one at `slot`. -/
def Timetable.after (t : Timetable) (slot : ℤ) : ℤ := t.at (slot + gridTolerance + 1)

/-! ### One stretch -/

/-- By a positive interval the division rounds up, below zero as above it. -/
theorem le_ceilDiv_mul (a : ℤ) {b : ℤ} (hb : 0 < b) : a ≤ ceilDiv a b * b := by
  have hdiv := Int.tdiv_mul_add_tmod a b
  have hmod : a.tmod b < b := Int.tmod_lt_of_pos a hb
  unfold ceilDiv
  split
  · rw [add_mul]
    omega
  · rename_i hno
    by_cases ha : 0 < a
    · have hzero : a.tmod b = 0 := by
        by_contra hne
        exact hno ⟨hne, ha⟩
      omega
    · have hle : a.tmod b ≤ 0 := by
        have hneg := Int.tmod_nonneg b (show 0 ≤ -a by omega)
        rw [Int.neg_tmod] at hneg
        omega
      omega

/-- No smaller multiple will do. -/
theorem ceilDiv_le {a b k : ℤ} (hb : 0 < b) (h : a ≤ k * b) : ceilDiv a b ≤ k := by
  have hdiv := Int.tdiv_mul_add_tmod a b
  by_contra hk
  have hstep : k * b ≤ (ceilDiv a b - 1) * b := Int.mul_le_mul_of_nonneg_right (by omega) hb.le
  unfold ceilDiv at hstep
  split at hstep
  · rename_i hup
    have hmod := Int.tmod_nonneg b hup.2.le
    have hpos : 0 < a.tmod b := by omega
    rw [add_sub_cancel_right] at hstep
    omega
  · rw [sub_mul, one_mul] at hstep
    have hmod : -b < a.tmod b := by
      have := Int.tmod_lt_of_pos (-a) hb
      rw [Int.neg_tmod] at this
      omega
    omega

/-- A moment less than an interval early still gives the first slot. -/
theorem ceilDiv_nonneg {a b : ℤ} (hb : 0 < b) (h : -b < a) : 0 ≤ ceilDiv a b := by
  have hle := le_ceilDiv_mul a hb
  have hlt : -1 * b < ceilDiv a b * b := by omega
  have := Int.lt_of_mul_lt_mul_right hlt hb.le
  omega

namespace Spaced

variable {phase interval moment start k : ℤ}

theorem interval_pos (h : Spaced phase interval) : 0 < interval := by
  have := h.nonneg
  have := h.lt
  unfold gridTolerance at this
  omega

/-- The answer is no earlier than the moment, the tolerance apart. -/
theorem le_slotAtOrAfter (h : Spaced phase interval) (moment start : ℤ) :
    moment - gridTolerance ≤ slotAtOrAfter moment start phase interval := by
  have := le_ceilDiv_mul (moment - start - phase - gridTolerance) h.interval_pos
  unfold slotAtOrAfter
  omega

/-- And no later than any slot from there on. -/
theorem slotAtOrAfter_le (h : Spaced phase interval)
    (hk : moment - gridTolerance ≤ start + phase + k * interval) :
    slotAtOrAfter moment start phase interval ≤ start + phase + k * interval := by
  have hle : ceilDiv (moment - start - phase - gridTolerance) interval ≤ k :=
    ceilDiv_le h.interval_pos (by omega)
  have := Int.mul_le_mul_of_nonneg_right hle h.interval_pos.le
  unfold slotAtOrAfter
  omega

/-- From the start on it is one of the slots. -/
theorem slotAtOrAfter_mem (h : Spaced phase interval) (hm : start ≤ moment) :
    ∃ k : ℤ, 0 ≤ k ∧ slotAtOrAfter moment start phase interval = start + phase + k * interval := by
  refine ⟨_, ceilDiv_nonneg h.interval_pos ?_, rfl⟩
  have := h.lt
  omega

end Spaced

namespace Stretch.IsSlot

variable {b : Stretch} {s x : ℤ}

theorem from_le (h : b.IsSlot s) (hb : Spaced b.phase b.interval) : b.fromNs ≤ s := by
  obtain ⟨⟨k, hk, hs⟩, -⟩ := h
  have := Int.mul_nonneg hk hb.interval_pos.le
  have := hb.nonneg
  omega

/-- Two slots of a stretch are an interval apart. -/
theorem gap (h : b.IsSlot s) (hx : b.IsSlot x) (hb : Spaced b.phase b.interval) (hlt : s < x) :
    s + gridTolerance < x := by
  obtain ⟨⟨k, hk, hs⟩, -⟩ := h
  obtain ⟨⟨j, hj, hx⟩, -⟩ := hx
  have hkj : k * b.interval < j * b.interval := by omega
  have hstep := Int.lt_of_mul_lt_mul_right hkj hb.interval_pos.le
  have hmul : (k + 1) * b.interval ≤ j * b.interval :=
    Int.mul_le_mul_of_nonneg_right hstep hb.interval_pos.le
  rw [Int.add_mul, Int.one_mul] at hmul
  have := hb.nonneg
  have := hb.lt
  omega

end Stretch.IsSlot

/-! ### The bursts -/

section Bursts

variable {bursts : List Stretch} {b : Stretch} {moment s x : ℤ}

theorem burstAt_cons (moment : ℤ) (b : Stretch) (rest : List Stretch) :
    burstAt moment (b :: rest) =
      if b.untilNs ≤ moment then burstAt moment rest
      else if slotAtOrAfter (max moment b.fromNs) b.fromNs b.phase b.interval < b.untilNs then
        some (slotAtOrAfter (max moment b.fromNs) b.fromNs b.phase b.interval)
      else burstAt moment rest :=
  rfl

/-- What a burst gives is one of its slots, and it is not over yet. -/
theorem burstAt_isSlot (hspaced : ∀ b ∈ bursts, Spaced b.phase b.interval)
    (h : burstAt moment bursts = some s) :
    (∃ b ∈ bursts, moment < b.untilNs ∧ b.IsSlot s) ∧ moment - gridTolerance ≤ s := by
  induction bursts with
  | nil => simp [burstAt] at h
  | cons b rest ih =>
    have hb := hspaced b List.mem_cons_self
    have htail : burstAt moment rest = some s →
        (∃ c ∈ b :: rest, moment < c.untilNs ∧ c.IsSlot s) ∧ moment - gridTolerance ≤ s := by
      intro hrest
      obtain ⟨⟨c, hc, hslot⟩, hle⟩ :=
        ih (fun c hc => hspaced c (List.mem_cons_of_mem _ hc)) hrest
      exact ⟨⟨c, List.mem_cons_of_mem _ hc, hslot⟩, hle⟩
    rw [burstAt_cons] at h
    split at h
    · exact htail h
    · rename_i hover
      split at h
      · rename_i hbefore
        cases h
        obtain ⟨k, hk, hs⟩ := hb.slotAtOrAfter_mem (le_max_right moment b.fromNs)
        have hle := hb.le_slotAtOrAfter (max moment b.fromNs) b.fromNs
        exact ⟨⟨b, List.mem_cons_self, not_le.mp hover, ⟨k, hk, hs⟩, hbefore⟩, by omega⟩
      · exact htail h

/-- A slot within the tolerance of a moment its burst is not over at bounds
the answer. -/
theorem burstAt_le (hspaced : ∀ b ∈ bursts, Spaced b.phase b.interval)
    (hfollow : bursts.Pairwise fun b c => b.untilNs ≤ c.fromNs)
    (hb : b ∈ bursts) (hx : b.IsSlot x) (hm : moment - gridTolerance ≤ x)
    (hover : moment < b.untilNs) : ∃ s, burstAt moment bursts = some s ∧ s ≤ x := by
  induction bursts with
  | nil => simp at hb
  | cons c rest ih =>
    have hc := hspaced c List.mem_cons_self
    obtain ⟨hafter, hrest⟩ := List.pairwise_cons.mp hfollow
    rw [burstAt_cons]
    rcases List.mem_cons.mp hb with rfl | hmem
    · obtain ⟨⟨k, -, hslot⟩, hbefore⟩ := id hx
      have hfrom := hx.from_le hc
      have hle : slotAtOrAfter (max moment b.fromNs) b.fromNs b.phase b.interval ≤ x := by
        rw [hslot]
        apply hc.slotAtOrAfter_le
        unfold gridTolerance at *
        omega
      rw [if_neg (not_le.mpr hover), if_pos (by omega)]
      exact ⟨_, rfl, hle⟩
    · have hnext := ih (fun d hd => hspaced d (List.mem_cons_of_mem _ hd)) hrest hmem
      split
      · exact hnext
      · split
        · have hlater := hafter b hmem
          have hfrom := hx.from_le (hspaced b hb)
          exact ⟨_, rfl, by omega⟩
        · exact hnext

end Bursts

namespace Timetable

variable {t : Timetable} {b : Stretch} {moment s x : ℤ}

namespace WellFormed

/-- Each burst is over before any later one. -/
theorem pairwise (h : t.WellFormed) : t.bursts.Pairwise fun b c => b.untilNs ≤ c.fromNs := by
  have htrans : IsTrans Stretch fun b c => b.untilNs ≤ c.fromNs ∧ c.fromNs < c.untilNs :=
    ⟨fun b c d hbc hcd => ⟨by omega, hcd.2⟩⟩
  have hchain : t.bursts.IsChain fun b c => b.untilNs ≤ c.fromNs ∧ c.fromNs < c.untilNs :=
    h.follow.imp_of_mem_imp fun b c _ hc hbc => ⟨hbc, h.ends c hc⟩
  exact (List.isChain_iff_pairwise.mp hchain).imp And.left

/-- And before the cadence. -/
theorem until_le_origin (h : t.WellFormed) (hb : b ∈ t.bursts) : b.untilNs ≤ t.origin := by
  have hends : t.bursts.Pairwise fun b c => b.untilNs ≤ c.untilNs := by
    refine h.pairwise.imp_of_mem fun hb hc hbc => ?_
    have := h.ends _ hc
    omega
  have hlast := hends.rel_getLast_of_rel_getLast_getLast hb le_rfl
  have horigin := h.last _ (List.getLast?_eq_getLast_of_ne_nil (List.ne_nil_of_mem hb))
  omega

/-- Of two bursts one is over before the other. -/
theorem disjoint (h : t.WellFormed) {c : Stretch} (hb : b ∈ t.bursts) (hc : c ∈ t.bursts)
    (hne : b ≠ c) : b.untilNs ≤ c.fromNs ∨ c.untilNs ≤ b.fromNs := by
  have hsymm : Std.Symm fun b c : Stretch => b.untilNs ≤ c.fromNs ∨ c.untilNs ≤ b.fromNs :=
    ⟨fun b c hbc => hbc.symm⟩
  have hpair : t.bursts.Pairwise fun b c => b.untilNs ≤ c.fromNs ∨ c.untilNs ≤ b.fromNs :=
    h.pairwise.imp Or.inl
  exact hpair.forall hb hc hne

end WellFormed

/-- The answer is a slot of the table. -/
theorem at_isSlot (h : t.WellFormed) (moment : ℤ) : t.IsSlot (t.at moment) := by
  unfold Timetable.at
  cases hburst : burstAt moment t.bursts with
  | some s =>
    obtain ⟨⟨b, hb, -, hslot⟩, -⟩ := burstAt_isSlot h.spaced hburst
    exact Or.inl ⟨b, hb, hslot⟩
  | none => exact Or.inr (h.cadence.slotAtOrAfter_mem (le_max_right _ _))

/-- No earlier than the moment, the tolerance apart. -/
theorem le_at (h : t.WellFormed) (moment : ℤ) : moment - gridTolerance ≤ t.at moment := by
  unfold Timetable.at
  cases hburst : burstAt moment t.bursts with
  | some s => exact (burstAt_isSlot h.spaced hburst).2
  | none =>
    have := h.cadence.le_slotAtOrAfter (max moment t.origin) t.origin
    simp only [Option.getD_none]
    omega

/-- No later than a slot of a burst not over yet. -/
theorem at_le_of_burst (h : t.WellFormed) (hb : b ∈ t.bursts) (hx : b.IsSlot x)
    (hm : moment - gridTolerance ≤ x) (hover : moment < b.untilNs) : t.at moment ≤ x := by
  obtain ⟨s, hs, hle⟩ := burstAt_le h.spaced h.pairwise hb hx hm hover
  unfold Timetable.at
  rw [hs]
  exact hle

theorem IsCadence.origin_le (h : t.WellFormed) (hx : t.IsCadence x) : t.origin ≤ x := by
  obtain ⟨k, hk, hx⟩ := hx
  have := Int.mul_nonneg hk h.cadence.interval_pos.le
  have := h.cadence.nonneg
  omega

/-- No later than a slot of the cadence. -/
theorem at_le_of_cadence (h : t.WellFormed) (hx : t.IsCadence x) (hm : moment - gridTolerance ≤ x) :
    t.at moment ≤ x := by
  have horigin := hx.origin_le h
  unfold Timetable.at
  cases hburst : burstAt moment t.bursts with
  | some s =>
    obtain ⟨⟨b, hb, -, hslot⟩, -⟩ := burstAt_isSlot h.spaced hburst
    have := hslot.2
    have := h.until_le_origin hb
    simp only [Option.getD_some]
    omega
  | none =>
    obtain ⟨k, -, hk⟩ := hx
    rw [hk]
    apply h.cadence.slotAtOrAfter_le
    unfold gridTolerance at *
    omega

/-- No slot is left out between the moment and the answer. -/
theorem at_le (h : t.WellFormed) (hx : t.IsSlot x) (hm : moment ≤ x) : t.at moment ≤ x := by
  have hg : moment - gridTolerance ≤ x := by
    unfold gridTolerance
    omega
  obtain ⟨b, hb, hslot⟩ | hcadence := hx
  · exact at_le_of_burst h hb hslot hg (by have := hslot.2; omega)
  · exact at_le_of_cadence h hcadence hg

/-- The slot after one is no later than any other: one within the tolerance
of it is in a later stretch, which is not over yet. -/
theorem after_le (h : t.WellFormed) (hlong : t.Long) (hs : t.IsSlot s) (hx : t.IsSlot x)
    (hlt : s < x) : t.after s ≤ x := by
  unfold after
  obtain ⟨b, hb, hslot⟩ | hcadence := hx
  · refine at_le_of_burst h hb hslot (by omega) ?_
    have hbefore := hslot.2
    have hlength := hlong b hb
    by_cases hfrom : s < b.fromNs
    · omega
    obtain ⟨c, hc, hsc⟩ | hsc := hs
    · by_cases hbc : b = c
      · subst hbc
        have := hsc.gap hslot (h.spaced b hb) hlt
        omega
      · have hcfrom := hsc.from_le (h.spaced c hc)
        have hcbefore := hsc.2
        have := h.disjoint hb hc hbc
        omega
    · have horigin := hsc.origin_le h
      have := h.until_le_origin hb
      omega
  · exact at_le_of_cadence h hcadence (by omega)

/-- `after` takes each slot of a table to the next one. -/
theorem succeeds_after (h : t.WellFormed) (hlong : t.Long) :
    Succeeds {x | t.IsSlot x} t.after where
  mem _ _ := at_isSlot h _
  lt s _ := by
    have := le_at h (s + gridTolerance + 1)
    unfold after
    omega
  least _ hs _ hx := after_le h hlong hs hx

def IsOpen (t : Timetable) (moment x : ℤ) : Prop :=
  (∃ b ∈ t.bursts, moment < b.untilNs ∧ b.IsSlot x) ∨ t.IsCadence x

/-- Which of the slots within the tolerance of a moment `at` gives: the first
one of the stretches not over yet. -/
theorem isLeast_at (h : t.WellFormed) (moment : ℤ) :
    IsLeast {x | t.IsOpen moment x ∧ moment - gridTolerance ≤ x} (t.at moment) := by
  refine ⟨⟨?_, le_at h moment⟩, fun x hx => ?_⟩
  · unfold Timetable.at
    cases hburst : burstAt moment t.bursts with
    | some s => exact Or.inl (burstAt_isSlot h.spaced hburst).1
    | none => exact Or.inr (h.cadence.slotAtOrAfter_mem (le_max_right _ _))
  · obtain ⟨⟨b, hb, hover, hslot⟩ | hcadence, hm⟩ := hx
    · exact at_le_of_burst h hb hslot hm hover
    · exact at_le_of_cadence h hcadence hm

/-- `at` rounds a moment up to a slot of the table, none passed over, and from
any slot `after` lists every later one once and in order. -/
theorem at_after_slots (h : t.WellFormed) :
    (∀ moment, t.IsSlot (t.at moment) ∧ moment - gridTolerance ≤ t.at moment ∧
      ∀ x, t.IsSlot x → ¬ (moment ≤ x ∧ x < t.at moment)) ∧
    (t.Long → ∀ s, t.IsSlot s → StrictMono (fun n => t.after^[n] s) ∧
      Set.range (fun n => t.after^[n + 1] s) = {x | t.IsSlot x ∧ s < x}) := by
  constructor
  · intro moment
    refine ⟨at_isSlot h moment, le_at h moment, fun x hx hbetween => ?_⟩
    have := at_le h hx hbetween.1
    omega
  · intro hlong s hs
    have hnext := succeeds_after h hlong
    exact ⟨hnext.strictMono_iterate hs, hnext.range_iterate hs⟩

def twoBursts : Timetable :=
  ⟨[⟨0, 50000, 2000, 10000⟩, ⟨50000, 60000, 1000, 4000⟩], 70000, 3000, 20000⟩

theorem at_after_slots_twoBursts :
    twoBursts.WellFormed ∧ twoBursts.IsSlot (twoBursts.at 49000) ∧
      Set.range (fun n => twoBursts.after^[n + 1] 2000) = {x | twoBursts.IsSlot x ∧ 2000 < x} := by
  have h : twoBursts.WellFormed := by
    unfold twoBursts
    refine ⟨by simp, by simp, by simp, ?_, ⟨by simp, by simp [gridTolerance]⟩⟩
    intro b hb
    simp only [List.mem_cons, List.not_mem_nil, or_false] at hb
    obtain rfl | rfl := hb
    · exact ⟨by simp, by simp [gridTolerance]⟩
    · exact ⟨by simp, by simp [gridTolerance]⟩
  have hlong : twoBursts.Long := by
    intro b hb
    simp only [twoBursts, List.mem_cons, List.not_mem_nil, or_false] at hb
    obtain rfl | rfl := hb <;> simp [gridTolerance]
  have hslot : twoBursts.IsSlot 2000 :=
    Or.inl ⟨_, List.mem_cons_self, ⟨⟨0, by simp⟩, by simp⟩⟩
  exact ⟨h, ((at_after_slots h).1 49000).1, ((at_after_slots h).2 hlong 2000 hslot).2⟩

example : [twoBursts.at 0, twoBursts.at 46000, twoBursts.after 42000, twoBursts.after 59000] =
    [2000, 51000, 51000, 73000] := by decide

end Timetable

end EventQuant.Knock
