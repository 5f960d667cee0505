import EventQuant.Venue.Streams

/-!
What a pick has read by the time it takes its stream: every connection it
passed was full. While nothing but streams given back changes the counts, the
one chosen is among the least read; while nothing changes them at all, the rest
of the scan is the rest of `pick`.
-/
namespace EventQuant.Venue

/-- The counts as `InFlight` lists them. -/
def loads (counts : Counts) : List ℕ := List.ofFn fun j => (counts j).toNat

theorem loads_getD (counts : Counts) (j : Fin lanes) :
    (loads counts).getD j 0 = (counts j).toNat := by
  have hj : j.val < (loads counts).length := by simp [loads]
  rw [List.getD_eq_getElem _ _ hj]
  simp [loads]

theorem loads_drop (counts : Counts) (j : Fin lanes) :
    (loads counts).drop j = (counts j).toNat :: (loads counts).drop (j + 1) := by
  have hj : j.val < (loads counts).length := by simp [loads]
  rw [List.drop_eq_getElem_cons hj]
  simp [loads]

namespace Scan

theorem at?_eq_some {c : Scan} {lane : Fin lanes} :
    c.at? = some lane ↔ lane.val = c.passed.length := by
  unfold at?
  split
  · rw [Option.some.injEq, Fin.ext_iff]
    exact eq_comm
  · rename_i hlen
    have hlane := lane.isLt
    simp
    omega

theorem at?_eq_none {c : Scan} : c.at? = none ↔ lanes ≤ c.passed.length := by
  unfold at?
  split
  · simp
    omega
  · simp
    omega

/-- What one step of a scan comes to. -/
inductive Turns (counts : Counts) (c : Scan) : Scan → Prop
  | stay : Turns counts c c
  | spare (lane : Fin lanes) (hat : c.at? = some lane) (hstage : c.stage = .reading)
      (hspare : counts lane < streamsPerLane) :
      Turns counts c { c with chosen := lane, stage := .spare (counts lane) }
  | full (lane : Fin lanes) (hat : c.at? = some lane) (hstage : c.stage = .reading)
      (hfull : streamsPerLane ≤ counts lane) :
      Turns counts c { c with stage := .comparing (counts lane) }
  | past (lane : Fin lanes) (carrying : ℤ) (hat : c.at? = some lane)
      (hstage : c.stage = .comparing carrying) : Turns counts c { c with
      passed := c.passed ++ [carrying]
      chosen := if carrying < counts c.chosen then lane else c.chosen
      stage := .reading }

theorem look_turns (counts : Counts) (c : Scan) : c.Turns counts (c.look counts) := by
  unfold look
  split
  · rename_i lane hstage hat
    split
    · rename_i hspare
      exact .spare lane hat hstage hspare
    · rename_i hfull
      exact .full lane hat hstage (not_lt.mp hfull)
  · exact .stay

theorem compare_turns (counts : Counts) (c : Scan) : c.Turns counts (c.compare counts) := by
  unfold compare
  split
  · rename_i carrying lane hstage hat
    exact .past lane carrying hat hstage
  · exact .stay

/-- Every connection passed was read full. -/
structure Read (c : Scan) : Prop where
  full : ∀ load ∈ c.passed, streamsPerLane ≤ load
  fits : c.passed.length ≤ lanes
  past : ∀ carrying, c.stage = .comparing carrying → streamsPerLane ≤ carrying
  spare : ∀ carrying, c.stage = .spare carrying →
    carrying < streamsPerLane ∧ c.chosen.val = c.passed.length

theorem begin_read (counts : Counts) : (begin counts).Read :=
  ⟨by simp [begin], by simp [begin], by simp [begin], by simp [begin]⟩

theorem Read.disturb {c : Scan} (h : c.Read) : c.disturb.Read :=
  ⟨h.full, h.fits, h.past, h.spare⟩

theorem Read.turns {counts : Counts} {c c' : Scan} (h : c.Read) (hturns : c.Turns counts c') :
    c'.Read := by
  cases hturns with
  | stay => exact h
  | spare lane hat hstage hspare =>
    refine ⟨h.full, h.fits, by simp, fun carrying heq => ?_⟩
    obtain rfl : counts lane = carrying := by simpa using heq
    exact ⟨hspare, at?_eq_some.mp hat⟩
  | full lane hat hstage hfull =>
    refine ⟨h.full, h.fits, fun carrying heq => ?_, by simp⟩
    obtain rfl : counts lane = carrying := by simpa using heq
    exact hfull
  | past lane carrying hat hstage =>
    refine ⟨fun load hload => ?_, ?_, by simp, by simp⟩
    · rcases List.mem_append.mp hload with hload | hload
      · exact h.full load hload
      · rw [List.mem_singleton.mp hload]
        exact h.past carrying hstage
    · have hlane := at?_eq_some.mp hat
      have hlt := lane.isLt
      simp only [List.length_append, List.length_singleton]
      omega

def FirstRead (c : Scan) : Prop :=
  (∀ load ∈ c.passed, streamsPerLane ≤ load) ∧
    ((∃ carrying, c.stage = .spare carrying ∧ carrying < streamsPerLane ∧
      c.chosen.val = c.passed.length) ∨ c.passed.length = lanes)

theorem Read.firstRead {c : Scan} (h : c.Read) (hover : c.Over) : c.FirstRead := by
  refine ⟨h.full, ?_⟩
  unfold Over at hover
  cases hstage : c.stage with
  | reading =>
    rw [hstage] at hover
    exact .inr (le_antisymm h.fits (at?_eq_none.mp hover))
  | comparing carrying =>
    rw [hstage] at hover
    exact hover.elim
  | spare carrying =>
    have hspare := h.spare carrying hstage
    exact .inl ⟨carrying, rfl, hspare.1, hspare.2⟩

/-- The counts have only fallen since the pick began: each was at least what it
is now when it was read, and the connection chosen carries no more than was
read of any. -/
structure Falls (counts : Counts) (c : Scan) : Prop where
  below : ∀ j, counts j ≤ c.start j
  reads : ∀ (j : Fin lanes) load, c.passed[j.val]? = some load → load ≤ c.start j
  least : ∀ load ∈ c.passed, counts c.chosen ≤ load
  past : ∀ carrying lane, c.stage = .comparing carrying → c.at? = some lane →
    counts lane ≤ carrying ∧ carrying ≤ c.start lane
  spare : ∀ carrying, c.stage = .spare carrying → counts c.chosen ≤ carrying

theorem begin_falls (counts : Counts) : (begin counts).Falls counts :=
  ⟨fun _ => le_refl _, by simp [begin], by simp [begin], by simp [begin], by simp [begin]⟩

/-- Streams given back keep it. -/
theorem Falls.disturb {counts counts' : Counts} {c : Scan} (h : c.Falls counts)
    (hless : ∀ j, counts' j ≤ counts j) : c.disturb.Falls counts' where
  below j := (hless j).trans (h.below j)
  reads := h.reads
  least load hload := (hless _).trans (h.least load hload)
  past carrying lane hstage hat :=
    ⟨(hless _).trans (h.past carrying lane hstage hat).1, (h.past carrying lane hstage hat).2⟩
  spare carrying hstage := (hless _).trans (h.spare carrying hstage)

theorem Falls.turns {counts : Counts} {c c' : Scan} (h : c.Falls counts) (hread : c.Read)
    (hturns : c.Turns counts c') : c'.Falls counts := by
  cases hturns with
  | stay => exact h
  | spare lane hat hstage hspare =>
    refine ⟨h.below, h.reads, fun load hload => ?_, by simp, fun carrying heq => ?_⟩
    · exact hspare.le.trans (hread.full load hload)
    · obtain rfl : counts lane = carrying := by simpa using heq
      exact le_refl _
  | full lane hat hstage hfull =>
    refine ⟨h.below, h.reads, h.least, fun carrying lane' heq hat' => ?_, by simp⟩
    obtain rfl : counts lane = carrying := by simpa using heq
    obtain rfl : lane = lane' := Option.some.inj (hat.symm.trans hat')
    exact ⟨le_refl _, h.below lane⟩
  | past lane carrying hat hstage =>
    have hlane := at?_eq_some.mp hat
    obtain ⟨hnow, hstart⟩ := h.past carrying lane hstage hat
    refine ⟨h.below, fun j load hload => ?_, fun load hload => ?_, by simp, by simp⟩
    · rw [List.getElem?_append] at hload
      split at hload
      · exact h.reads j load hload
      · rename_i hnew
        -- the read just recorded is the one of the connection the loop is at
        have hj : j.val - c.passed.length = 0 := by
          by_contra hne
          rw [List.getElem?_eq_none (by simp; omega)] at hload
          exact absurd hload (by simp)
        obtain rfl : j = lane := Fin.ext (by omega)
        obtain rfl : carrying = load := by simpa [hj] using hload
        exact hstart
    · show counts (if carrying < counts c.chosen then lane else c.chosen) ≤ load
      rcases List.mem_append.mp hload with hload | hload
      · have hleast := h.least load hload
        split
        · omega
        · exact hleast
      · rw [List.mem_singleton.mp hload]
        split
        · exact hnow
        · omega

/-- Once all connections were passed, the one chosen carries no more than any
did when the pick began. -/
theorem Falls.least_start {counts : Counts} {c : Scan} (h : c.Falls counts)
    (hall : c.passed.length = lanes) (j : Fin lanes) : counts c.chosen ≤ c.start j := by
  have hj : j.val < c.passed.length := by
    rw [hall]
    exact j.isLt
  have hget := List.getElem?_eq_getElem hj
  exact (h.least _ (List.getElem_mem hj)).trans (h.reads j _ hget)

/-- The least of them is at most the average. -/
theorem Falls.average {counts : Counts} {c : Scan} (h : c.Falls counts)
    (hall : c.passed.length = lanes) : lanes * counts c.chosen ≤ total c.start := by
  calc (lanes : ℤ) * counts c.chosen = ∑ _j : Fin lanes, counts c.chosen := by simp
    _ ≤ total c.start := Finset.sum_le_sum fun j _ => h.least_start hall j

def remains (counts : Counts) (c : Scan) : ℕ :=
  match c.stage with
  | .reading =>
    pickFrom (loads counts) c.chosen c.passed.length ((loads counts).drop c.passed.length)
  | .comparing carrying =>
    pickFrom (loads counts) (if carrying < counts c.chosen then c.passed.length else c.chosen)
      (c.passed.length + 1) ((loads counts).drop (c.passed.length + 1))
  | .spare _ => c.chosen

/-- The counts are as they were when the pick began, and the rest of its scan is
the rest of `pick`. -/
structure Still (counts : Counts) (c : Scan) : Prop where
  same : counts = c.start
  rest : c.remains counts = pick (loads counts)

theorem begin_still (counts : Counts) : (begin counts).Still counts := ⟨rfl, rfl⟩

theorem remains_turns {counts : Counts} (hnonneg : ∀ j, 0 ≤ counts j) {c c' : Scan}
    (hturns : c.Turns counts c') : c'.remains counts = c.remains counts := by
  cases hturns with
  | stay => rfl
  | spare lane hat hstage hspare =>
    have hlane := at?_eq_some.mp hat
    have h0 := hnonneg lane
    have hlow : (counts lane).toNat < streamsPerLane := by omega
    simp only [remains, hstage]
    rw [← hlane, loads_drop, pickFrom, if_pos hlow]
  | full lane hat hstage hfull =>
    have hlane := at?_eq_some.mp hat
    have hhigh : ¬ (counts lane).toNat < streamsPerLane := by omega
    have h0 := hnonneg lane
    have h1 := hnonneg c.chosen
    simp only [remains, hstage]
    rw [← hlane, loads_drop, pickFrom, if_neg hhigh, loads_getD]
    by_cases hless : counts lane < counts c.chosen
    · rw [if_pos hless, if_pos (by omega)]
    · rw [if_neg hless, if_neg (by omega)]
  | past lane carrying hat hstage =>
    have hlane := at?_eq_some.mp hat
    simp only [remains, hstage, List.length_append, List.length_singleton]
    split
    · rw [hlane]
    · rfl

theorem remains_over (counts : Counts) {c : Scan} (hover : c.Over) :
    c.remains counts = c.chosen := by
  unfold Over at hover
  cases hstage : c.stage with
  | reading =>
    rw [hstage] at hover
    have hlen : (loads counts).length ≤ c.passed.length := by
      simpa [loads] using at?_eq_none.mp hover
    simp only [remains, hstage]
    rw [List.drop_eq_nil_of_le hlen, pickFrom]
  | comparing carrying =>
    rw [hstage] at hover
    exact hover.elim
  | spare carrying => simp only [remains, hstage]

theorem Still.turns {counts : Counts} (hnonneg : ∀ j, 0 ≤ counts j) {c c' : Scan}
    (h : c.Still counts) (hturns : c.Turns counts c') : c'.Still counts := by
  refine ⟨?_, (remains_turns hnonneg hturns).trans h.rest⟩
  cases hturns with
  | stay | spare | full | past => exact h.same

/-- A pick nothing came between is `pick` of the counts it takes from. -/
theorem Still.chosen {counts : Counts} {c : Scan} (h : c.Still counts) (hover : c.Over) :
    c.chosen.val = pick (loads counts) :=
  (remains_over counts hover).symm.trans h.rest

end Scan

end EventQuant.Venue
