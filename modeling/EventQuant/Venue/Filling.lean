import EventQuant.Venue.Scans

/-!
How full a connection gets. A pick that takes the least loaded connection finds
at most the average there, so where one pick ends before the next begins no
connection carries more than its streams or one above the average at the peak.
-/
namespace EventQuant.Venue

open Runs

theorem total_update (counts : Counts) (lane : Fin lanes) (n : ℤ) :
    total (Function.update counts lane (counts lane + n)) = total counts + n := by
  have hsplit := fun c : Counts => Finset.sum_erase_add Finset.univ c (Finset.mem_univ lane)
  have hrest : ∑ j ∈ Finset.univ.erase lane, Function.update counts lane (counts lane + n) j =
      ∑ j ∈ Finset.univ.erase lane, counts j := by
    refine Finset.sum_congr rfl fun j hj => ?_
    exact Function.update_of_ne (Finset.ne_of_mem_erase hj) _ _
  have hnew := hsplit (Function.update counts lane (counts lane + n))
  have hold := hsplit counts
  rw [Function.update_self, hrest] at hnew
  unfold total
  omega

/-- Counts with a stream given back. -/
theorem update_sub_le (counts : Counts) (lane j : Fin lanes) :
    Function.update counts lane (counts lane - 1) j ≤ counts j := by
  by_cases hj : j = lane
  · rw [hj, Function.update_self]
    omega
  · rw [Function.update_of_ne hj]

namespace Streams

/-- The picks under way: each read as it says; and while picks come one at a
time, nothing but streams given back has changed the counts under the one there
is. -/
structure Scanning (s : Streams) : Prop where
  most : total s.counts ≤ s.peak
  read : ∀ c ∈ s.scans, c.Read
  still : ∀ c ∈ s.scans, c.whole = true → c.Still s.counts
  alone : s.overlapped = false → s.scans.length ≤ 1
  falls : s.overlapped = false → ∀ c ∈ s.scans, c.Falls s.counts ∧ total c.start ≤ s.peak
  untorn : s.overlapped = false → s.torn = false → ∀ c ∈ s.scans, c.whole = true

theorem init_scanning : init.Scanning :=
  ⟨by simp [init, total], by simp [init], by simp [init], by simp [init], by simp [init],
    by simp [init]⟩

theorem Scanning.begin {s : Streams} (h : s.Scanning) : (s.next .begin).Scanning := by
  have hbegan : ∀ c ∈ (s.next .begin).scans, c ∈ s.scans ∨ c = Scan.begin s.counts := by
    intro c hc
    simpa [next] using hc
  have hfree : (s.next .begin).overlapped = false → s.overlapped = false ∧ s.scans = [] := by
    intro hover
    simpa [next] using hover
  constructor
  · exact h.most
  · intro c hc
    rcases hbegan c hc with hc | rfl
    · exact h.read c hc
    · exact Scan.begin_read s.counts
  · intro c hc hwhole
    rcases hbegan c hc with hc | rfl
    · exact h.still c hc hwhole
    · exact Scan.begin_still s.counts
  · intro hover
    simp [next, (hfree hover).2]
  · intro hover c hc
    rcases hbegan c hc with hc | rfl
    · exact h.falls (hfree hover).1 c hc
    · exact ⟨Scan.begin_falls s.counts, h.most⟩
  · intro hover htorn c hc
    rcases hbegan c hc with hc | rfl
    · exact h.untorn (hfree hover).1 htorn c hc
    · rfl

theorem turns_start {counts : Counts} {c c' : Scan} (hturns : c.Turns counts c') :
    c'.start = c.start ∧ c'.whole = c.whole := by
  cases hturns with
  | stay | spare | full | past => exact ⟨rfl, rfl⟩

theorem Scanning.scan {s : Streams} (h : s.Scanning) (hheld : s.Held) {i : ℕ} {c c' : Scan}
    (hc : c ∈ s.scans) (hturns : c.Turns s.counts c') :
    Scanning { s with scans := s.scans.set i c' } := by
  obtain ⟨hstart, hwhole⟩ := turns_start hturns
  have hmem : ∀ d ∈ s.scans.set i c', d ∈ s.scans ∨ d = c' := fun d => List.mem_or_eq_of_mem_set
  constructor
  · exact h.most
  · intro d hd
    rcases hmem d hd with hd | rfl
    · exact h.read d hd
    · exact (h.read c hc).turns hturns
  · intro d hd hw
    rcases hmem d hd with hd | rfl
    · exact h.still d hd hw
    · exact (h.still c hc (hwhole ▸ hw)).turns hheld.nonneg hturns
  · intro hover
    simpa using h.alone hover
  · intro hover d hd
    rcases hmem d hd with hd | rfl
    · exact h.falls hover d hd
    · obtain ⟨hfalls, hpeak⟩ := h.falls hover c hc
      exact ⟨hfalls.turns (h.read c hc) hturns, hstart ▸ hpeak⟩
  · intro hover htorn d hd
    rcases hmem d hd with hd | rfl
    · exact h.untorn hover htorn d hd
    · exact hwhole ▸ h.untorn hover htorn c hc

theorem eraseIdx_alone {scans : List Scan} {i : ℕ} {c : Scan} (hlen : scans.length ≤ 1)
    (hc : scans[i]? = some c) : scans.eraseIdx i = [] := by
  have hi := (List.getElem?_eq_some_iff.mp hc).1
  apply List.eq_nil_of_length_eq_zero
  rw [List.length_eraseIdx_of_lt hi]
  omega

theorem Moves.scanning {s t : Streams} (hmoves : s.Moves t) (hheld : s.Held) (h : s.Scanning) :
    t.Scanning := by
  cases hmoves with
  | stay => exact h
  | begin => exact h.begin
  | scan i c c' hc hc' =>
    rcases hc' with rfl | rfl
    · exact h.scan hheld hc (Scan.look_turns s.counts c)
    · exact h.scan hheld hc (Scan.compare_turns s.counts c)
  | take i c hc hover =>
    -- the others saw the counts change; while picks come one at a time there are none
    have hothers : s.overlapped = false → (s.scans.eraseIdx i).map Scan.disturb = [] := by
      intro hone
      rw [eraseIdx_alone (h.alone hone) hc, List.map_nil]
    constructor
    · show total (Function.update s.counts c.chosen (s.counts c.chosen + 1)) ≤ _
      rw [total_update]
      exact le_max_right _ _
    · intro d hd
      obtain ⟨d', hd', rfl⟩ := List.mem_map.mp hd
      exact (h.read d' (List.mem_of_mem_eraseIdx hd')).disturb
    · intro d hd hwhole
      obtain ⟨d', _, rfl⟩ := List.mem_map.mp hd
      exact absurd hwhole (by simp [Scan.disturb])
    · intro hone
      simp [hothers hone]
    · intro hone d hd
      exact absurd hd (by simp [hothers hone])
    · intro hone _ d hd
      exact absurd hd (by simp [hothers hone])
  | finish i send sent hsend hopen =>
    have hless := update_sub_le s.counts send.lane
    constructor
    · show total (Function.update s.counts send.lane (s.counts send.lane - 1)) ≤ s.peak
      have htotal := total_update s.counts send.lane (-1)
      have hmost := h.most
      rw [← sub_eq_add_neg] at htotal
      omega
    · intro d hd
      obtain ⟨d', hd', rfl⟩ := List.mem_map.mp hd
      exact (h.read d' hd').disturb
    · intro d hd hwhole
      obtain ⟨d', _, rfl⟩ := List.mem_map.mp hd
      exact absurd hwhole (by simp [Scan.disturb])
    · intro hone
      simpa using h.alone hone
    · intro hone d hd
      obtain ⟨d', hd', rfl⟩ := List.mem_map.mp hd
      obtain ⟨hfalls, hpeak⟩ := h.falls hone d' hd'
      exact ⟨hfalls.disturb hless, hpeak⟩
    · intro _ htorn d hd
      have hnone : s.scans = [] := by
        simpa using (Bool.or_eq_false_iff.mp htorn).2
      exact absurd hd (by simp [hnone])

/-- What the picks that took their stream had read, and what that makes of the
connections. -/
structure Filled (s : Streams) : Prop where
  first : ∀ p ∈ s.picks, p.scan.FirstRead
  fit : ∀ p ∈ s.picks, p.scan.whole = true → FirstFit (loads p.counts) p.scan.chosen
  least : s.overlapped = false → ∀ p ∈ s.picks, ∀ load ∈ p.scan.passed,
    p.counts p.scan.chosen ≤ load
  untorn : s.overlapped = false → s.torn = false → ∀ p ∈ s.picks, p.scan.whole = true
  average : s.overlapped = false → ∀ j, s.counts j ≤ max (streamsPerLane : ℤ) (s.peak / lanes + 1)
  share : s.overlapped = false → s.torn = false →
    ∀ j, s.counts j ≤ max (streamsPerLane : ℤ) ((s.peak + lanes - 1) / lanes)

theorem init_filled : init.Filled :=
  ⟨by simp [init], by simp [init], by simp [init], by simp [init], by simp [init],
    by simp [init]⟩

/-- The bounds leave room for the peak to rise. -/
theorem bounds_mono {peak peak' : ℤ} (h : peak ≤ peak') :
    max (streamsPerLane : ℤ) (peak / lanes + 1) ≤ max (streamsPerLane : ℤ) (peak' / lanes + 1) ∧
      max (streamsPerLane : ℤ) ((peak + lanes - 1) / lanes) ≤
        max (streamsPerLane : ℤ) ((peak' + lanes - 1) / lanes) := by
  simp only [streamsPerLane, lanes]
  omega

/-- What a pick adds to the connection it chose. -/
theorem chosen_bounds {s : Streams} {c : Scan} (h : s.Scanning) (hread : c.Read) (hover : c.Over)
    (hc : c ∈ s.scans) (hone : s.overlapped = false) :
    s.counts c.chosen + 1 ≤ max (streamsPerLane : ℤ) (s.peak / lanes + 1) ∧
      (c.whole = true → s.counts c.chosen + 1 ≤
        max (streamsPerLane : ℤ) ((max s.peak (total s.counts + 1) + lanes - 1) / lanes)) := by
  obtain ⟨hfalls, hpeak⟩ := h.falls hone c hc
  rcases (hread.firstRead hover).2 with ⟨carrying, hstage, hlow, _⟩ | hall
  · have hnow := hfalls.spare carrying hstage
    exact ⟨le_max_of_le_left (by omega), fun _ => le_max_of_le_left (by omega)⟩
  · have haverage := hfalls.average hall
    constructor
    · apply le_max_of_le_right
      simp only [lanes] at haverage ⊢
      omega
    · intro hwhole
      apply le_max_of_le_right
      rw [← (h.still c hc hwhole).same] at haverage
      simp only [lanes] at haverage ⊢
      omega

theorem Moves.filled {s t : Streams} (hmoves : s.Moves t) (hscans : s.Scanning) (h : s.Filled) :
    t.Filled := by
  cases hmoves with
  | stay | scan => exact ⟨h.first, h.fit, h.least, h.untorn, h.average, h.share⟩
  | begin =>
    have hfree : (s.overlapped || !s.scans.isEmpty) = false → s.overlapped = false :=
      fun hover => (Bool.or_eq_false_iff.mp hover).1
    exact ⟨h.first, h.fit, fun hone => h.least (hfree hone), fun hone => h.untorn (hfree hone),
      fun hone => h.average (hfree hone), fun hone => h.share (hfree hone)⟩
  | take i c hc hover =>
    have hmem := List.mem_of_getElem? hc
    have hread := hscans.read c hmem
    have hmono := bounds_mono (le_max_left s.peak (total s.counts + 1))
    have hpicks : ∀ p ∈ s.picks ++ [⟨c, s.counts⟩], p ∈ s.picks ∨ p = ⟨c, s.counts⟩ := by
      intro p hp
      simpa using hp
    constructor
    · intro p hp
      rcases hpicks p hp with hp | rfl
      · exact h.first p hp
      · exact hread.firstRead hover
    · intro p hp hwhole
      rcases hpicks p hp with hp | rfl
      · exact h.fit p hp hwhole
      · show FirstFit (loads s.counts) c.chosen
        rw [(hscans.still c hmem hwhole).chosen hover]
        exact pick_firstFit (loads s.counts)
    · intro hone p hp
      rcases hpicks p hp with hp | rfl
      · exact h.least hone p hp
      · exact (hscans.falls hone c hmem).1.least
    · intro hone htorn p hp
      rcases hpicks p hp with hp | rfl
      · exact h.untorn hone htorn p hp
      · exact hscans.untorn hone htorn c hmem
    · intro hone j
      show Function.update s.counts c.chosen (s.counts c.chosen + 1) j ≤ _
      by_cases hj : j = c.chosen
      · rw [hj, Function.update_self]
        exact (chosen_bounds hscans hread hover hmem hone).1.trans hmono.1
      · rw [Function.update_of_ne hj]
        exact (h.average hone j).trans hmono.1
    · intro hone htorn j
      show Function.update s.counts c.chosen (s.counts c.chosen + 1) j ≤ _
      by_cases hj : j = c.chosen
      · rw [hj, Function.update_self]
        exact (chosen_bounds hscans hread hover hmem hone).2 (hscans.untorn hone htorn c hmem)
      · rw [Function.update_of_ne hj]
        exact (h.share hone htorn j).trans hmono.2
  | finish i send sent hsend hopen =>
    have hless := update_sub_le s.counts send.lane
    have hwas : (s.torn || !s.scans.isEmpty) = false → s.torn = false :=
      fun htorn => (Bool.or_eq_false_iff.mp htorn).1
    exact ⟨h.first, h.fit, h.least, fun hone htorn => h.untorn hone (hwas htorn),
      fun hone j => (hless j).trans (h.average hone j),
      fun hone htorn j => (hless j).trans (h.share hone (hwas htorn) j)⟩

def Reached (s : Streams) : Prop := Run (fun s t => ∃ e, s.next e = t) init s

theorem Reached.invariants {s : Streams} (h : s.Reached) : s.Held ∧ s.Scanning ∧ s.Filled := by
  refine run_preserves (fun s => s.Held ∧ s.Scanning ∧ s.Filled) ?_ h
    ⟨init_held, init_scanning, init_filled⟩
  rintro s t ⟨e, rfl⟩ ⟨hheld, hscans, hfilled⟩
  have hmoves := next_moves s e
  exact ⟨hmoves.held hheld, hmoves.scanning hheld hscans, hmoves.filled hscans hfilled⟩

/-- A pick with nothing under way ends where `pick` of the counts says. -/
theorem scan_through (n : ℕ) (s : Streams) (c : Scan) (hscans : s.scans = [c])
    (hstage : c.stage = .reading) (hn : lanes - c.passed.length = n) (hnonneg : ∀ j, 0 ≤ s.counts j) :
    ∃ c' : Scan, Run (fun s t => ∃ e, s.next e = t) s { s with scans := [c'] } ∧ c'.Over ∧
      c'.chosen.val = c.remains s.counts := by
  induction n generalizing s c with
  | zero =>
    have hover : c.Over := by
      rw [Scan.Over, hstage]
      exact Scan.at?_eq_none.mpr (by omega)
    refine ⟨c, ?_, hover, (Scan.remains_over s.counts hover).symm⟩
    rw [← hscans]
  | succ n ih =>
    have hlt : c.passed.length < lanes := by omega
    have hat : c.at? = some ⟨c.passed.length, hlt⟩ := Scan.at?_eq_some.mpr rfl
    generalize hlane : (⟨c.passed.length, hlt⟩ : Fin lanes) = lane at hat
    have hlook : s.next (.look 0) = { s with scans := [c.look s.counts] } := by
      simp [next, hscans]
    have hturn := Scan.remains_turns hnonneg (Scan.look_turns s.counts c)
    by_cases hspare : s.counts lane < streamsPerLane
    · have hc : c.look s.counts = { c with chosen := lane, stage := .spare (s.counts lane) } := by
        simp only [Scan.look, hstage, hat, if_pos hspare]
      have hover : (c.look s.counts).Over := by
        rw [hc]
        trivial
      exact ⟨_, .single ⟨_, hlook⟩, hover, (Scan.remains_over _ hover).symm.trans hturn⟩
    · have hc : c.look s.counts = { c with stage := .comparing (s.counts lane) } := by
        simp only [Scan.look, hstage, hat, if_neg hspare]
      set d := (c.look s.counts).compare s.counts with hd
      have hpast : d.stage = .reading ∧ d.passed.length = c.passed.length + 1 := by
        rw [hd, hc]
        simp [Scan.compare, show Scan.at? { c with stage := .comparing (s.counts lane) } = some lane
          from hat]
      have hcompare : { s with scans := [c.look s.counts] }.next (.compare 0) =
          { s with scans := [d] } := by
        simp [next, hd]
      have hback := Scan.remains_turns hnonneg (Scan.compare_turns s.counts (c.look s.counts))
      obtain ⟨c', hrun, hover, hchosen⟩ := ih { s with scans := [d] } d rfl hpast.1
        (by omega) hnonneg
      refine ⟨c', .head ⟨_, hlook⟩ (.head ⟨_, hcompare⟩ hrun), hover, hchosen.trans ?_⟩
      exact hback.trans hturn

/-- The state a pick begun on the open leads to, `lane` being what `pick` says. -/
def picked (s : Streams) (c : Scan) : Streams :=
  { s with
    counts := Function.update s.counts c.chosen (s.counts c.chosen + 1)
    scans := []
    sends := s.sends ++ [⟨c.chosen, none, 0⟩]
    picks := s.picks ++ [⟨c, s.counts⟩]
    peak := max s.peak (total s.counts + 1) }

theorem take_only {s : Streams} {c : Scan} (hscans : s.scans = [c]) (hover : c.Over) :
    s.next (.take 0) = s.picked c := by
  simp [next, hscans, hover, picked]

/-- The first so many requests on the first connections, none of them over its
streams. -/
def filled (n : ℤ) : Counts := fun j => max 0 (min streamsPerLane (n - streamsPerLane * j))

theorem filled_add_one {n : ℤ} {lane : Fin lanes} (hlane : streamsPerLane * lane.val ≤ n)
    (hlast : n < streamsPerLane * (lane.val + 1)) :
    Function.update (filled n) lane (filled n lane + 1) = filled (n + 1) := by
  funext j
  by_cases hj : j = lane
  · rw [hj, Function.update_self]
    simp only [filled, streamsPerLane] at hlane hlast ⊢
    omega
  · have hne : j.val ≠ lane.val := fun heq => hj (Fin.ext heq)
    rw [Function.update_of_ne hj]
    simp only [filled, streamsPerLane] at hlane hlast ⊢
    omega

/-- The next request rides on the connection being filled. -/
theorem pick_filled {n : ℤ} (hn : 0 ≤ n) (hroom : n < streamsPerLane * lanes) {lane : Fin lanes}
    (hpick : lane.val = pick (loads (filled n))) :
    streamsPerLane * lane.val ≤ n ∧ n < streamsPerLane * (lane.val + 1) := by
  have hfit := pick_firstFit (loads (filled n))
  rw [← hpick] at hfit
  rcases hfit with ⟨hlow, hfull⟩ | ⟨hfull, _⟩
  · rw [loads_getD] at hlow
    constructor
    · by_cases hzero : lane.val = 0
      · simp [hzero, hn]
      · have hbefore := hfull (lane.val - 1) (by omega)
        have hlt : lane.val - 1 < lanes := by omega
        have hget := loads_getD (filled n) ⟨lane.val - 1, hlt⟩
        rw [hget] at hbefore
        simp only [filled, streamsPerLane] at hbefore ⊢
        omega
    · simp only [filled, streamsPerLane] at hlow ⊢
      omega
  · have hlast : (filled n ⟨14, by decide⟩).toNat ∈ loads (filled n) := by
      simp [loads, List.mem_ofFn]
    have hmost := hfull _ hlast
    simp only [filled, streamsPerLane, lanes] at hmost hroom
    omega

theorem reached_filled (n : ℕ) (hn : n ≤ streamsPerLane * lanes) :
    ∃ s : Streams, s.Reached ∧ s.scans = [] ∧ s.counts = filled n ∧ total s.counts = n ∧
      s.peak = n ∧ s.overlapped = false ∧ s.torn = false := by
  induction n with
  | zero =>
    refine ⟨init, .refl, rfl, ?_, by simp [init, total], rfl, rfl, rfl⟩
    funext j
    simp only [init, filled, streamsPerLane]
    omega
  | succ n ih =>
    obtain ⟨s, hrun, hscans, hcounts, htotal, hpeak, hone, htorn⟩ := ih (by omega)
    have hnonneg := hrun.invariants.1.nonneg
    have hbegin : s.next .begin = { s with scans := [Scan.begin s.counts] } := by
      simp [next, hscans, hone]
    obtain ⟨c, hscan, hover, hchosen⟩ := scan_through lanes
      { s with scans := [Scan.begin s.counts] } (Scan.begin s.counts) rfl rfl rfl hnonneg
    have hpick : c.chosen.val = pick (loads (filled n)) := by
      rw [← hcounts]
      exact hchosen
    obtain ⟨hlane, hlast⟩ := pick_filled (by omega) (by omega) hpick
    have hreached : (picked { s with scans := [c] } c).Reached := by
      have htake := take_only (s := { s with scans := [c] }) rfl hover
      exact (hrun.tail ⟨_, hbegin⟩).trans (hscan.tail ⟨_, htake⟩)
    refine ⟨_, hreached, rfl, ?_, ?_, ?_, hone, htorn⟩
    · show Function.update s.counts c.chosen (s.counts c.chosen + 1) = _
      rw [hcounts]
      exact_mod_cast filled_add_one hlane hlast
    · show total (Function.update s.counts c.chosen (s.counts c.chosen + 1)) = _
      rw [total_update, htotal]
      norm_num
    · show max s.peak (total s.counts + 1) = _
      rw [hpeak, htotal]
      push_cast
      omega

def secondLane : Fin lanes := ⟨1, by decide⟩

/-- Every pick takes the first connection it read with one to spare, and of full
ones, while picks come one at a time, one that carries no more than was read of
any; every send gives its stream back once; and a connection carries at most its
streams or one above the average at the peak, which is the average rounded up
where no stream comes back inside a pick either. -/
theorem Reached.fills {s : Streams} (h : s.Reached) :
    (∀ p ∈ s.picks, p.scan.FirstRead ∧
      (p.scan.whole = true → FirstFit (loads p.counts) p.scan.chosen)) ∧
    (∀ a : SendAnswers, a.sendOrder.2.count .giveBack = 1) ∧
    s.sends.map Send.lane = (s.picks.map fun p => p.scan.chosen) ∧
    (∀ x ∈ s.sends, x.released = if x.ended = none then 0 else 1) ∧
    (∀ j, s.counts j = (s.sends.countP fun x => x.lane = j ∧ x.ended = none) ∧
      0 ≤ s.counts j) ∧
    (s.overlapped = false →
      (∀ p ∈ s.picks, ∀ load ∈ p.scan.passed, p.scan.stage = .reading →
        p.counts p.scan.chosen ≤ load) ∧
      ∀ j, s.counts j ≤ max (streamsPerLane : ℤ) (s.peak / lanes + 1)) ∧
    (s.overlapped = false → s.torn = false →
      (∀ p ∈ s.picks, FirstFit (loads p.counts) p.scan.chosen) ∧
      ∀ j, s.counts j ≤ max (streamsPerLane : ℤ) ((s.peak + lanes - 1) / lanes)) := by
  obtain ⟨hheld, _, hfilled⟩ := h.invariants
  refine ⟨fun p hp => ⟨hfilled.first p hp, hfilled.fit p hp⟩, SendAnswers.sendOrder_gives_back,
    hheld.taken, hheld.returned, fun j => ⟨hheld.counted j, hheld.nonneg j⟩, ?_, ?_⟩
  · intro hone
    exact ⟨fun p hp load hload _ => hfilled.least hone p hp load hload, hfilled.average hone⟩
  · intro hone htorn
    exact ⟨fun p hp => hfilled.fit p hp (hfilled.untorn hone htorn p hp),
      hfilled.share hone htorn⟩

/-- A pick that found the first connection full takes the second. -/
theorem secondTaken_fills : ∃ s : Streams, s.Reached ∧ s.overlapped = false ∧ s.torn = false ∧
    (∃ p ∈ s.picks, p.scan.passed = [100] ∧ p.scan.chosen = secondLane ∧ p.scan.FirstRead ∧
      FirstFit (loads p.counts) p.scan.chosen) ∧
    s.counts secondLane = 1 ∧
    ∀ j, s.counts j ≤ max (streamsPerLane : ℤ) ((s.peak + lanes - 1) / lanes) := by
  obtain ⟨s, hrun, hscans, hcounts, -, -, hone, htorn⟩ := reached_filled 100 (by decide)
  let c : Scan := ⟨[100], secondLane, .spare 0, s.counts, true⟩
  have hread : [.begin, .look 0, .compare 0, .look 0].foldl next s = { s with scans := [c] } := by
    have hscan : ((((Scan.begin s.counts).look s.counts).compare s.counts).look s.counts) = c := by
      simp only [c, hcounts]
      rfl
    simp [next, hscans, hone, hscan]
  have hreached : (picked { s with scans := [c] } c).Reached := by
    have hpre : Run (fun s t => ∃ e, s.next e = t) s { s with scans := [c] } :=
      hread ▸ run_of_events s _
    exact (hrun.trans hpre).tail ⟨_, take_only (s := { s with scans := [c] }) rfl trivial⟩
  obtain ⟨hpicks, -, -, -, -, -, huntorn⟩ := hreached.fills
  obtain ⟨hfit, hshare⟩ := huntorn hone htorn
  have hlast : ⟨c, s.counts⟩ ∈ (picked { s with scans := [c] } c).picks :=
    List.mem_append_right _ (List.mem_singleton_self _)
  refine ⟨_, hreached, hone, htorn, ⟨_, hlast, rfl, rfl, (hpicks _ hlast).1, hfit _ hlast⟩, ?_,
    hshare⟩
  show Function.update s.counts secondLane (s.counts secondLane + 1) secondLane = 1
  rw [Function.update_self, hcounts]
  rfl

def secondBack : Counts := Function.update (filled 1500) secondLane 99

def twoPassed : Scan := ⟨[100, 100], firstLane, .reading, filled 1500, true⟩

theorem twoPassed_remains : twoPassed.disturb.remains secondBack = firstLane := by
  decide +kernel

theorem secondBack_passed : ¬ FirstFit (loads secondBack) firstLane := by
  unfold FirstFit
  decide +kernel

theorem secondBack_total : total secondBack = 1499 := by decide +kernel

/-- A stream comes back on a connection the pick has passed. The pick takes the
first one past its streams, the total no higher than before. -/
theorem torn_overfull : ∃ s : Streams, s.Reached ∧ s.overlapped = false ∧ s.peak = 1500 ∧
    s.counts firstLane = 101 ∧
      ∃ p ∈ s.picks, p.scan.chosen = firstLane ∧ p.counts = secondBack := by
  obtain ⟨s, hrun, hscans, hcounts, htotal, hpeak, hone, -⟩ := reached_filled 1500 (by decide)
  obtain ⟨send, hsend, hlane⟩ : ∃ x ∈ s.sends, x.lane = secondLane ∧ x.ended = none := by
    have hcount := hrun.invariants.1.counted secondLane
    have hfull : filled ((1500 : ℕ) : ℤ) secondLane = 100 := by decide
    rw [hcounts, hfull] at hcount
    have hpos : 0 < s.sends.countP fun x => x.lane = secondLane ∧ x.ended = none := by omega
    simpa using List.countP_pos_iff.mp hpos
  obtain ⟨i, hi⟩ := List.getElem?_of_mem hsend
  have hpassed : [.begin, .look 0, .compare 0, .look 0, .compare 0].foldl next s =
      { s with scans := [twoPassed] } := by
    have hscan : ((((Scan.begin s.counts).look s.counts).compare s.counts).look
        s.counts).compare s.counts = twoPassed := by
      rw [hcounts]
      rfl
    simp [next, hscans, hone, hscan]
  -- the reply to a request on the second connection is an error of the network
  have hgiven : SendAnswers.sendOrder ⟨.ok (), .ok (), .failed "", .ok ""⟩ =
      (.failed "", [.giveBack]) := rfl
  have hlast : Function.update s.counts secondLane (s.counts secondLane - 1) = secondBack := by
    rw [hcounts]
    rfl
  let t : Streams := { s with
    counts := secondBack
    scans := [twoPassed.disturb]
    sends := s.sends.set i ⟨secondLane, some (.failed ""), send.released + 1⟩
    torn := true }
  have hback : next { s with scans := [twoPassed] }
      (.finish i ⟨.ok (), .ok (), .failed "", .ok ""⟩) = t := by
    simp only [next, hi, hlane.1, hlane.2, if_true, hgiven, List.count_cons_self, List.count_nil,
      zero_add, Nat.cast_one, hlast]
    simp [t]
  obtain ⟨c, hscan, hover, hchosen⟩ := scan_through 13 t twoPassed.disturb rfl rfl rfl
    (show ∀ j, 0 ≤ secondBack j by decide)
  have hfirst : c.chosen = firstLane := Fin.ext (hchosen.trans twoPassed_remains)
  have hreached : (picked { t with scans := [c] } c).Reached := by
    have htake := take_only (s := { t with scans := [c] }) rfl hover
    have hpre : Run (fun s t => ∃ e, s.next e = t) s { s with scans := [twoPassed] } :=
      hpassed ▸ run_of_events s _
    exact (hrun.trans hpre).trans (.head ⟨_, hback⟩ (hscan.tail ⟨_, htake⟩))
  refine ⟨_, hreached, hone, ?_, ?_, ⟨c, secondBack⟩, ?_, hfirst, rfl⟩
  · show max s.peak (total secondBack + 1) = 1500
    rw [hpeak, secondBack_total]
    rfl
  · show Function.update secondBack c.chosen (secondBack c.chosen + 1) firstLane = 101
    rw [hfirst, Function.update_self]
    rfl
  · exact List.mem_append_right _ (List.mem_singleton_self _)

/-- Two picks read the last stream of the first connection, and both take it. -/
theorem overlapped_overfull : ∃ s : Streams, s.Reached ∧ s.torn = false ∧ s.peak = 101 ∧
    s.counts firstLane = 101 := by
  obtain ⟨s, hrun, hscans, hcounts, htotal, hpeak, hone, htorn⟩ := reached_filled 99 (by decide)
  refine ⟨[.begin, .begin, .look 0, .look 1, .take 0, .take 0].foldl next s,
    hrun.trans (run_of_events s _), ?_⟩
  have hlook : (Scan.begin s.counts).look s.counts =
      ⟨[], firstLane, .spare 99, s.counts, true⟩ := by
    rw [hcounts]
    rfl
  have hread : [.begin, .begin, .look 0, .look 1].foldl next s = { s with
      scans := [⟨[], firstLane, .spare 99, s.counts, true⟩,
        ⟨[], firstLane, .spare 99, s.counts, true⟩]
      overlapped := true } := by
    simp [next, hscans, hlook]
  have htaken (t : Streams) (c d : Scan) (ht : t.scans = [c, d]) (hc : c.Over)
      (hd : d.Over) : (t.next (.take 0)).next (.take 0) =
        (picked { picked t c with scans := [d.disturb] } d.disturb) := by
    have hd' : d.disturb.Over := hd
    simp [next, ht, hc, hd', picked]
  have hfold : [.begin, .begin, .look 0, .look 1, .take 0, .take 0].foldl next s =
      (([.begin, .begin, .look 0, .look 1].foldl next s).next (.take 0)).next (.take 0) := rfl
  have hover : Scan.Over ⟨[], firstLane, .spare 99, s.counts, true⟩ := trivial
  rw [hfold, hread, htaken _ _ _ rfl hover hover]
  refine ⟨htorn, ?_, ?_⟩
  · show max (max s.peak (total s.counts + 1))
      (total (Function.update s.counts firstLane (s.counts firstLane + 1)) + 1) = 101
    rw [total_update, hpeak, htotal]
    rfl
  · simp only [picked, Scan.disturb, Function.update_self]
    rw [hcounts]
    rfl

/-- More on one connection than its streams and the average at the peak rounded
up: a stream given back inside a pick is enough, and so are two picks at once. -/
theorem streams_overfull :
    (∃ s : Streams, s.Reached ∧ s.overlapped = false ∧
      (∃ p ∈ s.picks, ¬ FirstFit (loads p.counts) p.scan.chosen) ∧
      max (streamsPerLane : ℤ) ((s.peak + lanes - 1) / lanes) < s.counts firstLane) ∧
    (∃ s : Streams, s.Reached ∧ s.torn = false ∧
      max (streamsPerLane : ℤ) ((s.peak + lanes - 1) / lanes) < s.counts firstLane) := by
  obtain ⟨s, hs, hone, hpeak, hcount, p, hp, hchosen, hback⟩ := torn_overfull
  obtain ⟨t, ht, htorn, hpeak', hcount'⟩ := overlapped_overfull
  refine ⟨⟨s, hs, hone, ⟨p, hp, ?_⟩, ?_⟩, t, ht, htorn, ?_⟩
  · rw [hchosen, hback]
    exact secondBack_passed
  · rw [hpeak, hcount]
    decide
  · rw [hpeak', hcount']
    decide

end Streams

end EventQuant.Venue
