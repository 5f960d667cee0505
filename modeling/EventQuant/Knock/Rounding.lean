import EventQuant.Knock.Coordinator
import EventQuant.Knock.Slots

/-!
A preview's bursts are checked in milliseconds and followed in whole
nanoseconds of 64 bits. Rounding keeps their order, but an interval can vanish
in it and the two ends of a burst can meet; an interval of 0 ns is divided by.
What is out of range is the least value, and a sum past the range starts again
at its other end.
-/
namespace EventQuant.Knock

/-! ### Rounding -/

/-- Past the point half-way from `k` to `k + 1`, which itself rounds away from
zero. -/
def Past (k : ℤ) (q : ℚ) : Prop := if 0 ≤ k then (k : ℚ) + 1 / 2 ≤ q else (k : ℚ) + 1 / 2 < q

instance (k : ℤ) (q : ℚ) : Decidable (Past k q) :=
  inferInstanceAs (Decidable (if 0 ≤ k then (k : ℚ) + 1 / 2 ≤ q else (k : ℚ) + 1 / 2 < q))

theorem lt_goRound_iff (k : ℤ) (q : ℚ) : k < goRound q ↔ Past k q := by
  unfold goRound Past
  by_cases hq : 0 ≤ q
  · have hfloor : k < ⌊q + 1 / 2⌋ ↔ (k : ℚ) + 1 / 2 ≤ q := by
      rw [← Int.add_one_le_iff, Int.le_floor]
      push_cast
      constructor <;> intro h <;> linarith
    rw [if_pos hq, hfloor]
    by_cases hk : 0 ≤ k
    · rw [if_pos hk]
    · have hneg : (k : ℚ) + 1 ≤ 0 := by exact_mod_cast not_le.mp hk
      rw [if_neg hk]
      constructor <;> intro _ <;> linarith
  · have hfloor : k < -⌊-q + 1 / 2⌋ ↔ (k : ℚ) + 1 / 2 < q := by
      rw [lt_neg, Int.floor_lt]
      push_cast
      constructor <;> intro h <;> linarith
    rw [if_neg hq, hfloor]
    by_cases hk : 0 ≤ k
    · have hnonneg : (0 : ℚ) ≤ k := by exact_mod_cast hk
      rw [if_pos hk]
      constructor <;> intro _ <;> linarith
    · rw [if_neg hk]

theorem Past.mono {k : ℤ} {x y : ℚ} (h : Past k x) (hxy : x ≤ y) : Past k y := by
  unfold Past at *
  split
  · rw [if_pos ‹_›] at h
    linarith
  · rw [if_neg ‹_›] at h
    linarith

theorem goRound_mono : Monotone goRound := by
  intro x y hxy
  by_contra hlt
  have hpast := (lt_goRound_iff _ _).mp (not_le.mp hlt)
  exact lt_irrefl _ ((lt_goRound_iff _ _).mpr (hpast.mono hxy))

theorem one_le_goRound_iff (q : ℚ) : 1 ≤ goRound q ↔ 1 / 2 ≤ q := by
  have h := lt_goRound_iff 0 q
  simp only [Past, le_refl, if_true, Int.cast_zero, zero_add] at h
  exact Int.add_one_le_iff.trans h

theorem wholeNs_mono : Monotone wholeNs := fun x y hxy =>
  goRound_mono (Precision.binary64.round_mono (by linarith))

/-! ### 64 bits -/

theorem one_le_int64_iff (n : ℤ) : 1 ≤ int64 n ↔ 1 ≤ n ∧ n < 2 ^ 63 := by
  unfold int64
  split_ifs with h <;> omega

/-- The first of the whole nanoseconds whose moment after the anchor is past
the end of the range, or the first that is still in it. -/
def wrapsAt (anchor : ℤ) : ℤ := if 0 ≤ anchor then 2 ^ 63 - anchor else -2 ^ 63 - anchor

def momentAfter (anchor ns : ℤ) : ℤ := wrap (anchor + int64 ns)

section Moments

variable {anchor x y : ℤ} (hanchor : -2 ^ 63 ≤ anchor ∧ anchor < 2 ^ 63) (hxy : x ≤ y)

include hanchor hxy

/-- On one side of the anchor's wrap the moments keep their order. -/
theorem momentAfter_le (h : y < wrapsAt anchor ∨ wrapsAt anchor ≤ x) :
    momentAfter anchor x ≤ momentAfter anchor y := by
  unfold wrapsAt at h
  unfold momentAfter wrap int64
  split_ifs at * <;> omega

/-- And they are apart where the range has a nanosecond between them. -/
theorem momentAfter_lt_iff (h : y < wrapsAt anchor ∨ wrapsAt anchor ≤ x) :
    momentAfter anchor x < momentAfter anchor y ↔
      ∃ k : ℤ, (-2 ^ 63 ≤ k ∧ k < 2 ^ 63) ∧ k < y ∧ x ≤ k := by
  have hbetween : (∃ k : ℤ, (-2 ^ 63 ≤ k ∧ k < 2 ^ 63) ∧ k < y ∧ x ≤ k) ↔
      max x (-2 ^ 63) < min y (2 ^ 63) := by
    constructor
    · rintro ⟨k, hk, hky, hxk⟩
      omega
    · intro hlt
      exact ⟨max x (-2 ^ 63), by omega⟩
  rw [hbetween]
  unfold wrapsAt at h
  unfold momentAfter wrap int64
  split_ifs at * <;> omega

/-- Past the wrap the later moment is not the later one. -/
theorem momentAfter_wraps (hx : x < wrapsAt anchor) (hy : wrapsAt anchor ≤ y) :
    momentAfter anchor y ≤ momentAfter anchor x := by
  unfold wrapsAt at hx hy
  unfold momentAfter wrap int64
  split_ifs at * <;> omega

end Moments

/-! ### Dividing by an interval -/

def ceilDiv? (a b : ℤ) : Option ℤ := if b = 0 then none else some (ceilDiv a b)

def slotAtOrAfter? (moment origin phase interval : ℤ) : Option ℤ :=
  (ceilDiv? (moment - origin - phase - gridTolerance) interval).map fun k =>
    origin + phase + k * interval

/-- `burstAt`, or the panic in it. -/
def burstAt? (moment : ℤ) : List Stretch → Option (Option ℤ)
  | [] => some none
  | b :: rest =>
    if b.untilNs ≤ moment then burstAt? moment rest
    else
      (slotAtOrAfter? (max moment b.fromNs) b.fromNs b.phase b.interval).bind fun slot =>
        if slot < b.untilNs then some (some slot) else burstAt? moment rest

/-- `at`, or the panic in it. -/
def Timetable.at? (t : Timetable) (moment : ℤ) : Option ℤ :=
  (burstAt? moment t.bursts).bind fun
    | some slot => some slot
    | none => slotAtOrAfter? (max moment t.origin) t.origin t.phase t.interval

theorem slotAtOrAfter?_eq {interval : ℤ} (h : 1 ≤ interval) (moment origin phase : ℤ) :
    slotAtOrAfter? moment origin phase interval =
      some (slotAtOrAfter moment origin phase interval) := by
  unfold slotAtOrAfter? ceilDiv?
  rw [if_neg (by omega)]
  rfl

theorem burstAt?_eq {bursts : List Stretch} (h : ∀ b ∈ bursts, 1 ≤ b.interval) (moment : ℤ) :
    burstAt? moment bursts = some (burstAt moment bursts) := by
  induction bursts with
  | nil => rfl
  | cons b rest ih =>
    have hrest := ih fun c hc => h c (List.mem_cons_of_mem _ hc)
    rw [burstAt_cons, burstAt?, slotAtOrAfter?_eq (h b List.mem_cons_self), hrest]
    simp only [Option.bind_some]
    split
    · rfl
    · split <;> rfl

/-- With no interval of 0 ns nothing panics. -/
theorem Timetable.at?_eq {t : Timetable} (h : ∀ b ∈ t.bursts, 1 ≤ b.interval)
    (hcadence : 1 ≤ t.interval) (moment : ℤ) : t.at? moment = some (t.at moment) := by
  unfold Timetable.at? Timetable.at
  rw [burstAt?_eq h]
  cases burstAt moment t.bursts with
  | some slot => rfl
  | none => exact slotAtOrAfter?_eq hcadence _ _ _

/-! ### What the checks leave open -/

/-- A timetable the timing thread can follow to the end. -/
structure Timetable.Followable (t : Timetable) : Prop where
  intervals : ∀ b ∈ t.bursts, 1 ≤ b.interval
  ends : ∀ b ∈ t.bursts, b.fromNs < b.untilNs
  follow : t.bursts.IsChain fun b c => b.untilNs ≤ c.fromNs
  last : ∀ b ∈ t.bursts.getLast?, b.untilNs ≤ t.origin
  divides : ∀ moment, t.at? moment = some (t.at moment)

def Plan.timetable (plan : Plan) (preview : Preview) (m : Member) (anchor : ℤ) : Timetable :=
  timeBursts preview.bursts (nanoseconds plan.intervalMs) (nanoseconds m.phaseMs) anchor

/-- One burst as `timeBursts` lays it out. -/
def Burst.laidOut (interval phase anchor : ℤ) (b : Burst) : Stretch :=
  let double := Precision.binary64.round
  ⟨momentAfter anchor (wholeNs b.fromMs), momentAfter anchor (wholeNs b.untilMs),
    int64 (goRound (double (goFract (double (double phase / double interval)) *
      double (nanoseconds b.intervalMs)))), nanoseconds b.intervalMs⟩

theorem timeBursts_bursts (bursts : List Burst) (interval phase anchor : ℤ) :
    (timeBursts bursts interval phase anchor).bursts =
      bursts.map (Burst.laidOut interval phase anchor) :=
  rfl

/-- A preview's bursts after the rounding: each keeps an interval and a length
in whole nanoseconds of 64 bits, half a nanosecond at least and a half-way
point between its ends, and no moment of theirs or all wrap around. -/
structure Preview.SurvivesRounding (p : Preview) (anchor : ℤ) : Prop where
  intervals : ∀ b ∈ p.bursts, 1 / 2 ≤ Precision.binary64.round (b.intervalMs * 1000000) ∧
    ¬ Past (2 ^ 63 - 1) (Precision.binary64.round (b.intervalMs * 1000000))
  lengths : ∀ b ∈ p.bursts, ∃ k : ℤ, (-2 ^ 63 ≤ k ∧ k < 2 ^ 63) ∧
    Past k (Precision.binary64.round (b.untilMs * 1000000)) ∧
      ¬ Past k (Precision.binary64.round (b.fromMs * 1000000))
  together : (∀ b ∈ p.bursts, wholeNs b.untilMs < wrapsAt anchor) ∨
    ∀ b ∈ p.bursts, wrapsAt anchor ≤ wholeNs b.fromMs

theorem one_le_nanoseconds_iff (ms : ℚ) : 1 ≤ nanoseconds ms ↔
    1 / 2 ≤ Precision.binary64.round (ms * 1000000) ∧
      ¬ Past (2 ^ 63 - 1) (Precision.binary64.round (ms * 1000000)) := by
  unfold nanoseconds
  rw [one_le_int64_iff, ← lt_goRound_iff, wholeNs, one_le_goRound_iff, Int.sub_one_lt_iff, not_le]

/-- A burst on one side of the wrap is laid out with a length where the range
has a half-way point between its ends. -/
theorem Burst.laidOut_lt_iff {interval phase anchor : ℤ} (hanchor : -2 ^ 63 ≤ anchor ∧ anchor < 2 ^ 63)
    {b : Burst} (hb : b.fromMs < b.untilMs)
    (h : wholeNs b.untilMs < wrapsAt anchor ∨ wrapsAt anchor ≤ wholeNs b.fromMs) :
    (b.laidOut interval phase anchor).fromNs < (b.laidOut interval phase anchor).untilNs ↔
      ∃ k : ℤ, (-2 ^ 63 ≤ k ∧ k < 2 ^ 63) ∧
        Past k (Precision.binary64.round (b.untilMs * 1000000)) ∧
          ¬ Past k (Precision.binary64.round (b.fromMs * 1000000)) := by
  refine (momentAfter_lt_iff hanchor (wholeNs_mono hb.le) h).trans (exists_congr fun k => ?_)
  rw [← lt_goRound_iff, ← lt_goRound_iff, not_lt]
  rfl

/-- What the checks say of the bursts, in milliseconds. -/
theorem Burst.follow_chain {bursts : List Burst} {last : Option ℚ}
    (h : Burst.follow last bursts = true) : (∀ b ∈ bursts, b.fromMs < b.untilMs) ∧
      bursts.IsChain fun b c => b.untilMs ≤ c.fromMs := by
  induction bursts generalizing last with
  | nil => exact ⟨fun _ hb => absurd hb List.not_mem_nil, .nil⟩
  | cons b rest ih =>
    simp only [Burst.follow, Bool.and_eq_true, decide_eq_true_eq] at h
    obtain ⟨hends, hrest⟩ := ih h.2
    refine ⟨List.forall_mem_cons.mpr ⟨h.1.1.2, hends⟩, List.isChain_cons.mpr ⟨fun c hc => ?_, hrest⟩⟩
    cases rest with
    | nil => simp at hc
    | cons d rest =>
      have hnext := h.2
      simp only [Burst.follow, Bool.and_eq_true, Option.all_some, decide_eq_true_eq] at hnext
      simp only [List.head?_cons, Option.mem_def, Option.some.injEq] at hc
      rw [← hc]
      exact hnext.1.2

/-- Bursts that are laid out in order are all on one side of the wrap. -/
theorem Burst.laidOut_together {interval phase anchor : ℤ}
    (hanchor : -2 ^ 63 ≤ anchor ∧ anchor < 2 ^ 63) {bursts : List Burst}
    (hends : ∀ b ∈ bursts, b.fromMs < b.untilMs)
    (hfollow : bursts.IsChain fun b c => b.untilMs ≤ c.fromMs)
    (hlaid : ∀ b ∈ bursts,
      (b.laidOut interval phase anchor).fromNs < (b.laidOut interval phase anchor).untilNs)
    (hchain : bursts.IsChain fun b c =>
      (b.laidOut interval phase anchor).untilNs ≤ (c.laidOut interval phase anchor).fromNs) :
    (∀ b ∈ bursts, wholeNs b.untilMs < wrapsAt anchor) ∨
      ∀ b ∈ bursts, wrapsAt anchor ≤ wholeNs b.fromMs := by
  induction bursts with
  | nil => exact .inl fun _ hb => absurd hb List.not_mem_nil
  | cons b rest ih =>
    obtain ⟨hb, hends⟩ := List.forall_mem_cons.mp hends
    obtain ⟨hblaid, hlaid⟩ := List.forall_mem_cons.mp hlaid
    obtain ⟨hbfollow, hfollow⟩ := List.isChain_cons.mp hfollow
    obtain ⟨hbchain, hchain⟩ := List.isChain_cons.mp hchain
    -- a burst across the wrap would end before it begins
    have hside : wholeNs b.untilMs < wrapsAt anchor ∨ wrapsAt anchor ≤ wholeNs b.fromMs := by
      by_contra hacross
      rw [not_or, not_lt, not_le] at hacross
      exact (momentAfter_wraps hanchor (wholeNs_mono hb.le) hacross.2 hacross.1).not_gt hblaid
    cases rest with
    | nil =>
      refine hside.imp ?_ ?_ <;> exact fun h => List.forall_mem_singleton.mpr h
    | cons c rest =>
      have hbc := hbfollow c rfl
      have hc := hends c List.mem_cons_self
      have hclaid := hlaid c List.mem_cons_self
      have hwhole : wholeNs b.untilMs ≤ wholeNs c.fromMs := wholeNs_mono hbc
      have hbwhole : wholeNs b.fromMs ≤ wholeNs b.untilMs := wholeNs_mono hb.le
      have hcwhole : wholeNs c.fromMs ≤ wholeNs c.untilMs := wholeNs_mono hc.le
      rcases hside, ih hends hfollow hlaid hchain with ⟨hbelow | habove, hbelows | haboves⟩
      · exact .inl (List.forall_mem_cons.mpr ⟨hbelow, hbelows⟩)
      · -- the next burst, past the wrap, would end before this one begins
        have hcfrom := haboves c List.mem_cons_self
        have hback := momentAfter_wraps (y := wholeNs c.untilMs) hanchor
          (by omega) (hbwhole.trans_lt hbelow) (by omega)
        have hnext := hbchain c rfl
        simp only [Burst.laidOut] at hblaid hclaid hnext
        omega
      · have hcuntil := hbelows c List.mem_cons_self
        omega
      · exact .inr (List.forall_mem_cons.mpr ⟨habove, haboves⟩)

variable {plan : Plan} {venue : Except String Unit} {r : RunState} {p : Preview}

/-- What a plan that is taken has been checked for. -/
theorem RunState.start_checked (h : RunState.start plan venue = .ok r)
    (hp : plan.preview = some p) :
    1 ≤ nanoseconds plan.intervalMs ∧ plan.members ≠ [] ∧ Burst.follow none p.bursts = true := by
  unfold RunState.start at h
  rw [hp] at h
  simp only [Option.elim_some] at h
  split_ifs at h with hinterval hmembers
  refine ⟨by omega, hmembers, ?_⟩
  cases hcheck : p.check with
  | error refusal => simp [hcheck] at h
  | ok _ =>
    unfold Preview.check at hcheck
    split_ifs at hcheck with _ _ _ hfollow
    exact hfollow

/-- The cadence starts where the last burst ends. -/
theorem timeBursts_last (bursts : List Burst) (interval phase anchor : ℤ) :
    ∀ c ∈ (timeBursts bursts interval phase anchor).bursts.getLast?,
      c.untilNs ≤ (timeBursts bursts interval phase anchor).origin := by
  intro c hc
  rw [timeBursts_bursts, List.getLast?_map] at hc
  obtain ⟨b, hb, rfl⟩ := Option.mem_map.mp hc
  rw [Option.mem_def] at hb
  show _ ≤ bursts.getLast?.elim anchor fun b => wrap (anchor + nanoseconds b.untilMs)
  rw [hb]
  exact le_rfl

/-- A plan that is taken can be followed by every member from an anchor exactly
where its bursts survive the rounding there. -/
theorem Plan.followable_iff (h : RunState.start plan venue = .ok r) (hp : plan.preview = some p)
    (anchor : ℤ) (hanchor : -2 ^ 63 ≤ anchor ∧ anchor < 2 ^ 63) :
    (∀ m ∈ plan.members, (plan.timetable p m anchor).Followable) ↔ p.SurvivesRounding anchor := by
  obtain ⟨hinterval, hmembers, hfollow⟩ := RunState.start_checked h hp
  obtain ⟨hends, hchain⟩ := Burst.follow_chain hfollow
  constructor
  · intro hall
    obtain ⟨m, hm⟩ := List.exists_mem_of_ne_nil _ hmembers
    obtain ⟨hintervals, hlaid, hlaidChain, -, -⟩ := hall m hm
    have htable : (plan.timetable p m anchor).bursts =
        p.bursts.map (Burst.laidOut (nanoseconds plan.intervalMs) (nanoseconds m.phaseMs) anchor) := rfl
    rw [htable] at hintervals hlaid hlaidChain
    rw [List.isChain_map] at hlaidChain
    have hlaid := List.forall_mem_map.mp hlaid
    have htogether := Burst.laidOut_together hanchor hends hchain hlaid hlaidChain
    refine ⟨fun b hb => ?_, fun b hb => ?_, htogether⟩
    · exact (one_le_nanoseconds_iff _).mp (List.forall_mem_map.mp hintervals b hb)
    · exact (Burst.laidOut_lt_iff hanchor (hends b hb)
        (htogether.imp (fun h => h b hb) fun h => h b hb)).mp (hlaid b hb)
  · intro hsurvives m _
    have hintervals : ∀ b ∈ (plan.timetable p m anchor).bursts, 1 ≤ b.interval := by
      refine List.forall_mem_map.mpr fun b hb => ?_
      exact (one_le_nanoseconds_iff _).mpr (hsurvives.intervals b hb)
    refine ⟨hintervals, List.forall_mem_map.mpr fun b hb => ?_, ?_, timeBursts_last _ _ _ _,
      Timetable.at?_eq hintervals hinterval⟩
    · exact (Burst.laidOut_lt_iff hanchor (hends b hb)
        (hsurvives.together.imp (fun h => h b hb) fun h => h b hb)).mpr (hsurvives.lengths b hb)
    · have htable : (plan.timetable p m anchor).bursts =
          p.bursts.map (Burst.laidOut (nanoseconds plan.intervalMs) (nanoseconds m.phaseMs) anchor) := rfl
      rw [htable, List.isChain_map]
      refine (hchain.imp_of_mem_imp ?_)
      intro b c hb hc hbc
      exact momentAfter_le hanchor (wholeNs_mono hbc)
        (hsurvives.together.imp (fun h => (wholeNs_mono (hends c hc).le).trans_lt (h c hc))
          fun h => (h b hb).trans (wholeNs_mono (hends b hb).le))

def Plan.oneBurst (intervalMs : ℚ) : Plan where
  market := "m"
  intervalMs := 1000
  knockUntilMs := 0
  marketEndMs := 0
  members := [⟨"a", 0, [⟨"up", ""⟩]⟩]
  preview := some ⟨"u", 25, [⟨200, 300, intervalMs⟩], 1000⟩

theorem Plan.followable_iff_oneBurst :
    (RunState.start (Plan.oneBurst 5) (.ok ())).isOk = true ∧
      ∀ m ∈ (Plan.oneBurst 5).members,
        ((Plan.oneBurst 5).timetable ⟨"u", 25, [⟨200, 300, 5⟩], 1000⟩ m 0).Followable := by
  have hstart : (RunState.start (Plan.oneBurst 5) (.ok ())).isOk := by decide +kernel
  refine ⟨hstart, ?_⟩
  cases h : RunState.start (Plan.oneBurst 5) (.ok ()) with
  | error refusal => simp [h, Except.isOk, Except.toBool] at hstart
  | ok r =>
    refine (Plan.followable_iff h rfl 0 (by decide)).mpr ⟨?_, ?_, .inl ?_⟩
    all_goals refine List.forall_mem_singleton.mpr ?_
    · decide +kernel
    · exact ⟨200000000, by decide, by decide +kernel⟩
    · decide +kernel

/-- An interval above 0 that is none in nanoseconds passes the checks, and the
first slot asked for divides by it. -/
theorem Plan.at_oneBurst_panics :
    (RunState.start (Plan.oneBurst (1 / 10000000)) (.ok ())).isOk = true ∧
      ∃ m ∈ (Plan.oneBurst (1 / 10000000)).members,
        ((Plan.oneBurst (1 / 10000000)).timetable
          ⟨"u", 25, [⟨200, 300, 1 / 10000000⟩], 1000⟩ m 0).at? 0 = none := by
  refine ⟨by decide +kernel, _, List.mem_singleton.mpr rfl, by decide +kernel⟩

end EventQuant.Knock
