import EventQuant.Service.ActivationQueue
import EventQuant.Service.SignedOnce
import EventQuant.Service.Ticks

/-!
Placements and health. A tick asks the two workers once and then places every
market it has. A placement of the tick begins with both healthy where the last
each of them said since, if it said anything, left its flag set.
-/
namespace EventQuant

open Program Store Python

def LoopEvent.setsGeoblock (codec : Codec) : LoopEvent → Option Bool
  | geoblockRunOnce answer => some !clearsGeoblock codec answer
  | _ => none

def LoopEvent.setsStream : LoopEvent → Option Bool
  | streamSetHealth healthy => some healthy
  | streamStopped => some false
  | _ => none

def lastSet (sets : LoopEvent → Option Bool) (events : List LoopEvent) : Option Bool :=
  (events.filterMap sets).getLast?

def Phase.placing : Phase → Bool
  | passing _ => true
  | starting _ _ _ _ => true
  | _ => false

def Phase.begins : Phase → Bool
  | starting _ _ _ _ => true
  | _ => false

namespace Loop

variable (s : Service) (gammaNeeded : Bool)

def after (l : Loop) (events : List LoopEvent) : Loop := events.foldl (next s gammaNeeded) l

/-- Whenever a tick looks and, in the same tick, comes to begin a placement, the
last that each of the workers said between the two, if it said anything, does
not clear its flag. -/
def KeepsHealth (l : Loop) (events : List LoopEvent) : Prop :=
  ∀ before between held rest, events = before ++ .check :: (between ++ .start held :: rest) →
    (l.after s gammaNeeded before).phase = .swept →
    (∀ first, first <+: between →
      (l.after s gammaNeeded (before ++ .check :: first)).phase.placing = true) →
    (l.after s gammaNeeded (before ++ .check :: between)).phase.begins = true →
      lastSet (LoopEvent.setsGeoblock s.codec) between ≠ some false ∧
        lastSet LoopEvent.setsStream between ≠ some false

variable {s gammaNeeded}

theorem lastSet_append (sets : LoopEvent → Option Bool) (events : List LoopEvent) (e : LoopEvent) :
    lastSet sets (events ++ [e]) = (sets e).or (lastSet sets events) := by
  unfold lastSet
  rw [List.filterMap_append, List.filterMap_cons, List.filterMap_nil]
  cases sets e with
  | none => rw [List.append_nil, Option.none_or]
  | some said => rw [List.getLast?_append_cons, Option.some_or, List.getLast?_singleton]

@[simp] theorem after_append (l : Loop) (events events' : List LoopEvent) :
    l.after s gammaNeeded (events ++ events') =
      (l.after s gammaNeeded events).after s gammaNeeded events' :=
  List.foldl_append

@[simp] theorem after_cons (l : Loop) (e : LoopEvent) (events : List LoopEvent) :
    l.after s gammaNeeded (e :: events) = (l.next s gammaNeeded e).after s gammaNeeded events := rfl

@[simp] theorem after_nil (l : Loop) : l.after s gammaNeeded [] = l := rfl

theorem takeTurn_same (l : Loop) (answers : PlacementAnswers) (market : Market) (trigger : Trigger)
    (rest : Pass) : (l.takeTurn s answers market trigger rest).geoblock = l.geoblock ∧
      (l.takeTurn s answers market trigger rest).stream = l.stream ∧
      (l.takeTurn s answers market trigger rest).starts = l.starts := by
  unfold takeTurn
  split <;> exact ⟨rfl, rfl, rfl⟩

variable (gammaNeeded) in
/-- A step that is none of these leaves the flags and the placements begun. -/
theorem next_same (l : Loop) (e : LoopEvent) (hgeoblock : e.setsGeoblock s.codec = none)
    (hstream : e.setsStream = none) (hstart : ∀ held, e ≠ .start held) :
    (l.next s gammaNeeded e).geoblock.healthy = l.geoblock.healthy ∧
      (l.next s gammaNeeded e).stream.healthy = l.stream.healthy ∧
      (l.next s gammaNeeded e).starts = l.starts := by
  cases e with
  | geoblockRunOnce answer => exact nomatch hgeoblock
  | streamSetHealth healthy => exact nomatch hstream
  | streamStopped => exact nomatch hstream
  | start held => exact absurd rfl (hstart held)
  | elapse seconds => exact ⟨rfl, rfl, rfl⟩
  | take answers =>
    cases hphase : l.phase with
    | passing pass =>
      obtain ⟨turns, nowTs, discovery⟩ := pass
      cases turns with
      | nil =>
        simp [next, hphase]
      | cons turn turns =>
        obtain ⟨hgeoblock', hstream', hstarts'⟩ := takeTurn_same (s := s) l answers turn.1 turn.2
          ⟨turns, nowTs, discovery⟩
        simp only [next, hphase]
        exact ⟨congrArg _ hgeoblock', congrArg _ hstream', hstarts'⟩
    | _ =>
      simp [next, hphase]
  | discover markets =>
    cases hphase : l.phase with
    | passing pass =>
      obtain ⟨turns, nowTs, discovery⟩ := pass
      cases turns <;> cases discovery <;> simp [next, hphase]
    | _ =>
      simp [next, hphase]
  | endTick =>
    cases hphase : l.phase with
    | passing pass =>
      obtain ⟨turns, nowTs, discovery⟩ := pass
      cases turns <;> simp [next, hphase]
    | _ =>
      simp [next, hphase]
  | check =>
    cases hphase : l.phase with
    | swept =>
      simp only [next, hphase]
      split <;> simp
    | _ => simp [next, hphase]
  | drain c =>
    cases hphase : l.phase with
    | draining =>
      simp only [next, hphase]
      split <;> simp
    | _ => simp [next, hphase]
  | activate update | drainGeoblock | sweep answers =>
    cases hphase : l.phase with
    | _ => simp [next, hphase]

variable (s gammaNeeded) in
/-- A step sets the flags to what it says of them, and leaves the others. -/
theorem next_flags (l : Loop) (e : LoopEvent) :
    (l.next s gammaNeeded e).geoblock.healthy =
        (e.setsGeoblock s.codec).getD l.geoblock.healthy ∧
      (l.next s gammaNeeded e).stream.healthy = e.setsStream.getD l.stream.healthy := by
  have hsame : ∀ e : LoopEvent, e.setsGeoblock s.codec = none → e.setsStream = none →
      (∀ held, e ≠ .start held) →
      (l.next s gammaNeeded e).geoblock.healthy =
          (e.setsGeoblock s.codec).getD l.geoblock.healthy ∧
        (l.next s gammaNeeded e).stream.healthy = e.setsStream.getD l.stream.healthy := by
    intro e hgeoblock hstream hstart
    obtain ⟨hgeoblock', hstream', -⟩ := next_same gammaNeeded l e hgeoblock hstream
      hstart
    rw [hgeoblock, hstream]
    exact ⟨hgeoblock', hstream'⟩
  cases e with
  | geoblockRunOnce answer =>
    exact ⟨GeoblockWorker.runOnce_healthy l.geoblock s.codec answer, rfl⟩
  | streamSetHealth healthy => exact ⟨rfl, rfl⟩
  | streamStopped => exact ⟨rfl, rfl⟩
  | start held =>
    cases hphase : l.phase with
    | _ => simp [next, hphase, LoopEvent.setsGeoblock, LoopEvent.setsStream]
  | _ => exact hsame _ rfl rfl (fun _ h => nomatch h)

variable (s gammaNeeded) in
/-- After a run each flag is as it was last set, or as it was. -/
theorem after_flags (l : Loop) (events : List LoopEvent) :
    (l.after s gammaNeeded events).geoblock.healthy =
        (lastSet (LoopEvent.setsGeoblock s.codec) events).getD l.geoblock.healthy ∧
      (l.after s gammaNeeded events).stream.healthy =
        (lastSet LoopEvent.setsStream events).getD l.stream.healthy := by
  induction events using List.reverseRecOn with
  | nil => exact ⟨rfl, rfl⟩
  | append_singleton events e ih =>
    obtain ⟨hgeoblock, hstream⟩ := next_flags s gammaNeeded
      (l.after s gammaNeeded events) e
    rw [lastSet_append, lastSet_append, after_append, after_cons, after_nil, hgeoblock, hstream,
      ih.1, ih.2]
    constructor
    · cases e.setsGeoblock s.codec <;> rfl
    · cases e.setsStream <;> rfl

/-- A tick comes to its placements by a look that found both healthy. -/
theorem next_placing (hlive : s.live = true) {l : Loop} {e : LoopEvent}
    (h : (l.next s gammaNeeded e).phase.placing = true) : l.phase.placing = true ∨
      e = .check ∧ l.phase = .swept ∧ l.geoblock.healthy = true ∧ l.stream.healthy = true := by
  cases hphase : l.phase with
  | passing pass => exact .inl rfl
  | starting market trigger answers rest => exact .inl rfl
  | swept =>
    cases e with
    | check =>
      simp only [next, hphase, Service.healthyWith, hlive, Bool.not_true, Bool.false_or] at h
      split at h
      · rename_i hhealthy
        exact .inr ⟨rfl, rfl, Bool.and_eq_true_iff.mp hhealthy⟩
      · exact nomatch h
    | _ => simp [next, hphase, Phase.placing] at h
  | draining =>
    cases e with
    | drain c =>
      simp only [next, hphase] at h
      split at h
      · simp [Phase.placing] at h
      · simp [hphase, Phase.placing] at h
    | drainGeoblock =>
      simp only [next, hphase] at h
      split at h <;> exact nomatch h
    | _ => simp [next, hphase, Phase.placing] at h
  | stopped =>
    cases e with
    | _ => simp [next, hphase, Phase.placing] at h

variable (s gammaNeeded) in
/-- What a step adds to the placements begun: one, with the flags of that
moment, where it begins one. -/
theorem next_starts (l : Loop) (e : LoopEvent) :
    (l.next s gammaNeeded e).starts = l.starts ∨
      ∃ held slug, e = .start held ∧ l.phase.begins = true ∧
        (l.next s gammaNeeded e).starts =
          l.starts ++ [⟨slug, l.geoblock.healthy, l.stream.healthy⟩] := by
  cases e with
  | start held =>
    cases hphase : l.phase with
    | starting market trigger answers rest =>
      refine .inr ⟨held, market.slug, rfl, rfl, ?_⟩
      simp only [next, hphase]
    | _ => exact .inl (by simp only [next, hphase])
  | geoblockRunOnce answer => exact .inl rfl
  | streamSetHealth healthy => exact .inl rfl
  | streamStopped => exact .inl rfl
  | _ =>
    refine .inl (next_same gammaNeeded l _ rfl rfl ?_).2.2
    rintro held ⟨⟩

variable (s gammaNeeded) in
/-- A placement begins where a start finds one next. -/
theorem begins_start {l : Loop} (held : ℚ≥0) (h : l.phase.begins = true) :
    ∃ slug, (l.next s gammaNeeded (.start held)).starts =
      l.starts ++ [⟨slug, l.geoblock.healthy, l.stream.healthy⟩] := by
  cases hphase : l.phase with
  | starting market trigger answers rest => exact ⟨market.slug, by simp only [next, hphase]⟩
  | _ =>
    rw [hphase] at h
    exact nomatch h

variable (s gammaNeeded) in
theorem starts_subset (l : Loop) (events : List LoopEvent) :
    l.starts ⊆ (l.after s gammaNeeded events).starts := by
  induction events using List.reverseRecOn with
  | nil => exact List.Subset.refl _
  | append_singleton events e ih =>
    rw [after_append, after_cons, after_nil]
    rcases next_starts s gammaNeeded (l.after s gammaNeeded events) e with
      hsame | ⟨held, slug, -, -, hmore⟩
    · rwa [hsame]
    · rw [hmore]
      exact List.Subset.trans ih (List.subset_append_left _ _)

/-- Each placement begun has a start of its own. -/
theorem exists_start {b : Bot} {clock : ℚ} {events : List LoopEvent} {p : Start}
    (hp : p ∈ ((init b clock).after s gammaNeeded events).starts) :
    ∃ earlier held rest, events = earlier ++ .start held :: rest ∧
      ((init b clock).after s gammaNeeded earlier).phase.begins = true ∧
      p.geoblock = ((init b clock).after s gammaNeeded earlier).geoblock.healthy ∧
      p.stream = ((init b clock).after s gammaNeeded earlier).stream.healthy := by
  induction events using List.reverseRecOn with
  | nil => exact absurd hp List.not_mem_nil
  | append_singleton events e ih =>
    have hlater : p ∈ ((init b clock).after s gammaNeeded events).starts →
        ∃ earlier held rest, events ++ [e] = earlier ++ .start held :: rest ∧
          ((init b clock).after s gammaNeeded earlier).phase.begins = true ∧
          p.geoblock = ((init b clock).after s gammaNeeded earlier).geoblock.healthy ∧
          p.stream = ((init b clock).after s gammaNeeded earlier).stream.healthy := by
      intro hp
      obtain ⟨earlier, held, rest, rfl, hbegins⟩ := ih hp
      exact ⟨earlier, held, rest ++ [e], by simp, hbegins⟩
    rw [after_append, after_cons, after_nil] at hp
    rcases next_starts s gammaNeeded
      ((init b clock).after s gammaNeeded events) e with hsame | ⟨held, slug, rfl, hbegins, hmore⟩
    · exact hlater (hsame ▸ hp)
    · rw [hmore] at hp
      rcases List.mem_append.mp hp with hp | hp
      · exact hlater hp
      · rw [List.mem_singleton.mp hp]
        exact ⟨events, held, [], rfl, hbegins, rfl, rfl⟩

/-- A tick at its placements looked, found both healthy and has not ended
since. -/
theorem exists_look (hlive : s.live = true) {b : Bot} {clock : ℚ} {events : List LoopEvent}
    (h : ((init b clock).after s gammaNeeded events).phase.placing = true) :
    ∃ before between, events = before ++ .check :: between ∧
      ((init b clock).after s gammaNeeded before).phase = .swept ∧
      (∀ first, first <+: between →
        ((init b clock).after s gammaNeeded (before ++ .check :: first)).phase.placing = true) := by
  induction events using List.reverseRecOn with
  | nil => exact nomatch h
  | append_singleton events e ih =>
    have hplacing := h
    rw [after_append, after_cons, after_nil] at h
    rcases next_placing hlive h with hearlier | ⟨rfl, hswept, -⟩
    · obtain ⟨before, between, rfl, hswept, hkept⟩ := ih hearlier
      refine ⟨before, between ++ [e], by simp, hswept, fun first hfirst => ?_⟩
      rcases List.prefix_concat_iff.mp hfirst with rfl | hfirst
      · simpa using hplacing
      · exact hkept first hfirst
    · refine ⟨events, [], rfl, hswept, fun first hfirst => ?_⟩
      rw [List.prefix_nil.mp hfirst]
      exact hplacing

/-- In a live run, however the events of the loop and of its two workers fall:
every placement begins with both healthy exactly where, between a tick's look and
each placement of that tick, neither was left cleared. -/
theorem placements_begin_healthy_iff (s : Service) (gammaNeeded : Bool) (hlive : s.live = true)
    (b : Bot) (clock : ℚ) (events : List LoopEvent) :
    (∀ p ∈ ((init b clock).after s gammaNeeded events).starts, p.geoblock = true ∧ p.stream = true) ↔
      (init b clock).KeepsHealth s gammaNeeded events := by
  -- the flags of a placement are those the look found, as far as nothing was said since
  have hflags : ∀ before between,
      ((init b clock).after s gammaNeeded before).phase = .swept →
      ((init b clock).after s gammaNeeded (before ++ [.check])).phase.placing = true →
      ((init b clock).after s gammaNeeded (before ++ .check :: between)).geoblock.healthy =
          (lastSet (LoopEvent.setsGeoblock s.codec) between).getD true ∧
        ((init b clock).after s gammaNeeded (before ++ .check :: between)).stream.healthy =
          (lastSet LoopEvent.setsStream between).getD true := by
    intro before between hswept hplacing
    rw [after_append, after_cons, after_nil] at hplacing
    rcases next_placing hlive hplacing with hearlier | ⟨-, -, hgeoblock, hstream⟩
    · rw [hswept] at hearlier
      exact nomatch hearlier
    · obtain ⟨hlooked, hlooked'⟩ := next_flags s gammaNeeded
        ((init b clock).after s gammaNeeded before) .check
      rw [after_append, after_cons]
      obtain ⟨hsaid, hsaid'⟩ := after_flags s gammaNeeded
        (((init b clock).after s gammaNeeded before).next s gammaNeeded .check) between
      rw [hsaid, hsaid', hlooked, hlooked']
      simp only [LoopEvent.setsGeoblock, LoopEvent.setsStream, Option.getD_none, hgeoblock, hstream,
        and_self]
  have hset : ∀ said : Option Bool, said.getD true = true ↔ said ≠ some false := by decide
  constructor
  · intro h before between held rest hevents hswept hkept hbegins
    obtain ⟨slug, hmore⟩ := begins_start s gammaNeeded held hbegins
    have hmem := starts_subset s gammaNeeded
      (((init b clock).after s gammaNeeded (before ++ .check :: between)).next s gammaNeeded
        (.start held)) rest (hmore ▸ List.mem_append_right _ List.mem_cons_self)
    have hsplit : events = (before ++ .check :: between) ++ .start held :: rest := by
      rw [hevents, List.append_assoc]
      rfl
    obtain ⟨hgeoblock, hstream⟩ := hflags before between hswept (hkept [] List.nil_prefix)
    have hhealthy := h _ (by rw [hsplit, after_append, after_cons]; exact hmem)
    rw [hgeoblock, hset, hstream, hset] at hhealthy
    exact hhealthy
  · intro h p hp
    obtain ⟨earlier, held, rest, rfl, hbegins, hgeoblock, hstream⟩ := exists_start hp
    have hplacing : ((init b clock).after s gammaNeeded earlier).phase.placing = true := by
      revert hbegins
      cases ((init b clock).after s gammaNeeded earlier).phase <;> simp [Phase.begins, Phase.placing]
    obtain ⟨before, between, rfl, hswept, hkept⟩ := exists_look hlive hplacing
    obtain ⟨hgeoblock', hstream'⟩ := hflags before between hswept (hkept [] List.nil_prefix)
    rw [hgeoblock, hstream, hgeoblock', hstream', hset, hset]
    exact h before between held rest (by rw [List.append_assoc]; rfl) hswept hkept hbegins

end Loop

def twoPlaced (between after : List LoopEvent) : List LoopEvent :=
  [.geoblockRunOnce (.ok (.object [("blocked", .bool false)])), .streamSetHealth true,
    .activate ⟨pairMarket, 0, 0⟩, .activate ⟨{ pairMarket with slug := "btc-updown-5m-300" }, 0, 0⟩,
    .sweep fun _ => .ok .null, .check, .take (turnAnswers nothingKnocked), .start 240] ++ between ++
  [.take (turnAnswers nothingKnocked), .start 240] ++ after

/-- The stream ends and comes back while the first knock holds the loop, and ends
for good after the second has begun. -/
theorem placements_begin_healthy_two :
    let events := twoPlaced [.streamSetHealth false, .streamSetHealth true] [.streamSetHealth false]
    let l := (Loop.init (Bot.boot Database.empty) 0).after pairService false events
    l.starts.length = 2 ∧ (∀ p ∈ l.starts, p.geoblock = true ∧ p.stream = true) ∧
      (Loop.init (Bot.boot Database.empty) 0).KeepsHealth pairService false events := by
  intro events l
  have hhealthy : ∀ p ∈ l.starts, p.geoblock = true ∧ p.stream = true := by decide +kernel
  exact ⟨by decide +kernel, hhealthy, (Loop.placements_begin_healthy_iff pairService false rfl
    (Bot.boot Database.empty) 0 events).mp hhealthy⟩

/-- The stream ends while the first knock holds the loop: the second market is
placed all the same. -/
theorem placements_begin_healthy_stream_lost :
    let l := (Loop.init (Bot.boot Database.empty) 0).after pairService false
      (twoPlaced [.streamSetHealth false] [])
    l.starts = [⟨"btc-updown-5m-0", true, true⟩, ⟨"btc-updown-5m-300", true, false⟩] := by
  decide +kernel

end EventQuant
