import EventQuant.Knock.Plan

/-!
When members send. Each has its timetable, the bursts after a preview and then
the cadence, in nanoseconds of one clock; the timing thread hands over the
next slot of whichever member's comes first, and a member that missed slots
goes on at the first one still to come.
-/
namespace EventQuant.Knock

/-- A moment this close after a slot still counts as that slot. -/
def gridTolerance : ℤ := 1000

/-- The source's division truncates. -/
def ceilDiv (a b : ℤ) : ℤ := if a.tmod b ≠ 0 ∧ 0 < a then a.tdiv b + 1 else a.tdiv b

/-- The first slot at or after a moment of `origin + phase + k*interval`. -/
def slotAtOrAfter (moment origin phase interval : ℤ) : ℤ :=
  origin + phase + ceilDiv (moment - origin - phase - gridTolerance) interval * interval

/-- A run of slots, `fromNs + phase + k*interval` before `untilNs`. -/
structure Stretch where
  fromNs : ℤ
  untilNs : ℤ
  phase : ℤ
  interval : ℤ
  deriving DecidableEq, Repr

/-- One member's slots: the bursts, if any, and the cadence for good. -/
structure Timetable where
  bursts : List Stretch
  origin : ℤ
  phase : ℤ
  interval : ℤ
  deriving DecidableEq, Repr

def burstAt (moment : ℤ) : List Stretch → Option ℤ
  | [] => none
  | b :: rest =>
    if b.untilNs ≤ moment then burstAt moment rest
    else
      let slot := slotAtOrAfter (max moment b.fromNs) b.fromNs b.phase b.interval
      if slot < b.untilNs then some slot else burstAt moment rest

def Timetable.at (t : Timetable) (moment : ℤ) : ℤ :=
  (burstAt moment t.bursts).getD (slotAtOrAfter (max moment t.origin) t.origin t.phase t.interval)

/-- `timeBursts` for one member: within each burst the members keep their
cadence order, and the cadence goes on from the end of the last burst. -/
def timeBursts (bursts : List Burst) (interval phase anchor : ℤ) : Timetable where
  bursts := bursts.map fun b =>
    let double := Precision.binary64.round
    let share := goFract (double (double phase / double interval))
    ⟨wrap (anchor + nanoseconds b.fromMs), wrap (anchor + nanoseconds b.untilMs),
      int64 (goRound (double (share * double (nanoseconds b.intervalMs)))), nanoseconds b.intervalMs⟩
  origin := bursts.getLast?.elim anchor fun b => wrap (anchor + nanoseconds b.untilMs)
  phase := phase
  interval := interval

/-- What the timing thread keeps: every member's timetable and next slot. -/
structure Tick where
  tables : List Timetable
  next : List ℤ
  deriving DecidableEq, Repr

namespace Tick

def start (tables : List Timetable) (moment : ℤ) (earliest : List ℤ) : Tick :=
  ⟨tables, List.zipWith (fun table slot => table.at (max moment slot)) tables earliest⟩

def due (sending : ℕ → Bool) (t : Tick) : Option ℕ :=
  (List.range t.next.length).foldl
    (fun due i =>
      if sending i && due.all (fun d => decide (t.next.getD i 0 < t.next.getD d 0)) then some i else due)
    none

/-- The slot after the one handed over, never one already gone. -/
def handed (now : ℤ) (i : ℕ) (t : Tick) : Tick :=
  match t.tables[i]?, t.next[i]? with
  | some table, some slot =>
    { t with next := t.next.set i (table.at (max (slot + gridTolerance + 1) now)) }
  | _, _ => t

end Tick

end EventQuant.Knock
