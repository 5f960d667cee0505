import EventQuant.Library.Refcount

/-!
What a burst holds off. The trace waits on `quiet`, a channel made anew for the
first burst on and closed after the last; Go's collector is turned off for the
first hold and back to what it was found at after the last. Each is counted
under its own lock.
-/
namespace EventQuant.Knock

open Refcount

/-- The channel `quiet` is, and how often each channel made for it was closed. -/
structure Channels where
  quiet : ℕ
  closes : List ℕ
  deriving DecidableEq, Repr

namespace Channels

/-- `closedChannel`. -/
def closedChannel : Channels := ⟨0, [1]⟩

def make (c : Channels) : Channels := ⟨c.closes.length, c.closes ++ [0]⟩

def close (c : Channels) : Channels := { c with closes := c.closes.modify c.quiet (· + 1) }

/-- What a wait on `Quiet` sees. -/
def IsClosed (c : Channels) : Prop := 0 < c.closes.getD c.quiet 0

instance (c : Channels) : Decidable c.IsClosed := inferInstanceAs (Decidable (0 < _))

/-- `quiet` is the last channel made, closed so often; the others were closed
once each. -/
def Last (n : ℕ) (c : Channels) : Prop :=
  ∃ past, c = ⟨past.length, past ++ [n]⟩ ∧ ∀ m ∈ past, m = 1

variable {c : Channels} {n : ℕ}

theorem closedChannel_last : closedChannel.Last 1 := ⟨[], rfl, by simp⟩

theorem Last.make (h : c.Last 1) : c.make.Last 0 := by
  obtain ⟨past, rfl, hpast⟩ := h
  refine ⟨past ++ [1], by simp [Channels.make], fun m hm => ?_⟩
  rcases List.mem_append.mp hm with hm | hm
  · exact hpast m hm
  · exact List.mem_singleton.mp hm

theorem Last.close (h : c.Last n) : c.close.Last (n + 1) := by
  obtain ⟨past, rfl, hpast⟩ := h
  refine ⟨past, ?_, hpast⟩
  have hmodify : (past ++ [n]).modify past.length (· + 1) = past ++ [n + 1] := by
    rw [List.modify_eq_set_getElem?]
    simp
  simp only [Channels.close, hmodify]

theorem Last.isClosed_iff (h : c.Last n) : c.IsClosed ↔ 0 < n := by
  obtain ⟨past, rfl, _⟩ := h
  simp [IsClosed]

theorem Last.once (h : c.Last n) (hn : n ≤ 1) : ∀ m ∈ c.closes, m ≤ 1 := by
  obtain ⟨past, rfl, hpast⟩ := h
  intro m hm
  rcases List.mem_append.mp hm with hm | hm
  · exact (hpast m hm).le
  · rw [List.mem_singleton.mp hm]
    exact hn

end Channels

/-- The collector's percentage, negative while collection is off, `gcSaved`, and
each setting of it with what it was found at. -/
structure Collector where
  percent : ℤ
  saved : ℤ
  settings : List (ℤ × ℤ)
  deriving DecidableEq, Repr

namespace Collector

def setGCPercent (percent : ℤ) (c : Collector) : Collector :=
  { c with percent := percent, settings := c.settings ++ [(c.percent, percent)] }

def stop (c : Collector) : Collector := { c.setGCPercent (-1) with saved := c.percent }

def restore (c : Collector) : Collector := c.setGCPercent c.saved

def turned (percent : ℤ) (k : ℕ) : List (ℤ × ℤ) :=
  (List.replicate k [(percent, -1), (-1, percent)]).flatten

def AsFound (percent : ℤ) (c : Collector) : Prop :=
  c.percent = percent ∧ ∃ k, c.settings = turned percent k

def Off (percent : ℤ) (c : Collector) : Prop :=
  c.percent = -1 ∧ c.saved = percent ∧ ∃ k, c.settings = turned percent k ++ [(percent, -1)]

theorem AsFound.stop {percent : ℤ} {c : Collector} (h : c.AsFound percent) :
    c.stop.Off percent := by
  obtain ⟨hpercent, k, hsettings⟩ := h
  exact ⟨rfl, hpercent, k, by simp [Collector.stop, setGCPercent, hpercent, hsettings]⟩

theorem Off.restore {percent : ℤ} {c : Collector} (h : c.Off percent) :
    c.restore.AsFound percent := by
  obtain ⟨hpercent, hsaved, k, hsettings⟩ := h
  refine ⟨hsaved, k + 1, ?_⟩
  simp [Collector.restore, setGCPercent, turned, hpercent, hsaved, hsettings, List.replicate_succ']

end Collector

/-- The two counts, `bursting` over `quiet` and `gcHeld` over the collector. -/
structure Held where
  bursts : Counted Channels
  gc : Counted Collector
  deriving DecidableEq, Repr

namespace Held

def init (percent : ℤ) : Held := ⟨⟨0, Channels.closedChannel⟩, ⟨0, ⟨percent, 0, []⟩⟩⟩

def burstOn (h : Held) : Held := { h with bursts := h.bursts.acquire Channels.make }

def burstOff (h : Held) : Held := { h with bursts := h.bursts.release Channels.close }

/-- `burstOff` closes a channel that is closed. -/
def Panics (h : Held) : Prop := h.bursts.held = 1 ∧ h.bursts.resource.IsClosed

instance (h : Held) : Decidable h.Panics := inferInstanceAs (Decidable (_ ∧ _))

def holdGC (h : Held) : Held := { h with gc := h.gc.acquire Collector.stop }

def releaseGC (h : Held) : Held := { h with gc := h.gc.release Collector.restore }

/-- Both resources are as their counts say: `quiet` closed without a burst and
open with one, the collector as it was found without a hold and off with one. -/
structure Sound (percent : ℤ) (h : Held) : Prop where
  bursts : h.bursts.Kept (Channels.Last 1) (Channels.Last 0)
  gc : h.gc.Kept (Collector.AsFound percent) (Collector.Off percent)

theorem init_sound (percent : ℤ) : (init percent).Sound percent where
  bursts := ⟨fun _ => Channels.closedChannel_last, fun h => absurd h (by simp [init])⟩
  gc := ⟨fun _ => ⟨rfl, 0, rfl⟩, fun h => absurd h (by simp [init])⟩

variable {percent : ℤ} {h : Held}

theorem Sound.burstOn (hs : h.Sound percent) : h.burstOn.Sound percent :=
  ⟨hs.bursts.acquire fun _ => Channels.Last.make, hs.gc⟩

theorem Sound.burstOff (hs : h.Sound percent) : h.burstOff.Sound percent :=
  ⟨hs.bursts.release fun _ => Channels.Last.close, hs.gc⟩

theorem Sound.holdGC (hs : h.Sound percent) : h.holdGC.Sound percent :=
  ⟨hs.bursts, hs.gc.acquire fun _ => Collector.AsFound.stop⟩

theorem Sound.releaseGC (hs : h.Sound percent) : h.releaseGC.Sound percent :=
  ⟨hs.bursts, hs.gc.release fun _ => Collector.Off.restore⟩

theorem Sound.isClosed_iff (hs : h.Sound percent) :
    h.bursts.resource.IsClosed ↔ h.bursts.held = 0 := by
  by_cases hnone : h.bursts.held = 0
  · simp [(hs.bursts.free hnone).isClosed_iff, hnone]
  · simp [(hs.bursts.held (Nat.pos_of_ne_zero hnone)).isClosed_iff, hnone]

theorem Sound.not_panics (hs : h.Sound percent) : ¬ h.Panics := by
  rintro ⟨hone, hclosed⟩
  have hnone := hs.isClosed_iff.mp hclosed
  omega

theorem Sound.once (hs : h.Sound percent) : ∀ n ∈ h.bursts.resource.closes, n ≤ 1 := by
  by_cases hnone : h.bursts.held = 0
  · exact (hs.bursts.free hnone).once le_rfl
  · exact (hs.bursts.held (Nat.pos_of_ne_zero hnone)).once (Nat.zero_le 1)

theorem Sound.percent_eq (hs : h.Sound percent) :
    h.gc.resource.percent = if h.gc.held = 0 then percent else -1 := by
  split
  · rename_i hnone
    exact (hs.gc.free hnone).1
  · rename_i hsome
    exact (hs.gc.held (Nat.pos_of_ne_zero hsome)).1

/-- The collector was turned off and back in turn, from the percentage the first
hold found to that percentage. -/
theorem Sound.settings (hs : h.Sound percent) : ∃ k, h.gc.resource.settings =
    Collector.turned percent k ++ if h.gc.held = 0 then [] else [(percent, -1)] := by
  split
  · rename_i hnone
    obtain ⟨-, k, hsettings⟩ := hs.gc.free hnone
    exact ⟨k, by simp [hsettings]⟩
  · rename_i hsome
    exact (hs.gc.held (Nat.pos_of_ne_zero hsome)).2.2

end Held

end EventQuant.Knock
