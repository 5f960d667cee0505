import EventQuant.QueueProbe

/-!
One opening window. While no connection is replaced after the first row, every
row stands within the window that row opened, and the monitor is through when
it ends. A connection lost inside the window takes the window's end with it.
-/
namespace EventQuant

open Python Runs

def RowsWithin (window : ℚ) (rows : List QueueRow) : Prop :=
  ∀ first, rows.head? = some first → ∀ row ∈ rows,
    first.observedTs ≤ row.observedTs ∧ row.observedTs ≤ first.observedTs + window

namespace Book

/-- At a clock the book has not been seen, or the window of its first row is
open. -/
def Open (window ts : ℚ) (book : Book) : Prop :=
  (book.rows = [] ∧ book.openingDeadline = none) ∨
    ∃ first, book.rows.head? = some first ∧
      book.openingDeadline = some (first.observedTs + window) ∧
      first.observedTs ≤ ts ∧ ts ≤ first.observedTs + window

variable {codec : Codec} {update : ActivationUpdate} {window ts : ℚ} {book : Book} {row : QueueRow}

/-- Recording a row opens the window, or falls into it. -/
theorem Open.record (hwindow : 0 ≤ window) (hopen : book.Open window ts)
    (hwithin : RowsWithin window book.rows) (queues : Queues) (hrow : row.observedTs = ts) :
    Open window ts ⟨some (book.openingDeadline.getD (ts + window)), queues, book.rows ++ [row]⟩ ∧
      RowsWithin window (book.rows ++ [row]) ∧
      ∀ first, (book.rows ++ [row]).head? = some first →
        book.rows.head? = some first ∨ first.observedTs = ts := by
  rcases hopen with ⟨hrows, hnone⟩ | ⟨first, hfirst, hdeadline, hafter, hbefore⟩
  · rw [hrows, hnone]
    refine ⟨.inr ⟨row, rfl, ?_, hrow.le, ?_⟩, ?_, ?_⟩
    · rw [hrow]
      rfl
    · rw [hrow]
      linarith
    · intro first hfirst other hother
      obtain rfl : row = first := Option.some.inj hfirst
      obtain rfl := List.mem_singleton.mp hother
      exact ⟨le_refl _, by linarith⟩
    · intro first hfirst
      obtain rfl : row = first := Option.some.inj hfirst
      exact .inr hrow
  · have hhead : (book.rows ++ [row]).head? = some first := by
      rw [List.head?_append, hfirst]
      rfl
    refine ⟨.inr ⟨first, hhead, by rw [hdeadline]; rfl, hafter, hbefore⟩, ?_, ?_⟩
    · intro other hother r hr
      obtain rfl : first = other := Option.some.inj (hhead.symm.trans hother)
      rcases List.mem_append.mp hr with hr | hr
      · exact hwithin first hfirst r hr
      · rw [List.mem_singleton.mp hr, hrow]
        exact ⟨hafter, hbefore⟩
    · intro other hother
      exact .inl (hfirst.trans (hhead.symm.trans hother))

/-- What a message leaves of the book. -/
theorem observe_keeps (hwindow : 0 ≤ window) (events : List Value) (hopen : book.Open window ts)
    (hwithin : RowsWithin window book.rows) :
    RowsWithin window (book.observe codec update window ts events).1.rows ∧
      ((book.observe codec update window ts events).2 = true →
        (book.observe codec update window ts events).1.Open window ts) ∧
      ∀ first, (book.observe codec update window ts events).1.rows.head? = some first →
        book.rows.head? = some first ∨ first.observedTs = ts := by
  induction events generalizing book with
  | nil => exact ⟨hwithin, fun _ => hopen, fun _ h => .inl h⟩
  | cons event events ih =>
    unfold observe
    split
    · exact ih hopen hwithin
    · split
      · exact ⟨hwithin, fun h => absurd h Bool.false_ne_true, fun _ h => .inl h⟩
      · rename_i changed queues hupdate
        simp only
        split
        · rename_i up down _ _
          cases hrecord : recordRow codec update ts event up down with
          | none => exact ⟨hwithin, fun h => absurd h Bool.false_ne_true, fun _ h => .inl h⟩
          | some row =>
            have hrow : row.observedTs = ts := by
              unfold recordRow at hrecord
              obtain ⟨sourceTsMs, -, rfl⟩ := Option.map_eq_some_iff.mp hrecord
              rfl
            obtain ⟨hopen', hwithin', hfirst'⟩ := hopen.record hwindow hwithin queues hrow
            obtain ⟨hrows, hread, hfirst⟩ := ih hopen' hwithin'
            refine ⟨hrows, hread, fun first h => ?_⟩
            rcases hfirst first h with hold | hnew
            · exact hfirst' first hold
            · exact .inr hnew
        · exact ih hopen hwithin

end Book

namespace Probe

/-- The monitor still works on its market: it opens a connection, reads one, or
waits to open the next. -/
def Running (p : Probe) : Prop :=
  match p.phase with
  | .connecting | .watching _ _ _ | .sleeping _ => True
  | .closing _ | .done => False

/-- One opening window: every row within it, no connection opened after it, and
the monitor through when it is over. -/
structure OneWindow (window : ℚ) (p : Probe) : Prop where
  recorded : RowsWithin window p.book.rows
  stops : ∀ first, p.book.rows.head? = some first → p.Running →
    p.now ≤ first.observedTs + window
  connects : ∀ first, p.book.rows.head? = some first → ∀ ts ∈ p.connects,
    ts ≤ first.observedTs + window

/-- No connection is to be replaced once a row is recorded: one that is lost
after it is lost for good, the book's own deadline being past. -/
def keepsWindow (p : Probe) : ProbeEvent → Prop
  | .closed ts => p.phase = .closing .lost → p.book.rows ≠ [] → p.bookDeadline ≤ ts
  | _ => True

instance keepsWindow.instDecidable (p : Probe) : ∀ e, Decidable (p.keepsWindow e)
  | .closed ts => inferInstanceAs
      (Decidable (p.phase = .closing .lost → p.book.rows ≠ [] → p.bookDeadline ≤ ts))
  | .opened _ | .refused _ _ | .received _ _ | .quiet | .dropped _ _ | .woke => .isTrue trivial

/-- What holds wherever the monitor is. -/
structure Steady (window : ℚ) (p : Probe) : Prop where
  positive : 0 < p.now
  begun : ∀ ts ∈ p.connects, ts ≤ p.now
  within : RowsWithin window p.book.rows
  early : ∀ first, p.book.rows.head? = some first → ∀ ts ∈ p.connects, ts ≤ first.observedTs

/-- What holds where it is: no connection is opened or waited for once there is
a row, and the one that is read is read until the window's end. -/
def At (window : ℚ) (p : Probe) : Prop :=
  match p.phase with
  | .connecting => p.book.rows = [] ∧ p.openingDeadline = none
  | .sleeping wakes => p.book.rows = [] ∧ p.openingDeadline = none ∧ p.now ≤ wakes
  | .watching _ _ limit => p.book.Open window p.now ∧ p.openingDeadline = none ∧ p.now ≤ limit ∧
      ∀ ts, p.book.openingDeadline = some ts → limit ≤ ts
  | .closing _ => p.openingDeadline = none
  | .done => True

/-- What holds at every step of a monitor that keeps its window. -/
structure Sound (window : ℚ) (p : Probe) : Prop where
  steady : p.Steady window
  phase : p.At window

variable {codec : Codec} {update : ActivationUpdate} {window : ℚ} {p : Probe}

theorem Sound.oneWindow (hwindow : 0 ≤ window) (h : p.Sound window) : p.OneWindow window where
  recorded := h.steady.within
  stops first hfirst hrunning := by
    have hat := h.phase
    unfold At at hat
    unfold Running at hrunning
    cases hphase : p.phase with
    | watching connectedAt lastMessageAt limit =>
      rw [hphase] at hat
      rcases hat.1 with ⟨hrows, -⟩ | ⟨first', hfirst', -, -, hopen⟩
      · rw [hrows] at hfirst
        cases hfirst
      · obtain rfl := Option.some.inj (hfirst.symm.trans hfirst')
        exact hopen
    | connecting | sleeping wakes =>
      rw [hphase] at hat
      rw [show p.book.rows = [] from hat.1] at hfirst
      cases hfirst
    | closing leaving | done =>
      rw [hphase] at hrunning
      exact hrunning.elim
  connects first hfirst ts hts := by
    have hearly := h.steady.early first hfirst ts hts
    linarith

theorem Steady.later (h : p.Steady window) {ts : ℚ} (hts : p.now ≤ ts) :
    Steady window { p with now := ts } where
  positive := lt_of_lt_of_le h.positive hts
  begun a ha := (h.begun a ha).trans hts
  within := h.within
  early := h.early

/-- The open window's end is never the zero that counts as none. -/
theorem deadline_of_open (hsteady : p.Steady window) (hopen : p.book.Open window p.now) {ts : ℚ}
    (hts : p.book.openingDeadline = some ts) : p.deadline = ts := by
  rcases hopen with ⟨-, hnone⟩ | ⟨first, -, hdeadline, -, hbefore⟩
  · rw [hnone] at hts
    cases hts
  · obtain rfl := Option.some.inj (hdeadline.symm.trans hts)
    have hpositive := hsteady.positive
    unfold deadline
    rw [hdeadline]
    exact if_neg (by linarith)

theorem look_sound (hsteady : p.Steady window) (hunset : p.openingDeadline = none)
    (hopen : p.book.Open window p.now) (connectedAt lastMessageAt : ℚ) :
    (p.look connectedAt lastMessageAt).Sound window := by
  have hends : ∀ ts, p.book.openingDeadline = some ts → p.deadline = ts :=
    fun _ => deadline_of_open hsteady hopen
  unfold look
  split
  · exact ⟨⟨hsteady.positive, hsteady.begun, hsteady.within, hsteady.early⟩, hunset⟩
  · rename_i hleft
    split
    · rename_i ts hts
      refine ⟨⟨hsteady.positive, hsteady.begun, hsteady.within, hsteady.early⟩,
        hopen, hunset, ?_, ?_⟩
      · linarith
      · intro ts' hts'
        exact (hends ts' hts').le
    · rename_i hnone
      simp only
      split
      · exact ⟨⟨hsteady.positive, hsteady.begun, hsteady.within, hsteady.early⟩, hunset⟩
      · rename_i hlimits
        rw [not_or] at hlimits
        refine ⟨⟨hsteady.positive, hsteady.begun, hsteady.within, hsteady.early⟩,
          hopen, hunset, ?_, fun ts hts => absurd (hnone.symm.trans hts) (by simp)⟩
        have hpositive : 0 ≤ min (p.deadline - p.now) (min (lastMessageAt + silenceSeconds - p.now)
            (connectedAt + resubscribeSeconds - p.now)) :=
          le_min (by linarith) (le_min (by linarith [hlimits.1]) (by linarith [hlimits.2]))
        linarith

/-- A later clock within the wait leaves an open window open. -/
theorem open_later (hopen : p.book.Open window p.now) {limit ts : ℚ}
    (hlimit : ∀ ts, p.book.openingDeadline = some ts → limit ≤ ts) (hafter : p.now ≤ ts)
    (hbefore : ts ≤ limit) : p.book.Open window ts := by
  rcases hopen with hnone | ⟨first, hfirst, hdeadline, hopened, -⟩
  · exact .inl hnone
  · refine .inr ⟨first, hfirst, hdeadline, hopened.trans hafter, hbefore.trans ?_⟩
    exact hlimit _ hdeadline

theorem receive_sound (hwindow : 0 ≤ window) {ts : ℚ} (hsteady : p.Steady window)
    (hunset : p.openingDeadline = none) (hopen : p.book.Open window ts) (hts : p.now ≤ ts)
    (raw : String) (connectedAt : ℚ) :
    (p.receive codec update window ts raw connectedAt).Sound window := by
  have hlater := hsteady.later hts
  unfold receive
  simp only
  split
  · exact look_sound hlater hunset hopen connectedAt ts
  · split
    · exact ⟨⟨hlater.positive, hlater.begun, hlater.within, hlater.early⟩, hunset⟩
    · rename_i payload hpayload
      obtain ⟨hrows, hread, hfirst⟩ :=
        Book.observe_keeps hwindow (eventsOf payload) hopen
          hsteady.within
      have hearly : ∀ first,
          (p.book.observe codec update window ts (eventsOf payload)).1.rows.head? = some first →
            ∀ a ∈ p.connects, a ≤ first.observedTs := by
        intro first h a ha
        rcases hfirst first h with hold | hnew
        · exact hsteady.early first hold a ha
        · rw [hnew]
          exact (hsteady.begun a ha).trans hts
      split
      · rename_i hok
        exact look_sound (p := { p with
            now := ts
            book := (p.book.observe codec update window ts (eventsOf payload)).1 })
          ⟨hlater.positive, hlater.begun, hrows, hearly⟩ hunset (hread hok) connectedAt ts
      · exact ⟨⟨hlater.positive, hlater.begun, hrows, hearly⟩, hunset⟩

theorem next_sound (hwindow : 0 ≤ window) (h : p.Sound window) {e : ProbeEvent}
    (hkeeps : p.keepsWindow e) : (p.next codec update window e).Sound window := by
  have hsteady := h.steady
  have hat := h.phase
  unfold At at hat
  unfold next
  split
  · -- opened
    rename_i ts hphase
    rw [hphase] at hat
    split
    · rename_i hts
      have hlater := hsteady.later hts
      exact look_sound (p := { p with
          now := ts
          book := { p.book with openingDeadline := p.openingDeadline } })
        ⟨hlater.positive, hlater.begun, hlater.within, hlater.early⟩ hat.2
        (.inl ⟨hat.1, hat.2⟩) ts ts
    · exact h
  · -- refused
    rename_i ts handled hphase
    rw [hphase] at hat
    split
    · rename_i hts
      have hlater := hsteady.later hts
      exact ⟨⟨hlater.positive, hlater.begun, hlater.within, hlater.early⟩, hat.2⟩
    · exact h
  · -- received
    rename_i ts raw connectedAt lastMessageAt limit hphase
    rw [hphase] at hat
    obtain ⟨hopen, hunset, -, hlimit⟩ := hat
    split
    · rename_i hts
      exact receive_sound hwindow hsteady hunset (open_later hopen hlimit hts.1 hts.2) hts.1 raw
        connectedAt
    · exact h
  · -- quiet
    rename_i connectedAt lastMessageAt limit hphase
    rw [hphase] at hat
    obtain ⟨hopen, hunset, -, hlimit⟩ := hat
    split
    · rename_i hts
      exact look_sound (hsteady.later hts) hunset (open_later hopen hlimit hts le_rfl) connectedAt
        lastMessageAt
    · exact h
  · -- dropped
    rename_i ts handled connectedAt lastMessageAt limit hphase
    rw [hphase] at hat
    split
    · rename_i hts
      have hlater := hsteady.later hts.1
      exact ⟨⟨hlater.positive, hlater.begun, hlater.within, hlater.early⟩, hat.2.1⟩
    · exact h
  · -- closed: only a lost connection without rows is replaced
    rename_i ts leaving hphase
    rw [hphase] at hat
    split
    · rename_i hts
      have hlater := hsteady.later hts
      unfold leaveConnection
      cases leaving with
      | returned => exact ⟨⟨hlater.positive, hlater.begun, hlater.within, hlater.early⟩, trivial⟩
      | raised => exact ⟨⟨hlater.positive, hlater.begun, hlater.within, hlater.early⟩, trivial⟩
      | lost =>
        simp only
        split
        · exact ⟨⟨hlater.positive, hlater.begun, hlater.within, hlater.early⟩, trivial⟩
        · rename_i hremaining
          have hrows : p.book.rows = [] := by
            by_contra hrows
            have hpast := hkeeps hphase hrows
            linarith
          have hdelay : 0 ≤ min reconnectDelaySeconds (max 0 (p.bookDeadline - ts)) :=
            le_min (by norm_num [reconnectDelaySeconds]) (le_max_left _ _)
          exact ⟨⟨hlater.positive, hlater.begun, hlater.within, hlater.early⟩, hrows, hat,
            le_add_of_nonneg_right hdelay⟩
    · exact h
  · -- woke
    rename_i wakes hphase
    rw [hphase] at hat
    obtain ⟨hrows, hunset, hwakes⟩ := hat
    have hlater := hsteady.later hwakes
    refine ⟨⟨hlater.positive, ?_, hlater.within, ?_⟩, hrows, hunset⟩
    · intro ts hts
      rcases List.mem_append.mp hts with hold | hnew
      · exact hlater.begun ts hold
      · exact (List.mem_singleton.mp hnew).le
    · intro first hfirst
      rw [show p.book.rows = [] from hrows] at hfirst
      cases hfirst
  · exact h

/-- Of a monitor that replaces no connection once a row is recorded, every state
reached keeps to one opening window. -/
theorem one_window (hwindow : 0 ≤ window) {startTs : ℚ} (hstart : 0 < startTs)
    {events : List ProbeEvent}
    (hkeeps : Meets keepsWindow (next codec update window) (start startTs) events) :
    (events.foldl (next codec update window) (start startTs)).OneWindow window := by
  have hsound : (start startTs).Sound window := by
    refine ⟨⟨hstart, ?_, ?_, ?_⟩, rfl, rfl⟩
    · intro ts hts
      exact (List.mem_singleton.mp hts).le
    · intro first hfirst
      cases hfirst
    · intro first hfirst
      cases hfirst
  have hstep : ∀ p q : Probe, Guarded keepsWindow (next codec update window) p q →
      p.Sound window → q.Sound window := by
    rintro p q ⟨e, hallowed, rfl⟩ hp
    exact next_sound hwindow hp hallowed
  have hreached := run_preserves (fun p => p.Sound window) hstep (run_of_meets hkeeps) hsound
  exact hreached.oneWindow hwindow

/-- A connection that is lost inside the window and replaced when the window is
over: the monitor opens another one all the same. -/
theorem lost_window_reconnects {ts : ℚ} (hphase : p.phase = .closing .lost) (hts : p.now ≤ ts)
    (hleft : ts < p.bookDeadline) {first : QueueRow} (hfirst : p.book.rows.head? = some first)
    (hover : first.observedTs + window <
      ts + min reconnectDelaySeconds (max 0 (p.bookDeadline - ts))) :
    ¬ OneWindow window ((p.next codec update window (.closed ts)).next codec update window .woke) := by
  have hremaining : ¬ p.bookDeadline - ts ≤ 0 := by linarith
  have hsleeps : p.next codec update window (.closed ts) = { p with
      now := ts
      phase := .sleeping (ts + min reconnectDelaySeconds (max 0 (p.bookDeadline - ts))) } := by
    simp only [next, hphase, if_pos hts, leaveConnection, if_neg hremaining]
  rw [hsleeps]
  intro h
  have hconnects := h.connects first hfirst _ (List.mem_append_right _ (List.mem_singleton_self _))
  linarith

end Probe

def bookText (token size : String) : String :=
  "\x7b\"event_type\":\"book\",\"asset_id\":\"" ++ token ++
    "\",\"timestamp\":\"1800000000000\",\"bids\":[\x7b\"price\":\"0.01\",\"size\":\"" ++ size ++
    "\"\x7d]\x7d"

def bookEvent (token size : String) : Value :=
  .object [("event_type", .string "book"), ("asset_id", .string token),
    ("timestamp", .string "1800000000000"),
    ("bids", .array [.object [("price", .string "0.01"), ("size", .string size)]])]

/-- `json.loads` on the messages of one opening. -/
def bookCodec : Codec where
  loads text :=
    (([("up-token", "300"), ("down-token", "91"), ("up-token", "500")].find? fun entry =>
      bookText entry.1 entry.2 = text).map fun entry => bookEvent entry.1 entry.2)
  repr _ := ""
  compact _ := ""

def opening : List ProbeEvent :=
  [.opened 100, .received 101 (bookText "up-token" "300"),
    .received 101 (bookText "down-token" "91")]

def openingUpdate : ActivationUpdate :=
  ⟨⟨"btc-updown-5m-1", "0xc", 1800000000, 1800000300, "up-token", "down-token", 5, 1 / 100⟩, 1, 2⟩

def quietOpening : List ProbeEvent :=
  opening.append [.received 102 (bookText "up-token" "500"), .quiet, .closed 103]

def lostOpening : List ProbeEvent :=
  opening.append [.dropped (203 / 2) true, .closed (203 / 2), .woke, .opened 107,
    .received 108 (bookText "up-token" "500")]

def openingProbe (events : List ProbeEvent) : Probe :=
  events.foldl (Probe.next bookCodec openingUpdate 2) (Probe.start 100)

theorem one_window_quiet : (openingProbe quietOpening).OneWindow 2 ∧
    (openingProbe quietOpening).phase = .done ∧
    (openingProbe quietOpening).book.rows.length = 2 := by
  refine ⟨Probe.one_window (by norm_num) (by norm_num) ?_, ?_⟩
  · decide +kernel
  · decide +kernel

/-- The second socket's row comes five seconds after the window is over, and
opens a window of its own. -/
theorem two_windows : ¬ (openingProbe lostOpening).OneWindow 2 ∧
    (openingProbe lostOpening).book.rows.map QueueRow.observedTs = [101, 108] ∧
    (openingProbe lostOpening).connects = [100, 213 / 2] ∧
    (openingProbe lostOpening).phase = .watching 107 108 110 := by
  have hrows : (openingProbe lostOpening).book.rows.map QueueRow.observedTs = [101, 108] := by
    decide +kernel
  refine ⟨fun h => ?_, hrows, by decide +kernel⟩
  obtain ⟨first, rest, hbook, hfirst, hrest⟩ := List.map_eq_cons_iff.mp hrows
  obtain ⟨last, rest, rfl, hlast, -⟩ := List.map_eq_cons_iff.mp hrest
  have hwithin := (h.recorded first (by rw [hbook]; rfl) last (by rw [hbook]; simp)).2
  rw [hfirst, hlast] at hwithin
  norm_num at hwithin

end EventQuant
