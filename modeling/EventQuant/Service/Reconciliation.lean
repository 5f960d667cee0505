import EventQuant.Library.Results
import EventQuant.Service.CancelIsolation
import EventQuant.Service.Adoption

/-!
The reconciliation worker: one read of everything the venue holds open, a
direct read of each tracked order that is not on it, and after a pause a second
one of those still missing. An order is retired on nothing less than both reads
of every account coming back without it.
-/
namespace EventQuant

open Program Store Python

/-- `_raw_order_id`. -/
def rawOrderId (codec : Codec) (raw : Value) : String :=
  if raw.isObject then (raw.firstOf ["id", "orderID", "orderId"] (.string "")).str codec else ""

/-- `{**raw, "account": name}`. -/
def withAccount (name : String) : Value → Except Exn Value
  | .object fields => .ok (.object (dict (fields ++ [("account", .string name)])))
  | _ => .error (.other "TypeError" "object is not a mapping")

/-- What the worker looks the orders up with: one account's exchange, or the
order view of a fleet. -/
inductive OrderView
  | exchange (account : String)
  | fleet (members : List String)

/-- What one round of the worker meets: the batch as each account answers it,
each account's answer to a direct read, in the first pass and in the second,
and where a stop finds the worker. `drainedTs` is the clock when the service
comes to the order. -/
structure RoundAnswers where
  batch : String → Except Exn (List Value)
  read : Bool → String → String → Except Exn Value
  stopInPause : Bool
  stopBefore : String → Bool
  drainedTs : String → ℤ

/-- What a round is asked, and what it meets. -/
structure Round where
  snapshots : List TrackedOrderSnapshot
  answers : RoundAnswers

namespace OrderView

def accounts : OrderView → List String
  | exchange account => [account]
  | fleet members => members

def memberRows (rows : String → Except Exn (List Value)) (name : String) :
    Except Exn (List Value) := do
  let rows ← rows name
  rows.mapM fun raw => if raw.isObject then withAccount name raw else .ok raw

/-- `open_orders`: one account that raises ends the read. -/
def openOrders (rows : String → Except Exn (List Value)) : OrderView → Except Exn (List Value)
  | exchange account => rows account
  | fleet members => (members.mapM (memberRows rows)).map List.flatten

/-- `FleetOrderView.get_order`, with the last error met so far. -/
def getFromMembers (codec : Codec) (orderId : String) (answer : String → Except Exn Value) :
    List String → Option Exn → Except Exn Value
  | [], none => .ok .null
  | [], some e => .error e
  | name :: members, last =>
    match answer name with
    | .error e => getFromMembers codec orderId answer members (some e)
    | .ok raw =>
      if rawOrderId codec raw = orderId then withAccount name raw
      else getFromMembers codec orderId answer members last

/-- `get_order`. -/
def getOrder (codec : Codec) (orderId : String) (answer : String → Except Exn Value) :
    OrderView → Except Exn Value
  | exchange account => answer account
  | fleet members => getFromMembers codec orderId answer members none

end OrderView

namespace Service

variable (s : Service)

/-- `self._order_view()`. -/
def orderView : OrderView :=
  match s.fleet with
  | none => .exchange s.solo.account
  | some f => .fleet (f.members.map FleetMember.name)

/-- `submit`: the tracked orders a live run really sent. -/
def snapshotsOf (rows : List (OrderRow × MarketRow)) : List TrackedOrderSnapshot :=
  (rows.filter fun row => row.1.status ≠ "simulated").map fun row =>
    ⟨row.1.orderId, row.1.slug, row.1.size⟩

def retiredRaw (orderId : String) : Value :=
  .object [("id", .string orderId), ("status", .string "terminal_unknown"),
    ("size_matched", .string "0")]

/-- `open_by_id`: the ids an open order is found under, the last row of an id
standing for it. -/
def openById (openRows : List Value) (orderId : String) : Option Value :=
  openRows.reverse.find? fun raw =>
    let named := raw.firstOf ["id", "orderID", "orderId"] .null
    named.truthy && decide (named.str s.codec = orderId)

variable (answers : RoundAnswers)

def lookUp (orderId : String) (raw : Option Value) (retireIfMissing : Bool) : Except Exn Value :=
  match raw with
  | some raw => .ok raw
  | none => s.orderView.getOrder s.codec orderId (answers.read retireIfMissing orderId)

/-- `_resolve`: none for an order the venue does not know and that is not to be
retired on that. -/
def resolve (snapshot : TrackedOrderSnapshot) (raw : Option Value) (retireIfMissing : Bool) :
    Option ReconciledOrder :=
  match s.lookUp answers snapshot.orderId raw retireIfMissing with
  | .error e => some ⟨snapshot, none, some e.text, answers.drainedTs snapshot.orderId⟩
  | .ok .null =>
    if retireIfMissing then
      some ⟨snapshot, some (retiredRaw snapshot.orderId), none, answers.drainedTs snapshot.orderId⟩
    else none
  | .ok raw =>
    if raw.isObject then some ⟨snapshot, some raw, none, answers.drainedTs snapshot.orderId⟩
    else some ⟨snapshot, none, some "ValueError: exchange returned no order payload",
      answers.drainedTs snapshot.orderId⟩

def firstPass (openRows : List Value) (snapshots : List TrackedOrderSnapshot) :
    List ReconciledOrder :=
  snapshots.filterMap fun snapshot =>
    s.resolve answers snapshot (s.openById openRows snapshot.orderId) false

def missing (openRows : List Value) (snapshots : List TrackedOrderSnapshot) :
    List TrackedOrderSnapshot :=
  snapshots.filter fun snapshot =>
    (s.resolve answers snapshot (s.openById openRows snapshot.orderId) false).isNone

/-- The second look, up to where a stop finds it. -/
def secondPass (missing : List TrackedOrderSnapshot) : List ReconciledOrder :=
  if answers.stopInPause then []
  else (missing.takeWhile fun snapshot => !answers.stopBefore snapshot.orderId).filterMap
    fun snapshot => s.resolve answers snapshot none true

/-- `_fetch`. -/
def fetch (snapshots : List TrackedOrderSnapshot) : ReconciliationUpdate :=
  match s.orderView.openOrders answers.batch with
  | .error e => ⟨[], some e.text, []⟩
  | .ok rows =>
    let openRows := rows.filter Value.isObject
    { orders := s.firstPass answers openRows snapshots ++
        s.secondPass answers (s.missing answers openRows snapshots)
      batchError := none
      openRows := openRows }

def Names (codec : Codec) (raw : Value) (orderId : String) : Prop :=
  let named := raw.firstOf ["id", "orderID", "orderId"] .null
  raw.isObject = true ∧ named.truthy = true ∧ named.str codec = orderId

/-- What an order is retired on: it was not in the batch, every account answered
both direct reads without it, and no stop was met before the second. -/
structure Missing (orderId : String) : Prop where
  batch : ∃ rows, s.orderView.openOrders answers.batch = .ok rows ∧
    ∀ raw ∈ rows, ¬ Names s.codec raw orderId
  reads : ∀ second, ∀ account ∈ s.orderView.accounts, ∃ raw,
    answers.read second orderId account = .ok raw ∧ ¬ Names s.codec raw orderId
  running : answers.stopInPause = false ∧ answers.stopBefore orderId = false

def Reported (orderId : String) (raw : Value) : Prop :=
  (∃ rows, s.orderView.openOrders answers.batch = .ok rows ∧ raw ∈ rows ∧
    Names s.codec raw orderId) ∨
  ∃ second, s.orderView.getOrder s.codec orderId (answers.read second orderId) = .ok raw

section Reads

variable {s answers}

/-- A field that counts as true is found whatever the default. -/
theorem firstOf_of_truthy {raw : Value} {fields : List String}
    (h : (raw.firstOf fields .null).truthy = true) (default : Value) :
    raw.firstOf fields default = raw.firstOf fields .null := by
  induction fields with
  | nil => exact nomatch h
  | cons field fields ih =>
    unfold Value.firstOf at h ih ⊢
    simp only [List.foldr_cons, Value.or] at h ⊢
    by_cases hfield : (raw.get field).truthy = true
    · rw [if_pos hfield, if_pos hfield]
    · rw [if_neg hfield] at h ⊢
      rw [if_neg hfield]
      exact ih h

theorem not_names {codec : Codec} {raw : Value} {orderId : String}
    (h : rawOrderId codec raw ≠ orderId) : ¬ Names codec raw orderId := by
  rintro ⟨hobject, htruthy, hstr⟩
  apply h
  rw [rawOrderId, if_pos hobject, firstOf_of_truthy htruthy]
  exact hstr

/-- An error met is carried to the end: the read does not come back empty. -/
theorem getFromMembers_some {codec : Codec} {orderId : String} {answer : String → Except Exn Value}
    {members : List String} {e : Exn} :
    OrderView.getFromMembers codec orderId answer members (some e) ≠ .ok .null := by
  induction members generalizing e with
  | nil => exact nofun
  | cons name members ih =>
    unfold OrderView.getFromMembers
    cases answer name with
    | error e' => exact ih
    | ok raw =>
      simp only
      split
      · cases raw <;> exact nofun
      · exact ih

/-- A fleet's read that comes back empty was answered by every member, by each
without the order. -/
theorem getFromMembers_null {codec : Codec} {orderId : String} {answer : String → Except Exn Value}
    {members : List String} {last : Option Exn}
    (h : OrderView.getFromMembers codec orderId answer members last = .ok .null) :
    ∀ name ∈ members, ∃ raw, answer name = .ok raw ∧ ¬ Names codec raw orderId := by
  induction members generalizing last with
  | nil => exact fun name hname => absurd hname List.not_mem_nil
  | cons name members ih =>
    unfold OrderView.getFromMembers at h
    cases hanswer : answer name with
    | error e =>
      rw [hanswer] at h
      exact absurd h getFromMembers_some
    | ok raw =>
      rw [hanswer] at h
      simp only at h
      split at h
      · cases raw <;> exact nomatch h
      · rename_i hother
        intro other hmem
        rcases List.mem_cons.mp hmem with rfl | hmem
        · exact ⟨raw, hanswer, not_names hother⟩
        · exact ih h other hmem

theorem getOrder_null {view : OrderView} {codec : Codec} {orderId : String}
    {answer : String → Except Exn Value} (h : view.getOrder codec orderId answer = .ok .null) :
    ∀ name ∈ view.accounts, ∃ raw, answer name = .ok raw ∧ ¬ Names codec raw orderId := by
  cases view with
  | fleet members => exact getFromMembers_null h
  | exchange account =>
    intro name hname
    obtain rfl : name = account := List.mem_singleton.mp hname
    exact ⟨.null, h, fun hnames => nomatch hnames.1⟩

/-- An order that no row of the batch is found under is on none of them. -/
theorem openById_none {openRows : List Value} {orderId : String}
    (h : s.openById openRows orderId = none) : ∀ raw ∈ openRows, ¬ Names s.codec raw orderId := by
  rintro raw hraw ⟨-, htruthy, hstr⟩
  have hfound := List.find?_eq_none.mp h raw (List.mem_reverse.mpr hraw)
  simp [htruthy, hstr] at hfound

theorem openById_some {openRows : List Value} {orderId : String} {raw : Value}
    (h : s.openById openRows orderId = some raw) (hobjects : ∀ raw ∈ openRows, raw.isObject = true) :
    raw ∈ openRows ∧ Names s.codec raw orderId := by
  have hmem : raw ∈ openRows := List.mem_reverse.mp (List.mem_of_find?_eq_some h)
  have hfound := List.find?_some h
  simp only [Bool.and_eq_true, decide_eq_true_eq] at hfound
  exact ⟨hmem, hobjects raw hmem, hfound.1, hfound.2⟩

theorem resolve_snapshot {snapshot : TrackedOrderSnapshot} {raw : Option Value} {retire : Bool}
    {r : ReconciledOrder} (h : s.resolve answers snapshot raw retire = some r) :
    r.snapshot = snapshot := by
  unfold resolve at h
  split at h
  · exact Option.some.inj h ▸ rfl
  · split at h
    · exact Option.some.inj h ▸ rfl
    · exact nomatch h
  · split at h <;> exact Option.some.inj h ▸ rfl

/-- A look that is to retire what it does not find always comes to a result. -/
theorem resolve_retire_isSome (snapshot : TrackedOrderSnapshot) (raw : Option Value) :
    (s.resolve answers snapshot raw true).isSome = true := by
  unfold resolve
  split
  · rfl
  · rfl
  · split <;> rfl

/-- An order the first look leaves open is not in the batch, and a direct read
of it came back empty. -/
theorem resolve_none {snapshot : TrackedOrderSnapshot} {raw : Option Value}
    (h : s.resolve answers snapshot raw false = none) (hraw : ∀ v ∈ raw, v.isObject = true) :
    raw = none ∧ s.orderView.getOrder s.codec snapshot.orderId
      (answers.read false snapshot.orderId) = .ok .null := by
  unfold resolve at h
  split at h
  · exact nomatch h
  · rename_i hnull
    cases raw with
    | none => exact ⟨rfl, hnull⟩
    | some v =>
      have hobject := hraw v rfl
      obtain rfl : v = .null := Except.ok.inj hnull
      exact nomatch hobject
  · split at h <;> exact nomatch h

/-- What a look reports an order as: a payload the venue gave, or the retirement
of one it did not know. -/
theorem resolve_raw {snapshot : TrackedOrderSnapshot} {raw : Option Value} {retire : Bool}
    {r : ReconciledOrder} {payload : Value} (h : s.resolve answers snapshot raw retire = some r)
    (hpayload : r.raw = some payload) :
    s.lookUp answers snapshot.orderId raw retire = .ok payload ∨
      (retire = true ∧ payload = retiredRaw snapshot.orderId ∧
        s.lookUp answers snapshot.orderId raw retire = .ok .null) := by
  unfold resolve at h
  split at h
  · obtain rfl := Option.some.inj h
    exact nomatch hpayload
  · rename_i hnull
    split at h
    · rename_i hretire
      obtain rfl := Option.some.inj h
      exact .inr ⟨hretire, (Option.some.inj hpayload).symm, hnull⟩
    · exact nomatch h
  · rename_i found _ hfound
    split at h
    · obtain rfl := Option.some.inj h
      exact .inl (Option.some.inj hpayload ▸ hfound)
    · obtain rfl := Option.some.inj h
      exact nomatch hpayload

variable {openRows rows : List Value} {snapshots : List TrackedOrderSnapshot}

/-- What an order was settled with at the first look came from the venue. -/
theorem firstPass_reported (hrows : s.orderView.openOrders answers.batch = .ok rows)
    {r : ReconciledOrder} {payload : Value}
    (hr : r ∈ s.firstPass answers (rows.filter Value.isObject) snapshots)
    (hpayload : r.raw = some payload) :
    s.Reported answers r.snapshot.orderId payload := by
  obtain ⟨snapshot, -, hresolve⟩ := List.mem_filterMap.mp hr
  rw [resolve_snapshot hresolve]
  obtain hfound | ⟨hretire, -⟩ := resolve_raw hresolve hpayload
  · cases hopen : s.openById (rows.filter Value.isObject) snapshot.orderId with
    | none =>
      rw [hopen] at hfound
      exact .inr ⟨false, hfound⟩
    | some raw =>
      rw [hopen] at hfound
      obtain rfl : raw = payload := Except.ok.inj hfound
      obtain ⟨hmem, hnames⟩ := openById_some hopen fun raw hraw => (List.mem_filter.mp hraw).2
      exact .inl ⟨rows, hrows, (List.mem_filter.mp hmem).1, hnames⟩
  · exact nomatch hretire

theorem missing_reads {snapshot : TrackedOrderSnapshot}
    (h : snapshot ∈ s.missing answers (rows.filter Value.isObject) snapshots) :
    (∀ raw ∈ rows, ¬ Names s.codec raw snapshot.orderId) ∧
      s.orderView.getOrder s.codec snapshot.orderId (answers.read false snapshot.orderId) =
        .ok .null := by
  have hnone := Option.isNone_iff_eq_none.mp (List.mem_filter.mp h).2
  obtain ⟨hopen, hread⟩ := resolve_none hnone fun raw hraw =>
    (List.mem_filter.mp (openById_some (Option.mem_def.mp hraw) fun raw hraw =>
      (List.mem_filter.mp hraw).2).1).2
  refine ⟨fun raw hraw hnames => ?_, hread⟩
  exact openById_none hopen raw (List.mem_filter.mpr ⟨hraw, hnames.1⟩) hnames

/-- A second look was at an order the first left open, with no stop before it. -/
theorem mem_secondPass {missing : List TrackedOrderSnapshot} {r : ReconciledOrder}
    (hr : r ∈ s.secondPass answers missing) : r.snapshot ∈ missing ∧
      s.resolve answers r.snapshot none true = some r ∧
      answers.stopInPause = false ∧ answers.stopBefore r.snapshot.orderId = false := by
  unfold secondPass at hr
  split at hr
  · exact absurd hr List.not_mem_nil
  · rename_i hpause
    obtain ⟨snapshot, hsnapshot, hresolve⟩ := List.mem_filterMap.mp hr
    have hrunning := List.mem_takeWhile_imp
      (p := fun snapshot : TrackedOrderSnapshot => !answers.stopBefore snapshot.orderId) hsnapshot
    rw [resolve_snapshot hresolve]
    exact ⟨(List.takeWhile_sublist _).subset hsnapshot, hresolve, by simpa using hpause,
      by simpa using hrunning⟩

/-- Each result of a round is a look at an order it was asked about. -/
theorem mem_fetch {r : ReconciledOrder} (hr : r ∈ (s.fetch answers snapshots).orders) :
    r.snapshot ∈ snapshots ∧ ∃ raw retire, s.resolve answers r.snapshot raw retire = some r := by
  unfold fetch at hr
  split at hr
  · exact absurd hr List.not_mem_nil
  · rcases List.mem_append.mp hr with hr | hr
    · obtain ⟨snapshot, hsnapshot, hresolve⟩ := List.mem_filterMap.mp hr
      rw [resolve_snapshot hresolve]
      exact ⟨hsnapshot, _, _, hresolve⟩
    · obtain ⟨hmissing, hresolve, -, -⟩ := mem_secondPass hr
      exact ⟨(List.mem_filter.mp hmissing).1, _, _, hresolve⟩

theorem secondPass_retires (hrows : s.orderView.openOrders answers.batch = .ok rows)
    {r : ReconciledOrder} {payload : Value}
    (hr : r ∈ s.secondPass answers (s.missing answers (rows.filter Value.isObject) snapshots))
    (hpayload : r.raw = some payload) :
    s.Reported answers r.snapshot.orderId payload ∨
      (payload = retiredRaw r.snapshot.orderId ∧ s.Missing answers r.snapshot.orderId) := by
  obtain ⟨hmissing, hresolve, hpause, hrunning⟩ := mem_secondPass hr
  obtain ⟨hbatch, hfirst⟩ := missing_reads hmissing
  obtain hfound | ⟨-, hretired, hsecond⟩ := resolve_raw hresolve hpayload
  · exact .inl (.inr ⟨true, hfound⟩)
  · refine .inr ⟨hretired, ⟨rows, hrows, hbatch⟩, ?_, hpause, hrunning⟩
    intro second
    cases second with
    | false => exact getOrder_null hfirst
    | true => exact getOrder_null hsecond

/-- Every payload a round hands over is the venue's own, or the retirement of an
order it was missing. -/
theorem fetch_retires {r : ReconciledOrder} {payload : Value}
    (hr : r ∈ (s.fetch answers snapshots).orders) (hpayload : r.raw = some payload) :
    s.Reported answers r.snapshot.orderId payload ∨
      (payload = retiredRaw r.snapshot.orderId ∧ s.Missing answers r.snapshot.orderId) := by
  unfold fetch at hr
  split at hr
  · exact absurd hr List.not_mem_nil
  · rename_i rows hrows
    rcases List.mem_append.mp hr with hr | hr
    · exact .inl (firstPass_reported hrows hr hpayload)
    · exact secondPass_retires hrows hr hpayload

/-- The first look comes to a result for each order it does not leave open, and
the second for each of those. -/
theorem firstPass_snapshots (openRows : List Value) (snapshots : List TrackedOrderSnapshot) :
    (s.firstPass answers openRows snapshots).map ReconciledOrder.snapshot =
      snapshots.filter fun snapshot =>
        (s.resolve answers snapshot (s.openById openRows snapshot.orderId) false).isSome := by
  unfold firstPass
  induction snapshots with
  | nil => rfl
  | cons snapshot snapshots ih =>
    cases hresolve : s.resolve answers snapshot (s.openById openRows snapshot.orderId) false with
    | none => simpa [hresolve] using ih
    | some r => simpa [hresolve, resolve_snapshot hresolve] using ih

theorem secondPass_snapshots {missing : List TrackedOrderSnapshot}
    (hpause : answers.stopInPause = false)
    (hrunning : ∀ snapshot ∈ missing, answers.stopBefore snapshot.orderId = false) :
    (s.secondPass answers missing).map ReconciledOrder.snapshot = missing := by
  have hall : (missing.takeWhile fun snapshot => !answers.stopBefore snapshot.orderId) = missing := by
    apply List.takeWhile_eq_self_iff.mpr
    intro snapshot hsnapshot
    simp [hrunning snapshot hsnapshot]
  rw [secondPass, if_neg (by simp [hpause]), hall]
  clear hall hrunning
  induction missing with
  | nil => rfl
  | cons snapshot missing ih =>
    have hsome : (s.resolve answers snapshot none true).isSome = true :=
      resolve_retire_isSome snapshot none
    obtain ⟨r, hr⟩ := Option.isSome_iff_exists.mp hsome
    simpa [hr, resolve_snapshot hr] using ih

/-- A round that reads the batch and meets no stop comes to one result for each
order it was given. -/
theorem fetch_settles_each (hrows : s.orderView.openOrders answers.batch = .ok rows)
    (hpause : answers.stopInPause = false)
    (hrunning : ∀ orderId, answers.stopBefore orderId = false) :
    ((s.fetch answers snapshots).orders.map ReconciledOrder.snapshot).Perm snapshots := by
  have hstops : ∀ snapshot ∈ s.missing answers (rows.filter Value.isObject) snapshots,
      answers.stopBefore snapshot.orderId = false := fun snapshot _ => hrunning snapshot.orderId
  have hsecond := secondPass_snapshots (s := s) hpause hstops
  rw [fetch, hrows]
  simp only
  rw [List.map_append, firstPass_snapshots, hsecond, missing]
  simp only [← Option.not_isSome]
  exact List.filter_append_perm _ snapshots

end Reads

end Service

def Effect.Retires (b : Bot) (orderId : String) (row : OrderRow) (e : Effect) : Prop :=
  b.database.order orderId = some row ∧ row.status ∉ terminalStates ∧
    ∃ row', (apply b e).database.order orderId = some row' ∧ row'.status = "terminal_unknown"

/-- A report retires the order it is about, by its own status. -/
theorem Effect.Retires.of_report {b : Bot} {orderId reported status : String} {row : OrderRow}
    {matched : ℚ} (h : (Effect.write (.updateOrder reported status matched)).Retires b orderId row) :
    orderId = reported ∧ status = "terminal_unknown" := by
  obtain ⟨hrow, hopen, row', hrow', hstatus⟩ := h
  change (b.database.apply _).order orderId = _ at hrow'
  simp only [Database.apply, Database.order_updateOrders, hrow, Option.map_some,
    List.mem_singleton] at hrow'
  by_cases hid : orderId = reported
  · rw [if_pos hid, Option.some.injEq] at hrow'
    exact ⟨hid, by rw [← hstatus, ← hrow']⟩
  · rw [if_neg hid, Option.some.injEq] at hrow'
    subst hrow'
    exact absurd (hstatus ▸ by decide) hopen

/-- Writing an open order down retires none. -/
theorem Effect.not_retires_addOrder {b : Bot} {orderId slug : String} {row : OrderRow} {now : ℤ}
    {order : PlacedOrder} (horder : order.status ∉ terminalStates) :
    ¬ (Effect.write (.addOrder now slug order)).Retires b orderId row := by
  rintro ⟨hrow, hopen, row', hrow', hstatus⟩
  change (b.database.apply _).order orderId = _ at hrow'
  rw [Database.order_put] at hrow'
  split at hrow'
  · obtain rfl := Option.some.inj hrow'
    have hstatus : order.status = "terminal_unknown" := hstatus
    exact horder (hstatus ▸ by decide)
  · rw [hrow, Option.some.injEq] at hrow'
    subst hrow'
    exact hopen (hstatus ▸ by decide)

namespace Service

variable {s : Service}

/-- The row a reconciled order retires is its own, is past the grace, and was
reported as unknown. -/
theorem drainReconciledOrder_retires (result : ReconciledOrder) (b : Bot) :
    Each (fun b' e => ∀ orderId row, Effect.Retires b' orderId row e →
        orderId = result.snapshot.orderId ∧
        freshOrderGraceSeconds ≤ result.drainedTs - row.createdTs ∧
        ∃ raw, result.raw = some raw ∧ normalizeStatus (statusText s.codec raw) = "terminal_unknown")
      b ((s.drainReconciledOrder result).commits b) := by
  unfold drainReconciledOrder Action.query
  refine each_andThen trivial fun row hrow => ?_
  simp only [result_read, Except.ok.injEq] at hrow
  simp only [after_read]
  split
  · rename_i row raw _ hraw
    apply each_andThen
    · rw [commits_answer]
      trivial
    intro reported hreported
    simp only [after_answer]
    split
    · trivial
    · rename_i hgrace
      refine each_andThen (by rw [commits_answer]; trivial) fun matched _ => ?_
      simp only [after_answer]
      refine each_andThen ⟨fun orderId row' hretires => ?_, trivial⟩ fun _ _ => trivial
      obtain ⟨rfl, hstatus⟩ := hretires.of_report
      obtain rfl : row' = row := Option.some.inj (hretires.1.symm.trans hrow)
      have hopen := hretires.2.1
      have hnormalized : normalizeOrder s.codec raw = .ok reported := by
        cases hnormalize : normalizeOrder s.codec raw with
        | error failure => simp [hnormalize, Except.mapError] at hreported
        | ok p => simpa [hnormalize, Except.mapError] using hreported
      have hunknown : reported.1 = "terminal_unknown" := by
        unfold reconciledStatus at hstatus
        simp only [hopen, false_and, if_false] at hstatus
        split at hstatus
        · exact absurd hstatus (by decide)
        · exact hstatus
      refine ⟨rfl, ?_, raw, hraw, ?_⟩
      · by_contra hfresh
        exact hgrace ⟨hunknown, hopen, not_le.mp hfresh⟩
      · rw [← hunknown, normalizeOrder_status hnormalized]
  · trivial

theorem adoptOpenOrder_retires_none (nowTs : ℤ) (raw : Value) (b : Bot) :
    Each (fun b' e => ∀ orderId row, ¬ Effect.Retires b' orderId row e)
      b ((s.adoptOpenOrder nowTs raw).commits b) := by
  unfold adoptOpenOrder Action.query
  refine each_handle ?_ fun _ _ => trivial
  refine each_andThen trivial fun found hfound => each_andThen trivial fun order horder => ?_
  simp only [result_read, Except.ok.injEq] at hfound
  simp only [result_answer] at horder
  split
  · trivial
  · rename_i slug order
    obtain ⟨market, -, hadopted⟩ := adoptable_some (hfound.trans horder)
    refine each_andThen ?_ fun _ _ => trivial
    unfold Action.addOrder Action.query
    refine each_andThen trivial fun known _ => ?_
    split
    · exact ⟨fun _ _ => Effect.not_retires_addOrder hadopted.opened, trivial⟩
    · trivial

/-- What an order of the round is retired on: it is past the grace when the
service comes to it, and the venue was missing it or itself reported it so. -/
structure RetiredOn (s : Service) (round : Round) (orderId : String) (row : OrderRow) : Prop where
  asked : ∃ snapshot ∈ round.snapshots, snapshot.orderId = orderId
  grace : freshOrderGraceSeconds ≤ round.answers.drainedTs orderId - row.createdTs
  found : s.Missing round.answers orderId ∨ ∃ raw, s.Reported round.answers orderId raw ∧
    normalizeStatus (statusText s.codec raw) = "terminal_unknown"

theorem resolve_drainedTs {answers : RoundAnswers} {snapshot : TrackedOrderSnapshot}
    {raw : Option Value} {retire : Bool} {r : ReconciledOrder}
    (h : s.resolve answers snapshot raw retire = some r) :
    r.drainedTs = answers.drainedTs r.snapshot.orderId := by
  unfold resolve at h
  split at h
  · exact Option.some.inj h ▸ rfl
  · split at h
    · exact Option.some.inj h ▸ rfl
    · exact nomatch h
  · split at h <;> exact Option.some.inj h ▸ rfl

/-- A drained round retires only what it was missing, or what the venue
reported so. -/
theorem drainReconciliationUpdate_retires (round : Round) (nowTs : ℤ) (b : Bot) :
    Each (fun b' e => ∀ orderId row, Effect.Retires b' orderId row e → s.RetiredOn round orderId row)
      b ((s.drainReconciliationUpdate nowTs (s.fetch round.answers round.snapshots)).commits b) := by
  unfold drainReconciliationUpdate
  split
  · trivial
  · refine each_andThen (each_collect _ (fun raw _ t => ?_) b) fun _ _ => ?_
    · refine (s.adoptOpenOrder_retires_none nowTs raw t).mono fun b' e hnone orderId row hretires => ?_
      exact absurd hretires (hnone orderId row)
    · refine each_andThen (each_collect _ (fun result hresult t => ?_) _) fun _ _ => trivial
      refine (s.drainReconciledOrder_retires result t).mono fun b' e hown orderId row hretires => ?_
      obtain ⟨rfl, hgrace, raw, hraw, hunknown⟩ := hown orderId row hretires
      obtain ⟨hasked, _, _, hlook⟩ := mem_fetch hresult
      refine ⟨⟨_, hasked, rfl⟩, resolve_drainedTs hlook ▸ hgrace, ?_⟩
      rcases fetch_retires hresult hraw with hreported | ⟨-, hmissing⟩
      · exact .inr ⟨raw, hreported, hunknown⟩
      · exact .inl hmissing

/-- Reconciliation retires an open order only past the grace, and only one that
the venue was missing or itself reported so; a round that reads the batch and
meets no stop comes to one result for each order. -/
theorem no_false_retirement (s : Service) (rounds : List Round) (nowTs : ℤ) (b : Bot) :
    Each (fun b' e => ∀ orderId row, Effect.Retires b' orderId row e →
        ∃ round ∈ rounds, s.RetiredOn round orderId row) b
      ((collect (rounds.map fun round => s.fetch round.answers round.snapshots)
        (s.drainReconciliationUpdate nowTs)).commits b) ∧
    ∀ round ∈ rounds, ∀ rows, s.orderView.openOrders round.answers.batch = .ok rows →
      round.answers.stopInPause = false → (∀ orderId, round.answers.stopBefore orderId = false) →
      ((s.fetch round.answers round.snapshots).orders.map ReconciledOrder.snapshot).Perm
        round.snapshots := by
  refine ⟨each_collect _ (fun update hupdate t => ?_) b, fun round _ rows hrows hpause hrunning => ?_⟩
  · obtain ⟨round, hround, rfl⟩ := List.mem_map.mp hupdate
    refine (s.drainReconciliationUpdate_retires round nowTs t).mono fun b' e hown orderId row h => ?_
    exact ⟨round, hround, hown orderId row h⟩
  · exact fetch_settles_each hrows hpause hrunning

end Service

def oneOrderRound (batch : Except Exn (List Value)) : Round where
  snapshots := [⟨"0xa1", pairMarket.slug, 10⟩]
  answers :=
    { batch := fun account => if account = "primary" then batch else .ok []
      read := fun _ _ _ => .ok .null
      stopInPause := false
      stopBefore := fun _ => false
      drainedTs := fun _ => 100 }

def oneOrderStatus (batch : Except Exn (List Value)) : Option String :=
  let b := openBooks [("primary", "0xa1")]
  let round := oneOrderRound batch
  let drained := collect ([round].map fun round => fleetService.fetch round.answers round.snapshots)
    (fleetService.drainReconciliationUpdate 100)
  ((drained.after b).database.order "0xa1").map OrderRow.status

/-- An order no account knows is retired, as the one result for it. -/
theorem no_false_retirement_missing :
    let b := openBooks [("primary", "0xa1")]
    let round := oneOrderRound (.ok [])
    oneOrderStatus (.ok []) = some "terminal_unknown" ∧
      Each (fun b' e => ∀ orderId row, Effect.Retires b' orderId row e →
        ∃ r ∈ [round], fleetService.RetiredOn r orderId row) b
        ((collect ([round].map fun r => fleetService.fetch r.answers r.snapshots)
          (fleetService.drainReconciliationUpdate 100)).commits b) ∧
      ((fleetService.fetch round.answers round.snapshots).orders.map
        ReconciledOrder.snapshot).Perm round.snapshots := by
  intro b round
  have h := Service.no_false_retirement fleetService [round] 100 b
  exact ⟨by decide +kernel, h.1, h.2 round List.mem_cons_self [] rfl rfl fun _ => rfl⟩

/-- An order the venue lists under that status itself is retired although it was
not missing, and a batch that cannot be read leaves its order without a
result. -/
theorem no_false_retirement_reported :
    let listed := Value.object [("id", .string "0xa1"), ("status", .string "terminal_unknown")]
    let unread := oneOrderRound (.error (.other "PolyApiException" "timeout"))
    oneOrderStatus (.ok [listed]) = some "terminal_unknown" ∧
      ¬ fleetService.Missing (oneOrderRound (.ok [listed])).answers "0xa1" ∧
      unread.answers.stopInPause = false ∧ unread.answers.stopBefore "0xa1" = false ∧
      (fleetService.fetch unread.answers unread.snapshots).orders = [] := by
  intro listed unread
  refine ⟨by decide +kernel, ?_, rfl, rfl, rfl⟩
  rintro ⟨⟨rows, hrows, habsent⟩, -, -⟩
  have hlisted : fleetService.orderView.openOrders (oneOrderRound (.ok [listed])).answers.batch =
      .ok [.object [("id", .string "0xa1"), ("status", .string "terminal_unknown"),
        ("account", .string "primary")]] := rfl
  obtain rfl := Except.ok.inj (hlisted.symm.trans hrows)
  exact habsent _ List.mem_cons_self ⟨rfl, rfl, rfl⟩

end EventQuant
