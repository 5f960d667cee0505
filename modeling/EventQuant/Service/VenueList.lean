import EventQuant.Service.AmbiguousPair
import EventQuant.Service.Reconciliation
import EventQuant.Service.Turns

/-!
The venue's list of open orders against the books, once a round of the worker
has been drained: which of the orders this program signs the sweeps find, and
which they do not.
-/
namespace EventQuant

open Program Store Python

def Database.Linked (db : Database) : Prop :=
  ∀ orderId row, db.order orderId = some row → db.hasMarket row.slug = true

/-- `tracked_open_orders` returns the order. -/
def Database.Tracks (db : Database) (orderId : String) : Prop :=
  ∃ p ∈ db.trackedOpenOrders, p.1.orderId = orderId

instance (db : Database) (orderId : String) : Decidable (db.Tracks orderId) :=
  inferInstanceAs (Decidable (∃ p ∈ db.trackedOpenOrders, p.1.orderId = orderId))

theorem Database.tracks_iff {db : Database} {orderId : String} : db.Tracks orderId ↔
    ∃ row, db.order orderId = some row ∧ row.status ∈ trackedStates ∧
      db.hasMarket row.slug = true := by
  constructor
  · rintro ⟨p, hp, rfl⟩
    obtain ⟨hrow, hstatus, hmarket⟩ := mem_trackedOpenOrders.mp hp
    exact ⟨p.1, hrow, hstatus, Option.isSome_iff_exists.mpr ⟨p.2, hmarket⟩⟩
  · rintro ⟨row, hrow, hstatus, hmarket⟩
    obtain ⟨market, hmarket⟩ := Option.isSome_iff_exists.mp hmarket
    obtain rfl := Table.get?_key hrow
    exact ⟨(row, market), mem_trackedOpenOrders.mpr ⟨hrow, hstatus, hmarket⟩, rfl⟩

/-- A row of a known market is written. -/
theorem Action.addOrder_known {b : Bot} {slug : String} {now : ℤ} {o : PlacedOrder}
    (h : b.database.hasMarket slug = true) : (addOrder now slug o).result b = .ok () ∧
      ((addOrder now slug o).after b).database = b.database.apply (.addOrder now slug o) := by
  unfold addOrder query
  simp only [bind_eq]
  rw [result_andThen_ok (result_read b _), after_andThen_ok (result_read b _), after_read, if_pos h]
  exact ⟨rfl, rfl⟩

theorem Database.tracks_of_row {db : Database} {orderId : String} {row : OrderRow}
    (hrow : db.order orderId = some row) (hmarket : db.hasMarket row.slug = true) :
    db.Tracks orderId ↔ row.status ∈ trackedStates := by
  rw [tracks_iff, hrow]
  constructor
  · rintro ⟨row', hrow', htracked, -⟩
    exact Option.some.inj hrow' ▸ htracked
  · exact fun htracked => ⟨row, rfl, htracked, hmarket⟩

namespace Service

variable (s : Service)

/-- An order this program signs: an entry at the plan's price, or an exit at one
of its ladder's, on a token of a market of this run. -/
structure Ours (db : Database) (raw : Value) : Prop where
  onToken : ∃ market, s.listedMarket db raw = some market ∧
    (s.listedToken raw = market.upTokenId ∨ s.listedToken raw = market.downTokenId)
  atPrice : ∃ price, s.listedPrice raw = .ok (.finite price) ∧
    match s.listedSide raw with
    | .buy => price = s.plan.buyPrice
    | .sell => price ∈ s.plan.exitTargets.map ExitTarget.price

def listedStatus (raw : Value) : String := normalizeStatus (statusText s.codec raw)

/-- What the books must say of a listed order for the sweeps to find it. -/
def Agrees (db : Database) (snapshots : List TrackedOrderSnapshot) (raw : Value)
    (orderId : String) : Prop :=
  match db.order orderId with
  | none => s.listedStatus raw ∈ trackedStates ∧
      s.listedPrice raw = .ok (.finite s.plan.buyPrice) ∧
      (∃ reported, normalizeOrder s.codec raw = .ok reported) ∧
      ∃ size, s.listedSize raw = .ok size
  | some row =>
    if ∃ snapshot ∈ snapshots, snapshot.orderId = orderId then
      row.status ∉ terminalStates ∧ s.listedStatus raw ∈ trackedStates
    else row.status ∈ trackedStates

section Adoption

variable {s} {nowTs : ℤ} {raw : Value} {b : Bot}

/-- One listed order, written down if it meets the guards. -/
theorem adoptOpenOrder_after (nowTs : ℤ) (raw : Value) (b : Bot) :
    ((s.adoptOpenOrder nowTs raw).after b).database =
      match s.adoptable b.database raw with
      | .ok (some (slug, o)) => b.database.apply (.addOrder nowTs slug o)
      | _ => b.database := by
  unfold adoptOpenOrder Action.query
  rw [(handle_return _ false b).2]
  simp only [bind_eq]
  rw [after_andThen_ok (result_read b _), after_read]
  cases hadoptable : s.adoptable b.database raw with
  | error e =>
    rw [after, commits_andThen_error (result_answer b (.error e))]
    rfl
  | ok order =>
    rw [after_andThen_ok (result_answer b (.ok order)), after_answer]
    cases order with
    | none => rfl
    | some placed =>
      obtain ⟨slug, o⟩ := placed
      obtain ⟨market, rfl, hadopted⟩ := adoptable_some hadoptable
      have hmarket : b.database.hasMarket market.slug = true := by
        rw [Database.hasMarket, Table.get?_of_mem (List.mem_of_find?_eq_some hadopted.onMarket)]
        rfl
      rw [after_andThen_ok (Action.addOrder_known hmarket).1, after_return]
      exact (Action.addOrder_known hmarket).2

def adoptedRow (s : Service) (nowTs : ℤ) (db : Database) (raw : Value) (orderId : String) :
    Option OrderRow :=
  match db.order orderId with
  | some row => some row
  | none =>
    match s.adoptable db raw with
    | .ok (some (slug, o)) => some (Database.orderRow nowTs slug o)
    | _ => none

/-- Adoption reads the markets and the order's own row. -/
theorem adoptable_congr {db db' : Database} (hmarkets : db'.markets = db.markets)
    (horder : db'.order ((listedId raw).str s.codec) = db.order ((listedId raw).str s.codec)) :
    s.adoptable db' raw = s.adoptable db raw := by
  simp only [listedId] at horder
  simp only [adoptable, Database.marketForCondition, hmarkets, horder]

theorem adoptOpenOrder_markets (nowTs : ℤ) (raw : Value) (b : Bot) :
    ((s.adoptOpenOrder nowTs raw).after b).database.markets = b.database.markets := by
  rw [adoptOpenOrder_after]
  split <;> rfl

/-- A row of the list for another order leaves this one as it is. -/
theorem adoptOpenOrder_other {orderId : String} (nowTs : ℤ) (b : Bot) (hobject : raw.isObject = true)
    (hother : ¬ Names s.codec raw orderId) :
    ((s.adoptOpenOrder nowTs raw).after b).database.order orderId = b.database.order orderId := by
  rw [adoptOpenOrder_after]
  split
  · rename_i slug o hadoptable
    obtain ⟨market, -, hadopted⟩ := adoptable_some hadoptable
    rw [Database.order_put, if_neg]
    intro hid
    exact hother ⟨hobject, hadopted.named.1, hadopted.named.2 ▸ hid⟩
  · rfl

/-- A row of the list for the order leaves it with its own row or the one it is
adopted under. -/
theorem adoptOpenOrder_own {orderId : String} (nowTs : ℤ) (b : Bot) (hnames : Names s.codec raw orderId) :
    ((s.adoptOpenOrder nowTs raw).after b).database.order orderId =
      s.adoptedRow nowTs b.database raw orderId := by
  rw [adoptOpenOrder_after, adoptedRow]
  cases hadoptable : s.adoptable b.database raw with
  | error e => cases b.database.order orderId <;> rfl
  | ok order =>
    cases order with
    | none => cases b.database.order orderId <;> rfl
    | some placed =>
      obtain ⟨slug, o⟩ := placed
      obtain ⟨market, -, hadopted⟩ := adoptable_some hadoptable
      have hid : o.orderId = orderId := hadopted.named.2.trans hnames.2.2
      rw [← hid, hadopted.unknown]
      exact (Database.order_put _ _ _ _ _).trans (if_pos rfl)

/-- Once a listed order was looked at, looking again at any row of the list
changes nothing of it. -/
theorem adoptedRow_again {orderId : String} {db db' : Database} (hnames : Names s.codec raw orderId)
    (hmarkets : db'.markets = db.markets)
    (horder : db'.order orderId = db.order orderId ∨
      db'.order orderId = s.adoptedRow nowTs db raw orderId) :
    s.adoptedRow nowTs db' raw orderId = s.adoptedRow nowTs db raw orderId := by
  have hsame : db'.order orderId = db.order orderId →
      s.adoptedRow nowTs db' raw orderId = s.adoptedRow nowTs db raw orderId := by
    intro hsame
    have hid : (listedId raw).str s.codec = orderId := hnames.2.2
    rw [adoptedRow, adoptedRow, hsame, adoptable_congr hmarkets (hid ▸ hsame)]
  rcases horder with hsame' | hadopted
  · exact hsame hsame'
  · cases hrow : s.adoptedRow nowTs db raw orderId with
    | some row => rw [adoptedRow, hadopted, hrow]
    | none =>
      rw [← hrow]
      apply hsame
      rw [hadopted, hrow]
      unfold adoptedRow at hrow
      split at hrow
      · exact nomatch hrow
      · rename_i hnone
        exact hnone.symm

/-- The whole list: the markets stay, and an order that is on it, the same each
time, has its own row or the one it is adopted under. -/
theorem adoptAll_order {orderId : String} {openRows : List Value} {as : List Bool} (b₀ : Bot)
    (hnames : Names s.codec raw orderId) (hobjects : ∀ other ∈ openRows, other.isObject = true)
    (hlisted : ∀ other ∈ openRows, Names s.codec other orderId → other = raw)
    (hmarkets : b.database.markets = b₀.database.markets)
    (horder : b.database.order orderId = b₀.database.order orderId ∨
      b.database.order orderId = s.adoptedRow nowTs b₀.database raw orderId)
    (hdone : (collect openRows (s.adoptOpenOrder nowTs)).result b = .ok as) :
    let after := (collect openRows (s.adoptOpenOrder nowTs)).after b
    after.database.markets = b₀.database.markets ∧
      (after.database.order orderId = b.database.order orderId ∧ raw ∉ openRows ∨
        after.database.order orderId = s.adoptedRow nowTs b₀.database raw orderId) := by
  induction openRows generalizing b as with
  | nil => exact ⟨hmarkets, .inl ⟨rfl, List.not_mem_nil⟩⟩
  | cons other openRows ih =>
    obtain ⟨-, ⟨as', hrest⟩, hafter⟩ := collect_cons_returned hdone
    intro after
    have hobjects' := fun other' h => hobjects other' (List.mem_cons_of_mem _ h)
    have hlisted' := fun other' h => hlisted other' (List.mem_cons_of_mem _ h)
    have hmarkets' := (adoptOpenOrder_markets (s := s) nowTs other b).trans hmarkets
    simp only [after, hafter]
    by_cases hown : Names s.codec other orderId
    · obtain rfl := hlisted other List.mem_cons_self hown
      have hrow := (adoptOpenOrder_own nowTs b hown).trans (adoptedRow_again hown hmarkets horder)
      obtain ⟨hkept, hfound⟩ := ih hobjects' hlisted' hmarkets' (.inr hrow) hrest
      refine ⟨hkept, .inr ?_⟩
      rcases hfound with ⟨hsame, -⟩ | hfound
      · exact hsame.trans hrow
      · exact hfound
    · have hrow := adoptOpenOrder_other (s := s) nowTs b (hobjects other List.mem_cons_self) hown
      obtain ⟨hkept, hfound⟩ := ih hobjects' hlisted' hmarkets' (hrow ▸ horder) hrest
      refine ⟨hkept, ?_⟩
      rcases hfound with ⟨hsame, hnot⟩ | hfound
      · refine .inl ⟨hsame.trans hrow, fun hmem => ?_⟩
        rcases List.mem_cons.mp hmem with rfl | hmem
        · exact hown hnames
        · exact hnot hmem
      · exact .inr hfound

end Adoption

section Reports

variable {s} {raw : Value} {orderId : String} {b : Bot}

/-- A reconciled order's write is a report of that order. -/
theorem drainReconciledOrder_reports (result : ReconciledOrder) :
    Emits (fun e => ∃ status matched, e = .write (.updateOrder result.snapshot.orderId status matched))
      (s.drainReconciledOrder result) := by
  unfold drainReconciledOrder Action.query
  refine emits_andThen (emits_read _) fun row => ?_
  split
  · refine emits_andThen (emits_answer _) fun reported => ?_
    simp only
    split_ifs
    · exact emits_return _
    · refine emits_andThen (emits_answer _) fun matched => ?_
      exact emits_andThen (emits_commit ⟨_, _, rfl⟩) fun _ => emits_return _
  · exact emits_return _

theorem drainReconciledOrder_other (result : ReconciledOrder)
    (hother : result.snapshot.orderId ≠ orderId) :
    ((s.drainReconciledOrder result).after b).database.order orderId = b.database.order orderId := by
  have heach : Each (fun b' e => (apply b' e).database.order orderId = b'.database.order orderId) b
      ((s.drainReconciledOrder result).commits b) := by
    refine (drainReconciledOrder_reports result).each ?_ b
    rintro e ⟨status, matched, rfl⟩ b'
    change (b'.database.apply _).order orderId = _
    rw [Database.apply, Database.order_updateOrders]
    simp [hother.symm]
  exact heach.preserves (fun b' => b'.database.order orderId = b.database.order orderId)
    (fun b' e hsame h => hsame.trans h) rfl

/-- What a row that the round looked at says after an open listing. -/
def relisted (row : OrderRow) (status : String) : String :=
  if row.status ∈ terminalStates then row.status else status

theorem drainReconciledOrder_own {result : ReconciledOrder} {row : OrderRow} {changed : Bool}
    (hrow : b.database.order result.snapshot.orderId = some row) (hraw : result.raw = some raw)
    (herror : result.error = none) (hopen : s.listedStatus raw ∉ terminalStates)
    (hdone : (s.drainReconciledOrder result).result b = .ok changed) :
    ∃ row', ((s.drainReconciledOrder result).after b).database.order result.snapshot.orderId =
        some row' ∧ row'.slug = row.slug ∧ row'.status = relisted row (s.listedStatus raw) := by
  cases hnormalized : normalizeOrder s.codec raw with
  | error failure =>
    unfold drainReconciledOrder Action.query at hdone
    simp only [bind_eq] at hdone
    rw [result_andThen_ok (result_read b _), hrow, hraw, herror] at hdone
    simp only [hnormalized] at hdone
    exact nomatch hdone
  | ok reported =>
    obtain ⟨status, size⟩ := reported
    have hlisted : status = s.listedStatus raw := normalizeOrder_status hnormalized
    subst status
    have hunknown : s.listedStatus raw ≠ "terminal_unknown" := fun h => hopen (h ▸ by decide)
    have hstatus : ∀ matched, reconciledStatus row result.snapshot.size (s.listedStatus raw)
        matched = relisted row (s.listedStatus raw) := by
      intro matched
      have hmatched : s.listedStatus raw ≠ "matched" := fun h => hopen (h ▸ by decide)
      unfold reconciledStatus relisted
      simp only [hmatched, false_and, if_false]
      by_cases hterminal : row.status ∈ terminalStates
      · rw [if_pos ⟨hterminal, hopen⟩, if_pos hterminal]
      · rw [if_neg fun h => hterminal h.1, if_neg hterminal]
    unfold drainReconciledOrder Action.query at hdone ⊢
    simp only [bind_eq] at hdone ⊢
    rw [result_andThen_ok (result_read b _), after_read, hrow, hraw, herror] at hdone
    rw [after_andThen_ok (result_read b _), after_read, hrow, hraw, herror]
    simp only [hnormalized] at hdone ⊢
    rw [result_andThen_ok (a := (s.listedStatus raw, size)) rfl, after_answer] at hdone
    rw [after_andThen_ok (a := (s.listedStatus raw, size)) rfl, after_answer]
    simp only [hunknown, false_and, if_false] at hdone ⊢
    obtain ⟨matched, hmatched, -⟩ := andThen_returned hdone
    rw [after_andThen_ok hmatched, after_answer]
    exact ⟨_, order_updateOrder _ _ hrow, rfl, hstatus matched⟩

theorem relisted_tracked_iff {row : OrderRow} {status : String} :
    relisted row status ∈ trackedStates ↔ row.status ∉ terminalStates ∧ status ∈ trackedStates := by
  unfold relisted
  by_cases hterminal : row.status ∈ terminalStates
  · rw [if_pos hterminal]
    exact iff_of_false (terminal_not_tracked _ hterminal) fun h => h.1 hterminal
  · rw [if_neg hterminal]
    exact ⟨fun h => ⟨hterminal, h⟩, fun h => h.2⟩

theorem relisted_again {row row' : OrderRow} {status : String} (hopen : status ∉ terminalStates)
    (h : row'.status = relisted row status) : relisted row' status = relisted row status := by
  unfold relisted at h ⊢
  by_cases hterminal : row.status ∈ terminalStates
  · rw [if_pos hterminal] at h ⊢
    rw [h, if_pos hterminal]
  · rw [if_neg hterminal] at h ⊢
    rw [h, if_neg hopen]

/-- No report is written of an order without a row. -/
theorem drainReconciledOrder_unwritten {result : ReconciledOrder}
    (hrow : b.database.order result.snapshot.orderId = none) :
    (s.drainReconciledOrder result).after b = b := by
  unfold drainReconciledOrder Action.query
  simp only [bind_eq]
  rw [after_andThen_ok (result_read b _), hrow]
  rfl

/-- A whole round: an order without a row keeps none, and a listed order's row
says what the last look at it left, if it was looked at. -/
theorem drainAll_order {orders : List ReconciledOrder} {as : List Bool}
    (hraw : ∀ r ∈ orders, r.snapshot.orderId = orderId → r.raw = some raw ∧ r.error = none)
    (hopen : s.listedStatus raw ∉ terminalStates)
    (hdone : (collect orders s.drainReconciledOrder).result b = .ok as) :
    let after := (collect orders s.drainReconciledOrder).after b
    (b.database.order orderId = none → after.database.order orderId = none) ∧
      ∀ row, b.database.order orderId = some row → ∃ row', after.database.order orderId = some row' ∧
        row'.slug = row.slug ∧
        row'.status = if ∃ r ∈ orders, r.snapshot.orderId = orderId then
          relisted row (s.listedStatus raw) else row.status := by
  induction orders generalizing b as with
  | nil => exact ⟨id, fun row hrow => ⟨row, hrow, rfl, by simp⟩⟩
  | cons result orders ih =>
    obtain ⟨⟨changed, hfirst⟩, ⟨as', hrest⟩, hafter⟩ := collect_cons_returned hdone
    have hraw' := fun r h => hraw r (List.mem_cons_of_mem _ h)
    obtain ⟨hnone, hsome⟩ := ih hraw' hrest
    intro after
    simp only [after, hafter]
    by_cases hown : result.snapshot.orderId = orderId
    · obtain ⟨hresult, hread⟩ := hraw result List.mem_cons_self hown
      have hlooked : ∃ r ∈ result :: orders, r.snapshot.orderId = orderId :=
        ⟨result, List.mem_cons_self, hown⟩
      refine ⟨fun hrow => hnone ?_, fun row hrow => ?_⟩
      · rw [drainReconciledOrder_unwritten (hown ▸ hrow)]
        exact hrow
      · obtain ⟨row₁, hrow₁, hslug₁, hstatus₁⟩ :=
          drainReconciledOrder_own (hown ▸ hrow) hresult hread hopen hfirst
        obtain ⟨row', hrow', hslug, hstatus⟩ := hsome row₁ (hown ▸ hrow₁)
        refine ⟨row', hrow', hslug.trans hslug₁, hstatus.trans ?_⟩
        rw [if_pos hlooked]
        split
        · exact relisted_again hopen hstatus₁
        · exact hstatus₁
    · rw [drainReconciledOrder_other result hown] at hnone hsome
      refine ⟨hnone, fun row hrow => ?_⟩
      obtain ⟨row', hrow', hslug, hstatus⟩ := hsome row hrow
      refine ⟨row', hrow', hslug, hstatus.trans ?_⟩
      simp [hown]

end Reports

section Round

variable {s} {answers : RoundAnswers} {snapshots : List TrackedOrderSnapshot} {rows : List Value}
  {raw : Value} {orderId : String}

theorem openById_listed (hraw : raw ∈ rows) (hnames : Names s.codec raw orderId)
    (honce : ∀ other ∈ rows, Names s.codec other orderId → other = raw) :
    s.openById (rows.filter Value.isObject) orderId = some raw := by
  have hmem : raw ∈ rows.filter Value.isObject := List.mem_filter.mpr ⟨hraw, hnames.1⟩
  cases hfound : s.openById (rows.filter Value.isObject) orderId with
  | none => exact absurd hnames (openById_none hfound raw hmem)
  | some other =>
    obtain ⟨hother, hother'⟩ := openById_some hfound fun _ h => (List.mem_filter.mp h).2
    rw [honce other (List.mem_filter.mp hother).1 hother']

/-- An order of the list is settled with its row of the list. -/
theorem resolve_listed (snapshot : TrackedOrderSnapshot) (retire : Bool)
    (hobject : raw.isObject = true) : s.resolve answers snapshot (some raw) retire =
      some ⟨snapshot, some raw, none, answers.drainedTs snapshot.orderId⟩ := by
  cases raw with
  | object fields => rfl
  | _ => exact nomatch hobject

/-- A round's results for a listed order are its row of the list, one for each
time it was asked. -/
theorem fetch_listed (hrows : s.orderView.openOrders answers.batch = .ok rows) (hraw : raw ∈ rows)
    (hnames : Names s.codec raw orderId)
    (honce : ∀ other ∈ rows, Names s.codec other orderId → other = raw) :
    (∀ r ∈ (s.fetch answers snapshots).orders, r.snapshot.orderId = orderId →
      r.raw = some raw ∧ r.error = none) ∧
    ((∃ r ∈ (s.fetch answers snapshots).orders, r.snapshot.orderId = orderId) ↔
      ∃ snapshot ∈ snapshots, snapshot.orderId = orderId) := by
  have hopen := openById_listed hraw hnames honce
  have hfirst : ∀ snapshot : TrackedOrderSnapshot, snapshot.orderId = orderId →
      s.resolve answers snapshot (s.openById (rows.filter Value.isObject) snapshot.orderId) false =
        some ⟨snapshot, some raw, none, answers.drainedTs snapshot.orderId⟩ := by
    intro snapshot hid
    rw [← hid] at hopen
    rw [hopen]
    exact resolve_listed snapshot false hnames.1
  constructor
  · intro r hr hid
    rw [fetch, hrows] at hr
    rcases List.mem_append.mp hr with hr | hr
    · obtain ⟨snapshot, -, hresolve⟩ := List.mem_filterMap.mp hr
      rw [hfirst snapshot (resolve_snapshot hresolve ▸ hid)] at hresolve
      obtain rfl := Option.some.inj hresolve
      exact ⟨rfl, rfl⟩
    · obtain ⟨hmissing, -⟩ := mem_secondPass hr
      have hleft := (List.mem_filter.mp hmissing).2
      rw [hfirst r.snapshot hid] at hleft
      cases hleft
  · constructor
    · rintro ⟨r, hr, hid⟩
      exact ⟨r.snapshot, (mem_fetch hr).1, hid⟩
    · rintro ⟨snapshot, hsnapshot, hid⟩
      rw [fetch, hrows]
      exact ⟨_, List.mem_append_left _
        (List.mem_filterMap.mpr ⟨snapshot, hsnapshot, hfirst snapshot hid⟩), hid⟩

end Round

def ExitsAvoid (ladder : LadderAnswers) (orderId : String) : Prop :=
  s.plan.buyOnly = false → ∀ x ∈ s.exchange, ∀ row target size order,
    RungOrder x row target.price size (ladder.rung row target) order → order.orderId ≠ orderId

theorem exitsAfter_order {s : Service} {ladder : LadderAnswers} {orderId : String}
    (havoid : s.ExitsAvoid ladder orderId) (changed : Bool) (nowTs : ℤ) (b : Bot) :
    ((s.exitsAfter changed nowTs ladder).after b).database.order orderId =
      b.database.order orderId := by
  unfold exitsAfter
  split
  · rename_i x hx
    split
    · rename_i hexits
      have hladder : AllowsLadder x (fun e => ∀ b' : Bot,
          (apply b' e).database.order orderId = b'.database.order orderId) (fun _ => True) ladder := by
        refine ⟨fun _ _ _ _ => rfl, fun row _ target size order horder now b' => ?_,
          fun _ _ _ _ => rfl⟩
        refine (Database.order_put _ _ _ _ _).trans (if_neg ?_)
        exact havoid (by simpa using (Bool.and_eq_true_iff.mp hexits).2) x hx row target size order
          horder
      have hcommits := hladder.placeMissingExits s nowTs (b := b) fun _ _ => trivial
      exact (each_of_forall hcommits fun e h => h).preserves
        (fun b' => b'.database.order orderId = b.database.order orderId)
        (fun b' e hsame h => hsame.trans h) rfl
    · rfl
  · rfl

/-- The pass over the exits that may follow a round leaves the order's row. -/
theorem drain_order {s : Service} {update : ReconciliationUpdate} {nowTs : ℤ}
    {ladder : LadderAnswers} {b : Bot} {orderId : String} {drained : Bool}
    (hdone : (s.drainReconciliationUpdate nowTs update).result b = .ok drained)
    (havoid : s.ExitsAvoid ladder orderId) :
    ((s.drainReconciliationUpdates [update] nowTs ladder).after b).database.order orderId =
      ((s.drainReconciliationUpdate nowTs update).after b).database.order orderId := by
  have hround : (collect [update] (s.drainReconciliationUpdate nowTs)).result b = .ok [drained] := by
    rw [collect_cons, result_andThen_ok hdone]
    rfl
  obtain ⟨-, -, hafter⟩ := collect_cons_returned hround
  rw [drainReconciliationUpdates]
  simp only [bind_eq]
  rw [after_andThen_ok hround, hafter]
  exact exitsAfter_order havoid _ nowTs _

section Listed

variable {s : Service} {answers : RoundAnswers} {snapshots : List TrackedOrderSnapshot}
  {nowTs : ℤ} {b : Bot} {rows : List Value} {raw : Value} {orderId : String}

/-- The order's row after a whole round: its own row, or the one it is adopted
under, as the last look at it left it. -/
theorem drainReconciliationUpdate_order (hrows : s.orderView.openOrders answers.batch = .ok rows)
    (hraw : raw ∈ rows) (hnames : Names s.codec raw orderId)
    (honce : ∀ other ∈ rows, Names s.codec other orderId → other = raw)
    (hopen : s.listedStatus raw ∉ terminalStates) {drained : Bool}
    (hdone : (s.drainReconciliationUpdate nowTs (s.fetch answers snapshots)).result b = .ok drained) :
    let after := (s.drainReconciliationUpdate nowTs (s.fetch answers snapshots)).after b
    (s.adoptedRow nowTs b.database raw orderId = none → after.database.order orderId = none) ∧
      ∀ row, s.adoptedRow nowTs b.database raw orderId = some row →
        ∃ row', after.database.order orderId = some row' ∧ row'.slug = row.slug ∧
          row'.status = if ∃ snapshot ∈ snapshots, snapshot.orderId = orderId then
            relisted row (s.listedStatus raw) else row.status := by
  have hupdate : (s.fetch answers snapshots).batchError = none ∧
      (s.fetch answers snapshots).openRows = rows.filter Value.isObject := by
    rw [fetch, hrows]
    exact ⟨rfl, rfl⟩
  unfold drainReconciliationUpdate at hdone ⊢
  rw [hupdate.1] at hdone ⊢
  simp only [Option.isSome_none, Bool.false_eq_true, if_false, bind_eq] at hdone ⊢
  obtain ⟨adopted, hadopted, hrest⟩ := andThen_returned hdone
  obtain ⟨filled, hfilled, -⟩ := andThen_returned hrest
  rw [after_andThen_ok hadopted, after_andThen_ok hfilled, after_return]
  rw [hupdate.2] at hadopted hfilled ⊢
  have hmem : raw ∈ rows.filter Value.isObject := List.mem_filter.mpr ⟨hraw, hnames.1⟩
  obtain ⟨-, hfound⟩ := adoptAll_order b hnames (fun _ h => (List.mem_filter.mp h).2)
    (fun other h => honce other (List.mem_filter.mp h).1) rfl (.inl rfl) hadopted
  have hrow := hfound.resolve_left fun h => h.2 hmem
  obtain ⟨hresults, hasked⟩ := fetch_listed (s := s) hrows hraw hnames honce
  have hdrained := drainAll_order hresults hopen hfilled
  rw [hrow] at hdrained
  simpa only [hasked] using hdrained

/-- An order without a row gets one exactly when it meets the guards. -/
theorem adoptedRow_new (hnames : Names s.codec raw orderId) (hsigned : s.Ours b.database raw)
    (hopen : s.listedStatus raw ∉ terminalStates)
    (hnumber : ∀ size, s.listedSize raw = .ok size → ∃ q, size = .finite q)
    (hnone : b.database.order orderId = none) :
    (∀ row, s.adoptedRow nowTs b.database raw orderId = some row →
      row.status = s.listedStatus raw ∧ b.database.hasMarket row.slug = true) ∧
    ((∃ row, s.adoptedRow nowTs b.database raw orderId = some row) ↔
      s.listedPrice raw = .ok (.finite s.plan.buyPrice) ∧
        (∃ reported, normalizeOrder s.codec raw = .ok reported) ∧
        ∃ size, s.listedSize raw = .ok size) := by
  have hmeets : ∀ slug o, s.adoptable b.database raw = .ok (some (slug, o)) →
      (Database.orderRow nowTs slug o).status = s.listedStatus raw ∧
        b.database.hasMarket slug = true ∧ s.listedPrice raw = .ok (.finite s.plan.buyPrice) ∧
        (∃ reported, normalizeOrder s.codec raw = .ok reported) ∧
        ∃ size, s.listedSize raw = .ok size := by
    intro slug o hadoptable
    obtain ⟨market, rfl, hadopted⟩ := adoptable_some hadoptable
    obtain ⟨matched, hstatus⟩ := hadopted.status
    refine ⟨normalizeOrder_status hstatus, ?_, hadopted.price, ⟨_, hstatus⟩, ⟨_, hadopted.size⟩⟩
    rw [Database.hasMarket, Table.get?_of_mem (List.mem_of_find?_eq_some hadopted.onMarket)]
    rfl
  have hrow : ∀ row, s.adoptedRow nowTs b.database raw orderId = some row ↔
      ∃ slug o, s.adoptable b.database raw = .ok (some (slug, o)) ∧
        Database.orderRow nowTs slug o = row := by
    intro row
    unfold adoptedRow
    rw [hnone]
    constructor
    · intro h
      simp only at h
      split at h
      · rename_i slug o hadoptable
        exact ⟨slug, o, hadoptable, Option.some.inj h⟩
      · cases h
    · rintro ⟨slug, o, hadoptable, rfl⟩
      rw [hadoptable]
  refine ⟨fun row h => ?_, fun h => ?_, fun h => ?_⟩
  · obtain ⟨slug, o, hadoptable, rfl⟩ := (hrow row).mp h
    obtain ⟨hstatus, hmarket, -⟩ := hmeets slug o hadoptable
    exact ⟨hstatus, hmarket⟩
  · obtain ⟨row, hrow'⟩ := h
    obtain ⟨slug, o, hadoptable, -⟩ := (hrow row).mp hrow'
    exact (hmeets slug o hadoptable).2.2
  · obtain ⟨hprice, ⟨reported, hstatus⟩, value, hsize⟩ := h
    obtain ⟨size, rfl⟩ := hnumber value hsize
    obtain ⟨market, hmarket, htoken⟩ := hsigned.onToken
    have hreported : reported.1 = s.listedStatus raw :=
      normalizeOrder_status hstatus
    have hid : (listedId raw).str s.codec = orderId := hnames.2.2
    have hstatus' : normalizeOrder s.codec raw = .ok (s.listedStatus raw, reported.2) := by
      rw [← hreported]
      exact hstatus
    have horder : ∀ status, ∃ o : PlacedOrder, o.orderId = orderId ∧ o.status = status ∧
        o.size = size := fun status =>
      ⟨⟨orderId, "", "", 0, size, status, .buy, .entry, ""⟩, rfl, rfl, rfl⟩
    obtain ⟨o, hoid, hostatus, hosize⟩ := horder (s.listedStatus raw)
    have hadopted : s.AdoptedAs b.database raw market o :=
      { named := ⟨hnames.2.1, hoid.trans hid.symm⟩
        unknown := hoid ▸ hnone
        onMarket := hmarket
        token := htoken
        price := hprice
        status := ⟨reported.2, hostatus ▸ hstatus'⟩
        opened := hostatus ▸ hopen
        size := hosize ▸ hsize }
    obtain ⟨o', -, -, hadoptable⟩ := adoptable_of hadopted
    exact ⟨_, (hrow _).mpr ⟨market.slug, o', hadoptable, rfl⟩⟩

/-- Of the orders this program signs, a round leaves exactly those in the sweeps'
sight that are written down at the entry price under fields that can be read,
or whose own row is not over. -/
theorem listed_tracked_iff (s : Service) (answers : RoundAnswers)
    (snapshots : List TrackedOrderSnapshot) (nowTs : ℤ) (ladder : LadderAnswers) (b : Bot)
    (rows : List Value) (raw : Value) (orderId : String) (hlinked : b.database.Linked)
    (hrows : s.orderView.openOrders answers.batch = .ok rows) (hraw : raw ∈ rows)
    (hnames : Names s.codec raw orderId)
    (honce : ∀ other ∈ rows, Names s.codec other orderId → other = raw)
    (hsigned : s.Ours b.database raw) (hopen : s.listedStatus raw ∉ terminalStates)
    (hnumber : ∀ size, s.listedSize raw = .ok size → ∃ q, size = .finite q)
    (hdone : ∃ drained,
      (s.drainReconciliationUpdate nowTs (s.fetch answers snapshots)).result b = .ok drained)
    (havoid : s.ExitsAvoid ladder orderId) :
    ((s.drainReconciliationUpdates [s.fetch answers snapshots] nowTs ladder).after
        b).database.Tracks orderId ↔
      s.Agrees b.database snapshots raw orderId := by
  obtain ⟨drained, hdone⟩ := hdone
  obtain ⟨hgone, hkept⟩ := drainReconciliationUpdate_order hrows hraw hnames honce hopen hdone
  have hmarkets : ∀ slug, b.database.hasMarket slug = true →
      ((s.drainReconciliationUpdates [s.fetch answers snapshots] nowTs ladder).after
        b).database.hasMarket slug = true := fun slug h => Bot.hasMarket_settle h _
  have horder := drain_order hdone havoid
  unfold Agrees
  cases hrow : b.database.order orderId with
  | some row =>
    have hadopted : s.adoptedRow nowTs b.database raw orderId = some row := by
      rw [adoptedRow, hrow]
    obtain ⟨row', hrow', hslug, hstatus⟩ := hkept row hadopted
    rw [Database.tracks_of_row (horder.trans hrow') (hmarkets _ (hslug ▸ hlinked orderId row hrow)),
      hstatus]
    simp only
    split
    · exact relisted_tracked_iff
    · exact Iff.rfl
  | none =>
    obtain ⟨hnew, hmeets⟩ := adoptedRow_new hnames hsigned hopen hnumber hrow
    simp only
    rw [← hmeets]
    cases hadopted : s.adoptedRow nowTs b.database raw orderId with
    | none =>
      have hfinal := horder.trans (hgone hadopted)
      refine iff_of_false (fun htracks => ?_) fun h => ?_
      · obtain ⟨row, hrow', -⟩ := Database.tracks_iff.mp htracks
        exact nomatch hfinal.symm.trans hrow'
      · obtain ⟨-, row, hrow'⟩ := h
        exact nomatch hrow'
    | some row =>
      obtain ⟨hlisted, hmarket⟩ := hnew row hadopted
      obtain ⟨row', hrow', hslug, hstatus⟩ := hkept row hadopted
      have hsame : row'.status = s.listedStatus raw := by
        rw [hstatus]
        split
        · rw [relisted, hlisted, if_neg hopen]
        · exact hlisted
      rw [Database.tracks_of_row (horder.trans hrow') (hmarkets _ (hslug ▸ hmarket)), hsame]
      exact ⟨fun htracked => ⟨htracked, row, rfl⟩, fun h => h.1⟩

end Listed

end Service

def upListing (side price : String) : Value :=
  .object [("id", .string "0xa1"), ("market", .string "0xc0"), ("asset_id", .string "up-token"),
    ("side", .string side), ("price", .string price), ("original_size", .string "10"),
    ("status", .string "LIVE")]

def listing (raw : Value) : RoundAnswers where
  batch := fun _ => .ok [raw]
  read := fun _ _ _ => .ok .null
  stopInPause := false
  stopBefore := fun _ => false
  drainedTs := fun _ => 100

def unansweredLadder : LadderAnswers :=
  ⟨fun _ => .ok 0, fun _ _ => ⟨.ok .null, .ok [], 0, 0⟩⟩

def exitService : Service :=
  { pairService with
    plan := ⟨1 / 10, [⟨1 / 2, 1⟩], 1⟩
    fleetBuyOnly := fun h => nomatch h }

def upMarket (rows : List String) : Bot :=
  Bot.boot (rows.foldl
    (fun db status => db.apply
      (.addOrder 10 pairMarket.slug { openEntry "primary" "0xa1" with status := status }))
    (Database.empty.apply (.prepareMarket 1 pairMarket .active)))

theorem upListing_signed (rows : List String) : pairService.Ours (upMarket rows).database
    (upListing "BUY" "0.1") := by
  have hmarkets : (upMarket rows).database.markets.rows =
      [Database.marketRow 1 pairMarket .active] := by
    unfold upMarket Bot.boot
    simp only
    induction rows using List.reverseRecOn with
    | nil => rfl
    | append_singleton rows status ih => rw [List.foldl_append]; exact ih
  refine ⟨⟨Database.marketRow 1 pairMarket .active, ?_, .inl rfl⟩, 1 / 10, by decide +kernel, ?_⟩
  · unfold Service.listedMarket Database.marketForCondition
    rw [hmarkets]
    rfl
  · have hside : pairService.listedSide (upListing "BUY" "0.1") = .buy := by decide +kernel
    rw [hside]
    rfl

def afterListing (s : Service) (b : Bot) (raw : Value) : Database :=
  ((s.drainReconciliationUpdates [s.fetch (listing raw) []] 20 unansweredLadder).after b).database

/-- An entry nobody wrote down is found after the round that lists it. -/
theorem listed_tracked_entry :
    let raw := upListing "BUY" "0.1"
    (afterListing pairService (upMarket []) raw).Tracks "0xa1" ∧
      ((afterListing pairService (upMarket []) raw).Tracks "0xa1" ↔
        pairService.Agrees (upMarket []).database [] raw "0xa1") := by
  intro raw
  refine ⟨by decide +kernel, ?_⟩
  have hsize : pairService.listedSize raw = .ok (.finite 10) := by decide +kernel
  exact Service.listed_tracked_iff pairService (listing raw) [] 20 unansweredLadder (upMarket [])
    [raw] raw "0xa1" nofun rfl List.mem_cons_self ⟨rfl, rfl, rfl⟩
    (fun other h _ => List.mem_singleton.mp h) (upListing_signed []) (by decide +kernel)
    (fun size h => ⟨10, Except.ok.inj (h.symm.trans hsize)⟩) ⟨true, by decide +kernel⟩ nofun

/-- An exit at the ladder's price is not written down, and an entry whose row
was retired stays retired. -/
theorem listed_tracked_missed :
    let exit := upListing "SELL" "0.5"
    let entry := upListing "BUY" "0.1"
    exitService.Ours (upMarket []).database exit ∧ exitService.listedStatus exit = "live" ∧
      ¬ (afterListing exitService (upMarket []) exit).Tracks "0xa1" ∧
      pairService.Ours (upMarket ["terminal_unknown"]).database entry ∧
      pairService.listedStatus entry = "live" ∧
      ¬ (afterListing pairService (upMarket ["terminal_unknown"]) entry).Tracks "0xa1" := by
  intro exit entry
  refine ⟨⟨⟨Database.marketRow 1 pairMarket .active, rfl, .inl rfl⟩, 1 / 2, by decide +kernel, ?_⟩,
    by decide +kernel, by decide +kernel, upListing_signed _, by decide +kernel, by decide +kernel⟩
  have hside : exitService.listedSide exit = .sell := by decide +kernel
  rw [hside]
  exact List.mem_singleton.mpr rfl

end EventQuant
