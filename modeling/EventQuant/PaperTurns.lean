import EventQuant.PaperSimulator

/-!
What one turn of the paper simulator does to its books. A look for order books
leaves each market that waited missed, captured or with what went wrong; a
settlement leaves each market that is over settled, or as it was while its
resolution is open. No turn raises, and every row it writes to is of its own
strategy and in the status the write is for.
-/
namespace EventQuant.Paper

open Program Python Store

variable (sim : PaperSimulator) (looks : CaptureAnswers → Prop) (settlements : SettleAnswers → Prop)

/-- A write of a process: it registers with its own key and plan, fills a row
that waits with what a look was answered, and settles a row that is over on
what a settlement was answered; an error is written over no row that is
through. -/
def PaperWrite.From (db : PaperDatabase) : PaperWrite → Prop
  | .start key plan _ => key = sim.key ∧ plan = sim.plan
  | .heartbeat _ => True
  | .register key _ plan => key = sim.key ∧ plan = sim.plan
  | .expirePendingSnapshots key _ => key = sim.key
  | .setSnapshot key slug snapshotTsMs bookSourceTsMs upQueueAhead downQueueAhead =>
    key = sim.key ∧ ∃ row look, looks look ∧ db.market key slug = some row ∧
      row.status = .snapshotPending ∧ snapshotTsMs = look.snapshotTsMs row ∧
      (look.payload row).bind (readSnapshot sim.codec row) =
        .ok (bookSourceTsMs, upQueueAhead, downQueueAhead)
  | .setError key slug _ => key = sim.key ∧ ∃ row, db.market key slug = some row ∧
      (row.status = .snapshotPending ∨ row.status = .monitoring)
  | .setResult key slug result tradeCount => key = sim.key ∧ ∃ row answers, settlements answers ∧
      db.market key slug = some row ∧ row.status = .monitoring ∧
      row.endTs ≤ answers.nowTs - finalizationDelaySeconds ∧
      sim.settlement answers row = .ok (result, tradeCount)

/-! ### A loop over rows -/

/-- What a row's turn writes goes to that row alone and makes this of it. -/
structure OwnWrites (key : String) (writes : PaperRow → List PaperWrite)
    (becomes : PaperRow → PaperRow) : Prop where
  own : ∀ r (db : PaperDatabase), db.market key r.slug = some r →
    (settle db (writes r)).market key r.slug = some (becomes r)
  others : ∀ r (db : PaperDatabase) k s, (k, s) ≠ (key, r.slug) →
    (settle db (writes r)).market k s = db.market k s

theorem forRows_safe {ok : PaperDatabase → PaperWrite → Prop} {key : String} {rows : List PaperRow}
    {body : PaperRow → PaperAction Unit} {writes : PaperRow → List PaperWrite}
    {becomes : PaperRow → PaperRow} (hown : OwnWrites key writes becomes)
    (hrun : ∀ r t, (body r).run t = (writes r, .ok ()))
    (hslugs : rows.Pairwise fun a b => a.slug ≠ b.slug)
    (hok : ∀ r ∈ rows, ∀ t : PaperDatabase, t.market key r.slug = some r → Each ok t (writes r))
    {db : PaperDatabase} (hrows : ∀ r ∈ rows, db.market key r.slug = some r) :
    Safe ok (forEach rows body)
      (fun _ t => (∀ r ∈ rows, t.market key r.slug = some (becomes r)) ∧
        ∀ k s, (∀ r ∈ rows, (k, s) ≠ (key, r.slug)) → t.market k s = db.market k s)
      (fun _ _ => False) db := by
  have hafter : ∀ r t, (body r).after t = settle t (writes r) := fun r t => by
    rw [after, commits, hrun]
  refine Safe.mono (safe_forEach_own (fun r t => t.market key r.slug = some r)
    (fun r t => t.market key r.slug = some (becomes r)) (fun r hr t ht => ?_)
    (hslugs.imp fun {a b} hne t => ?_) hrows) (fun _ t ht => ⟨ht.1, fun k s hother => ?_⟩)
    fun _ _ h => h
  · refine ⟨?_, fun a _ => ?_, fun e he => ?_⟩
    · rw [commits, hrun]
      exact hok r hr t ht
    · rw [hafter]
      exact hown.own r t ht
    · rw [result, hrun] at he
      cases he
  · have hab : (key, b.slug) ≠ (key, a.slug) := fun h => hne (Prod.mk.inj h).2.symm
    rw [hafter, hafter, hown.others a t key b.slug hab, hown.others b t key a.slug hab.symm]
    exact ⟨id, id⟩
  · refine ht.2 (fun u => u.market k s = db.market k s) (fun r hr u hu => ?_) rfl
    rw [hafter, hown.others r u k s (hother r hr), hu]

theorem pairwise_slugs {db : PaperDatabase} {chosen : PaperRow → Bool} (key : String)
    (hchosen : ∀ r, chosen r = true → r.strategyKey = key) (before : PaperRow → PaperRow → Prop)
    [DecidableRel before] :
    ((db.markets.rows.filter chosen).insertionSort before).Pairwise fun a b => a.slug ≠ b.slug := by
  have hkeys : (((db.markets.rows.filter chosen).insertionSort before).map PaperRow.key).Nodup := by
    rw [((List.perm_insertionSort before _).map PaperRow.key).nodup_iff]
    exact db.markets.distinct.sublist (List.filter_sublist.map PaperRow.key)
  have hkey : ∀ r ∈ (db.markets.rows.filter chosen).insertionSort before, r.strategyKey = key := by
    intro r hr
    rw [List.mem_insertionSort, List.mem_filter] at hr
    exact hchosen r hr.2
  rw [List.Nodup, List.pairwise_map] at hkeys
  refine hkeys.imp_of_mem fun {a b} ha hb hne hslug => hne ?_
  exact Prod.ext ((hkey a ha).trans (hkey b hb).symm) hslug

theorem pendingSnapshots_slugs (db : PaperDatabase) (key : String) :
    (db.pendingSnapshots key).Pairwise fun a b => a.slug ≠ b.slug := by
  refine pairwise_slugs key (fun r hr => ?_) _
  rw [decide_eq_true_iff] at hr
  exact hr.1

theorem readyToSettle_slugs (db : PaperDatabase) (key : String) (nowTs : ℤ) :
    (db.readyToSettle key nowTs).Pairwise fun a b => a.slug ≠ b.slug := by
  refine pairwise_slugs key (fun r hr => ?_) _
  rw [decide_eq_true_iff] at hr
  exact hr.1

/-- A loop over the strategy's rows of a kind, as what it makes of every row. -/
theorem market_of_loop {db t : PaperDatabase} {key : String} {rows : List PaperRow}
    {chosen : PaperRow → Prop} [DecidablePred chosen] {becomes : PaperRow → PaperRow}
    (hmem : ∀ r, r ∈ rows ↔ db.market key r.slug = some r ∧ chosen r)
    (hdone : ∀ r ∈ rows, t.market key r.slug = some (becomes r))
    (hothers : ∀ k s, (∀ r ∈ rows, (k, s) ≠ (key, r.slug)) → t.market k s = db.market k s)
    (k s : String) : t.market k s =
      (db.market k s).map fun r => if r.strategyKey = key ∧ chosen r then becomes r else r := by
  cases hrow : db.market k s with
  | none =>
    refine (hothers k s fun r hr hsame => ?_).trans hrow
    obtain ⟨rfl, rfl⟩ := Prod.mk.inj hsame
    rw [((hmem r).mp hr).1] at hrow
    cases hrow
  | some r =>
    obtain ⟨rfl, rfl⟩ := PaperDatabase.market_key hrow
    rw [Option.map_some]
    split
    · rename_i hchosen
      obtain ⟨rfl, hchosen⟩ := hchosen
      exact hdone r ((hmem r).mpr ⟨hrow, hchosen⟩)
    · rename_i hchosen
      refine (hothers _ _ fun r' hr' hsame => hchosen ?_).trans hrow
      obtain ⟨hkey, hslug⟩ := Prod.mk.inj hsame
      obtain ⟨hrow', hchosen'⟩ := (hmem r').mp hr'
      rw [← hkey, ← hslug, hrow] at hrow'
      obtain rfl := Option.some.inj hrow'
      exact ⟨hkey, hchosen'⟩

/-! ### A look for the books -/

namespace PaperSimulator

def captureWrite (look : CaptureAnswers) (r : PaperRow) : PaperWrite :=
  match (look.payload r).bind (readSnapshot sim.codec r) with
  | .ok snapshot => .setSnapshot sim.key r.slug (look.snapshotTsMs r) snapshot.1 snapshot.2.1
      snapshot.2.2
  | .error e => .setError sim.key r.slug e.text

def lookedRow (look : CaptureAnswers) (r : PaperRow) : PaperRow :=
  match (look.payload r).bind (readSnapshot sim.codec r) with
  | .ok snapshot =>
    PaperDatabase.capturedRow (look.snapshotTsMs r) snapshot.1 snapshot.2.1 snapshot.2.2 r
  | .error e => PaperDatabase.failedRow e.text r

def afterLook (look : CaptureAnswers) (r : PaperRow) : PaperRow :=
  if r.strategyKey = sim.key ∧ r.status = .snapshotPending then
    if r.endTs ≤ look.nowTs then PaperDatabase.missedRow r else sim.lookedRow look r
  else r

theorem captureSnapshot_run (look : CaptureAnswers) (r : PaperRow) (db : PaperDatabase) :
    (sim.captureSnapshot look r).run db = ([sim.captureWrite look r], .ok ()) := by
  unfold captureSnapshot captureWrite
  cases (look.payload r).bind (readSnapshot sim.codec r) <;> rfl

theorem ownWrites_captureWrite (look : CaptureAnswers) :
    OwnWrites sim.key (fun r => [sim.captureWrite look r]) (sim.lookedRow look) where
  own r db hrow := by
    rw [settle_cons, settle_nil]
    unfold captureWrite lookedRow
    cases (look.payload r).bind (readSnapshot sim.codec r) <;>
      exact (PaperDatabase.market_updateMarket ..).trans (by rw [if_pos rfl, hrow]; rfl)
  others r db k s hne := by
    rw [settle_cons, settle_nil]
    unfold captureWrite
    cases (look.payload r).bind (readSnapshot sim.codec r) <;>
      exact (PaperDatabase.market_updateMarket ..).trans (if_neg hne)

variable {sim looks settlements}

theorem captureWrite_from {look : CaptureAnswers} (hlook : looks look) {r : PaperRow}
    {db : PaperDatabase} (hrow : db.market sim.key r.slug = some r)
    (hstatus : r.status = .snapshotPending) :
    (sim.captureWrite look r).From sim looks settlements db := by
  unfold captureWrite
  cases hread : (look.payload r).bind (readSnapshot sim.codec r) with
  | ok snapshot => exact ⟨rfl, r, look, hlook, hrow, hstatus, rfl, hread⟩
  | error e => exact ⟨rfl, r, hrow, .inl hstatus⟩

theorem capturePendingSnapshots_safe {look : CaptureAnswers} (hlook : looks look)
    (db : PaperDatabase) :
    Safe (PaperWrite.From sim looks settlements) (sim.capturePendingSnapshots look)
      (fun pending t => (pending = true ↔ t.pendingSnapshots sim.key ≠ []) ∧
        ∀ k s, t.market k s = (db.market k s).map (sim.afterLook look))
      (fun _ _ => False) db := by
  unfold capturePendingSnapshots
  simp only [bind_eq]
  refine safe_andThen (q := fun _ t => t = db.expirePendingSnapshots sim.key look.nowTs)
    (safe_commit _ rfl rfl) ?_
  rintro _ t ht
  refine safe_andThen (q := fun rows t' => t' = t ∧ rows = t.pendingSnapshots sim.key)
    (safe_read _ ⟨rfl, rfl⟩) ?_
  rintro rows t' ⟨rfl, rfl⟩
  refine safe_andThen (forRows_safe (sim.ownWrites_captureWrite look) (sim.captureSnapshot_run look)
    (pendingSnapshots_slugs t' sim.key) (fun r hr u hu => ?_) fun r hr => ?_) ?_
  · exact ⟨captureWrite_from hlook hu (PaperDatabase.mem_pendingSnapshots.mp hr).2, trivial⟩
  · exact (PaperDatabase.mem_pendingSnapshots.mp hr).1
  rintro _ u ⟨hdone, hothers⟩
  refine safe_andThen (q := fun left u' => u' = u ∧ left = u.pendingSnapshots sim.key)
    (safe_read _ ⟨rfl, rfl⟩) ?_
  rintro left u' ⟨rfl, rfl⟩
  refine safe_return _ ⟨by simp, fun k s => ?_⟩
  rw [market_of_loop (fun r => PaperDatabase.mem_pendingSnapshots) hdone hothers, ht,
    PaperDatabase.market_expirePendingSnapshots, Option.map_map]
  refine Option.map_congr fun r hr => ?_
  obtain ⟨rfl, rfl⟩ := PaperDatabase.market_key hr
  simp only [Function.comp_apply, afterLook]
  by_cases hown : r.strategyKey = sim.key ∧ r.status = .snapshotPending
  · by_cases hover : r.endTs ≤ look.nowTs
    · simp [hown, hover, PaperDatabase.missedRow]
    · simp [hown, hover]
  · have hstays : ¬ (r.strategyKey = sim.key ∧ r.status = .snapshotPending ∧ r.endTs ≤ look.nowTs) :=
      fun h => hown ⟨h.1, h.2.1⟩
    rw [if_neg hstays, if_neg hown, if_neg hown]

variable (sim)

/-! ### A settlement -/

def settleWrites (answers : SettleAnswers) (r : PaperRow) : List PaperWrite :=
  match sim.settlement answers r with
  | .ok settled => [.setResult sim.key r.slug settled.1 settled.2]
  | .error e => if isResolutionPending e then [] else [.setError sim.key r.slug e.text]

def resolvedRow (answers : SettleAnswers) (r : PaperRow) : PaperRow :=
  match sim.settlement answers r with
  | .ok settled => PaperDatabase.settledRow settled.1 settled.2 r
  | .error e => if isResolutionPending e then r else PaperDatabase.failedRow e.text r

def afterSettlement (answers : SettleAnswers) (r : PaperRow) : PaperRow :=
  if r.strategyKey = sim.key ∧ r.status = .monitoring ∧
      r.endTs ≤ answers.nowTs - finalizationDelaySeconds then sim.resolvedRow answers r
  else r

theorem settleMarket_run (answers : SettleAnswers) (r : PaperRow) (db : PaperDatabase) :
    (sim.settleMarket answers r).run db = (sim.settleWrites answers r, .ok ()) := by
  unfold settleMarket settleWrites
  cases hsettled : sim.settlement answers r with
  | ok settled => rfl
  | error e =>
    change ((if isResolutionPending e then return' () else
      commit (.setError sim.key r.slug e.text) : PaperAction Unit).run db) = _
    cases hpending : isResolutionPending e <;> simp [hpending, commit, return']

theorem ownWrites_settleWrites (answers : SettleAnswers) :
    OwnWrites sim.key (sim.settleWrites answers) (sim.resolvedRow answers) where
  own r db hrow := by
    unfold settleWrites resolvedRow
    cases sim.settlement answers r with
    | ok settled => exact (PaperDatabase.market_updateMarket ..).trans (by rw [if_pos rfl, hrow]; rfl)
    | error e =>
      cases hpending : isResolutionPending e with
      | true => simpa [hpending] using hrow
      | false =>
        simp only [hpending, Bool.false_eq_true, if_false]
        exact (PaperDatabase.market_updateMarket ..).trans (by rw [if_pos rfl, hrow]; rfl)
  others r db k s hne := by
    unfold settleWrites
    cases sim.settlement answers r with
    | ok settled => exact (PaperDatabase.market_updateMarket ..).trans (if_neg hne)
    | error e =>
      cases hpending : isResolutionPending e with
      | true => simp [hpending]
      | false =>
        simp only [hpending, Bool.false_eq_true, if_false]
        exact (PaperDatabase.market_updateMarket ..).trans (if_neg hne)

variable {sim}

theorem settleWrites_from {answers : SettleAnswers} (hanswers : settlements answers) {r : PaperRow}
    {db : PaperDatabase} (hrow : db.market sim.key r.slug = some r) (hstatus : r.status = .monitoring)
    (hover : r.endTs ≤ answers.nowTs - finalizationDelaySeconds) :
    Each (PaperWrite.From sim looks settlements) db (sim.settleWrites answers r) := by
  unfold settleWrites
  cases hsettled : sim.settlement answers r with
  | ok settled => exact ⟨⟨rfl, r, answers, hanswers, hrow, hstatus, hover, hsettled⟩, trivial⟩
  | error e =>
    cases hpending : isResolutionPending e with
    | true => simp [hpending, Each]
    | false =>
      simp only [hpending, Bool.false_eq_true, if_false]
      exact ⟨⟨rfl, r, hrow, .inr hstatus⟩, trivial⟩

theorem settleFinishedMarkets_safe {answers : SettleAnswers} (hanswers : settlements answers)
    (db : PaperDatabase) :
    Safe (PaperWrite.From sim looks settlements) (sim.settleFinishedMarkets answers)
      (fun _ t => ∀ k s, t.market k s = (db.market k s).map (sim.afterSettlement answers))
      (fun _ _ => False) db := by
  unfold settleFinishedMarkets
  simp only [bind_eq]
  refine safe_andThen (q := fun rows t => t = db ∧ rows = db.readyToSettle sim.key answers.nowTs)
    (safe_read _ ⟨rfl, rfl⟩) ?_
  rintro rows t ⟨rfl, rfl⟩
  refine Safe.mono (forRows_safe (sim.ownWrites_settleWrites answers) (sim.settleMarket_run answers)
    (readyToSettle_slugs t sim.key answers.nowTs) (fun r hr u hu => ?_) fun r hr => ?_)
    (fun _ u hu => ?_) fun _ _ h => h
  · obtain ⟨-, hstatus, hover⟩ := PaperDatabase.mem_readyToSettle.mp hr
    exact settleWrites_from hanswers hu hstatus hover
  · exact (PaperDatabase.mem_readyToSettle.mp hr).1
  · exact market_of_loop (fun r => PaperDatabase.mem_readyToSettle) hu.1 hu.2

/-! ### The markets that were activated -/

/-- Every row stays as it is, and each new one is an update's, registered. -/
structure Registers (sim : PaperSimulator) (updates : List ActivationUpdate) (db t : PaperDatabase) :
    Prop where
  stays : ∀ k s row, db.market k s = some row → t.market k s = some row
  source : ∀ k s row, t.market k s = some row → db.market k s = some row ∨ k = sim.key ∧
    ∃ update ∈ updates, s = update.market.slug ∧
      row = PaperDatabase.registeredRow sim.key update sim.plan
  registered : ∀ update ∈ updates, (t.market sim.key update.market.slug).isSome = true

theorem registers_step (update : ActivationUpdate) (updates : List ActivationUpdate)
    {db t : PaperDatabase} (h : Registers sim updates (db.register sim.key update sim.plan) t) :
    Registers sim (update :: updates) db t where
  stays k s row hrow := by
    refine h.stays k s row ?_
    rw [PaperDatabase.market_register, if_neg fun hnew => by simp [hrow] at hnew, hrow]
  source k s row hrow := by
    rcases h.source k s row hrow with hbefore | ⟨hkey, update', hmem, hslug, hrow'⟩
    · rw [PaperDatabase.market_register] at hbefore
      split at hbefore
      · rename_i hnew
        obtain ⟨hkey, hslug⟩ := Prod.mk.inj hnew.2
        exact .inr ⟨hkey, update, List.mem_cons_self, hslug, (Option.some.inj hbefore).symm⟩
      · exact .inl hbefore
    · exact .inr ⟨hkey, update', List.mem_cons_of_mem _ hmem, hslug, hrow'⟩
  registered update' hmem := by
    rcases List.mem_cons.mp hmem with rfl | hmem
    · have hthere : ((db.register sim.key update' sim.plan).market sim.key
          update'.market.slug).isSome = true := by
        rw [PaperDatabase.market_register]
        split
        · rfl
        · rename_i hold
          exact Option.isSome_iff_ne_none.mpr fun hnone => hold ⟨hnone, rfl⟩
      obtain ⟨row, hrow⟩ := Option.isSome_iff_exists.mp hthere
      exact Option.isSome_iff_exists.mpr ⟨row, h.stays _ _ row hrow⟩
    · exact h.registered update' hmem

variable (sim looks settlements) in
theorem drainActivationUpdates_safe (updates : List ActivationUpdate) (db : PaperDatabase) :
    Safe (PaperWrite.From sim looks settlements) (sim.drainActivationUpdates updates)
      (fun registered t => Registers sim updates db t ∧
        (registered = false → ∀ k s, t.market k s = db.market k s))
      (fun _ _ => False) db := by
  unfold drainActivationUpdates
  simp only [bind_eq]
  refine safe_andThen (q := fun known t => Registers sim updates db t ∧
    (known.any id = false → ∀ k s, t.market k s = db.market k s)) ?_ fun _ _ h => safe_return _ h
  induction updates generalizing db with
  | nil =>
    exact safe_return [] ⟨⟨fun _ _ _ h => h, fun _ _ _ h => .inl h,
      fun _ hmem => absurd hmem List.not_mem_nil⟩, fun _ _ _ => rfl⟩
  | cons update updates ih =>
    rw [collect_cons]
    refine safe_andThen (q := fun a t => t = db.register sim.key update sim.plan ∧
      a = !(db.market sim.key update.market.slug).isSome) ?_ ?_
    · refine safe_andThen (q := fun known t => t = db ∧
        known = (db.market sim.key update.market.slug).isSome) (safe_read _ ⟨rfl, rfl⟩) ?_
      rintro known t ⟨rfl, rfl⟩
      refine safe_andThen (q := fun _ t' => t' = t.register sim.key update sim.plan)
        (safe_commit _ ⟨rfl, rfl⟩ rfl) ?_
      rintro _ t' rfl
      exact safe_return _ ⟨rfl, rfl⟩
    · rintro a t ⟨rfl, rfl⟩
      refine safe_andThen (ih (db.register sim.key update sim.plan)) fun known u hu => ?_
      refine safe_return _ ⟨registers_step update updates hu.1, fun hnone k s => ?_⟩
      rw [List.any_cons, Bool.or_eq_false_iff] at hnone
      obtain ⟨hknown, hnone⟩ := hnone
      rw [hu.2 hnone k s, PaperDatabase.register, if_pos (by simpa using hknown)]

end PaperSimulator

/-! ### A whole turn -/

/-- The loop knows whether a market waits for its book, and has a time for the
next look exactly then. -/
structure Timers.Tell (timers : Timers) (key : String) (db : PaperDatabase) : Prop where
  pending : timers.snapshotPending = true ↔ db.pendingSnapshots key ≠ []
  retry : timers.nextSnapshotRetry.isSome = timers.snapshotPending

theorem pendingSnapshots_ne_nil {db : PaperDatabase} {key : String} :
    db.pendingSnapshots key ≠ [] ↔
      ∃ slug r, db.market key slug = some r ∧ r.status = .snapshotPending := by
  rw [← List.length_pos_iff, List.length_pos_iff_exists_mem]
  constructor
  · rintro ⟨r, hr⟩
    exact ⟨r.slug, r, PaperDatabase.mem_pendingSnapshots.mp hr⟩
  · rintro ⟨slug, r, hrow, hstatus⟩
    obtain ⟨-, rfl⟩ := PaperDatabase.market_key hrow
    exact ⟨r, PaperDatabase.mem_pendingSnapshots.mpr ⟨hrow, hstatus⟩⟩

/-- What leaves the waiting markets as they are leaves the loop right. -/
theorem Timers.Tell.map {timers : Timers} {key : String} {db t : PaperDatabase}
    (h : timers.Tell key db) {f : PaperRow → PaperRow}
    (hrows : ∀ k s, t.market k s = (db.market k s).map f)
    (hf : ∀ r, (f r).status = .snapshotPending ↔ r.status = .snapshotPending) :
    timers.Tell key t where
  pending := by
    rw [h.pending, pendingSnapshots_ne_nil, pendingSnapshots_ne_nil]
    refine exists_congr fun slug => ?_
    rw [hrows]
    constructor
    · rintro ⟨r, hrow, hstatus⟩
      exact ⟨f r, by rw [hrow]; rfl, (hf r).mpr hstatus⟩
    · rintro ⟨r, hrow, hstatus⟩
      obtain ⟨r', hrow', rfl⟩ := Option.map_eq_some_iff.mp hrow
      exact ⟨r', hrow', (hf r').mp hstatus⟩
  retry := h.retry

theorem Timers.Tell.looked {timers : Timers} {key : String} {t : PaperDatabase} {pending : Bool}
    (hpending : pending = true ↔ t.pendingSnapshots key ≠ []) (clock : ℚ) :
    Timers.Tell { timers with
      snapshotPending := pending
      nextSnapshotRetry := nextLook pending clock } key t where
  pending := hpending
  retry := by cases pending <;> rfl

namespace PaperSimulator

def afterTurn (answers : TurnAnswers) (registered again settled : Bool) (r : PaperRow) : PaperRow :=
  let r := if registered then sim.afterLook answers.registered r else r
  let r := if again then sim.afterLook answers.retried r else r
  if settled then sim.afterSettlement answers.settled r else r

variable {sim looks settlements}

theorem afterSettlement_pending (answers : SettleAnswers) (r : PaperRow) :
    (sim.afterSettlement answers r).status = .snapshotPending ↔ r.status = .snapshotPending := by
  unfold afterSettlement
  split
  · rename_i hover
    have hnot : r.status ≠ .snapshotPending := by simp [hover.2.1]
    refine iff_of_false ?_ hnot
    unfold resolvedRow
    cases sim.settlement answers r with
    | ok settled => simp [PaperDatabase.settledRow]
    | error e => cases hpending : isResolutionPending e <;> simpa [hpending, PaperDatabase.failedRow] using hnot
  · rfl

variable {answers : TurnAnswers}

theorem firstLook_safe (hlook : looks answers.registered) {registered : Bool} {timers : Timers}
    {db : PaperDatabase} (htell : registered = false → timers.Tell sim.key db) :
    Safe (PaperWrite.From sim looks settlements) (sim.firstLook registered answers timers)
      (fun timers' t => timers'.Tell sim.key t ∧ (registered = false → timers' = timers) ∧
        timers'.nextSettlementPoll = timers.nextSettlementPoll ∧
        ∀ k s, t.market k s = (db.market k s).map
          fun r => if registered then sim.afterLook answers.registered r else r)
      (fun _ _ => False) db := by
  unfold firstLook
  cases registered with
  | false => exact safe_return _ ⟨htell rfl, fun _ => rfl, rfl, fun k s => by simp⟩
  | true =>
    simp only [if_true, bind_eq]
    refine safe_andThen (capturePendingSnapshots_safe hlook db) fun pending t ht => ?_
    exact safe_return _ ⟨.looked ht.1 _, fun h => absurd h (by simp), rfl, ht.2⟩

theorem nextLookDue_safe (hlook : looks answers.retried) {timers : Timers} {db : PaperDatabase}
    (htell : timers.Tell sim.key db) :
    Safe (PaperWrite.From sim looks settlements) (sim.nextLookDue answers timers)
      (fun timers' t => timers'.Tell sim.key t ∧
        timers'.nextSettlementPoll = timers.nextSettlementPoll ∧
        ∃ again : Bool, (timers.nextSnapshotRetry.any (· ≤ answers.now) = true → again = true) ∧
          ∀ k s, t.market k s = (db.market k s).map
            fun r => if again then sim.afterLook answers.retried r else r)
      (fun _ _ => False) db := by
  unfold nextLookDue
  split
  · simp only [bind_eq]
    refine safe_andThen (capturePendingSnapshots_safe hlook db) fun pending t ht => ?_
    exact safe_return _ ⟨.looked ht.1 _, rfl, true, fun _ => rfl, ht.2⟩
  · rename_i hnot
    refine safe_return _ ⟨htell, rfl, false, fun hdue => ?_, fun k s => by simp⟩
    -- a time for a look means that a market waits
    have hsome : timers.nextSnapshotRetry.isSome = true := by
      cases hretry : timers.nextSnapshotRetry with
      | none => simp [hretry] at hdue
      | some at' => rfl
    exact absurd ⟨htell.retry ▸ hsome, hdue⟩ hnot

theorem settleDue_safe (hsettled : settlements answers.settled) {timers : Timers}
    {db : PaperDatabase} (htell : timers.Tell sim.key db) :
    Safe (PaperWrite.From sim looks settlements) (sim.settleDue answers timers)
      (fun timers' t => timers'.Tell sim.key t ∧ ∀ k s, t.market k s = (db.market k s).map fun r =>
        if timers.nextSettlementPoll ≤ answers.now then sim.afterSettlement answers.settled r else r)
      (fun _ _ => False) db := by
  unfold settleDue
  split
  · rename_i hdue
    simp only [bind_eq]
    refine safe_andThen (settleFinishedMarkets_safe hsettled db) fun _ t ht => ?_
    refine safe_return _ ⟨?_, ht⟩
    exact ⟨(htell.map ht (afterSettlement_pending _)).pending, htell.retry⟩
  · exact safe_return _ ⟨htell, fun k s => by simp⟩

theorem heartbeatDue_safe {timers : Timers} {db : PaperDatabase} (htell : timers.Tell sim.key db) :
    Safe (PaperWrite.From sim looks settlements) (heartbeatDue answers timers)
      (fun timers' t => timers'.Tell sim.key t ∧ ∀ k s, t.market k s = db.market k s)
      (fun _ _ => False) db := by
  unfold heartbeatDue
  split
  · simp only [bind_eq]
    refine safe_andThen (q := fun _ t => t = db.heartbeat answers.heartbeatTs)
      (safe_commit _ trivial rfl) ?_
    rintro _ t rfl
    exact safe_return _ ⟨⟨htell.pending, htell.retry⟩, fun _ _ => rfl⟩
  · exact safe_return _ ⟨htell, fun _ _ => rfl⟩

/-- A turn registers what was activated, and then makes of each row what its
looks and its settlement make of it; it looks when a look is due. -/
theorem turn_safe (hfirst : looks answers.registered) (hagain : looks answers.retried)
    (hsettled : settlements answers.settled) {timers : Timers} {db : PaperDatabase}
    (htell : timers.Tell sim.key db) :
    Safe (PaperWrite.From sim looks settlements) (sim.turn answers timers)
      (fun timers' t => timers'.Tell sim.key t ∧ ∃ db' registered again,
        Registers sim answers.updates db db' ∧
        (registered = false → ∀ k s, db'.market k s = db.market k s) ∧
        (timers.nextSnapshotRetry.any (· ≤ answers.now) = true →
          registered = true ∨ again = true) ∧
        ∀ k s, t.market k s = (db'.market k s).map
          (sim.afterTurn answers registered again (timers.nextSettlementPoll ≤ answers.now)))
      (fun _ _ => False) db := by
  unfold turn
  simp only [bind_eq]
  refine safe_andThen (drainActivationUpdates_safe sim looks settlements answers.updates db) fun registered db₁ h₁ => ?_
  refine safe_andThen (firstLook_safe hfirst fun hnone => ?_) fun timers₂ db₂ h₂ => ?_
  · exact htell.map (f := id) (fun k s => by rw [h₁.2 hnone]; simp) fun _ => Iff.rfl
  refine safe_andThen (nextLookDue_safe hagain h₂.1) fun timers₃ db₃ h₃ => ?_
  refine safe_andThen (settleDue_safe hsettled h₃.1) fun timers₄ db₄ h₄ => ?_
  refine (heartbeatDue_safe h₄.1).mono (fun timers₅ db₅ h₅ => ⟨h₅.1, ?_⟩) fun _ _ h => h
  obtain ⟨-, hsame, hpoll₂, hrows₂⟩ := h₂
  obtain ⟨-, hpoll₃, again, hdue, hrows₃⟩ := h₃
  refine ⟨db₁, registered, again, h₁.1, h₁.2, fun hretry => ?_, fun k s => ?_⟩
  · cases registered with
    | true => exact .inl rfl
    | false => exact .inr (hdue (hsame rfl ▸ hretry))
  · rw [h₅.2, h₄.2, hrows₃, hrows₂, hpoll₃, hpoll₂, Option.map_map, Option.map_map]
    refine Option.map_congr fun r _ => ?_
    simp only [Function.comp_apply, afterTurn, decide_eq_true_eq]

variable (sim looks settlements) in
theorem start_safe (now : ℤ) (db : PaperDatabase) :
    Safe (PaperWrite.From sim looks settlements) (sim.start now)
      (fun timers t => timers.Tell sim.key t ∧ ∀ k s, t.market k s = db.market k s)
      (fun _ _ => False) db := by
  unfold start
  simp only [bind_eq]
  refine safe_andThen (q := fun _ t => t = db.start sim.key sim.plan now)
    (safe_commit _ ⟨rfl, rfl⟩ rfl) ?_
  rintro _ t rfl
  refine safe_andThen (q := fun rows t' => t' = db.start sim.key sim.plan now ∧
    rows = t'.pendingSnapshots sim.key) (safe_read _ ⟨rfl, rfl⟩) ?_
  rintro rows t' ⟨rfl, rfl⟩
  refine safe_return _ ⟨⟨by simp, ?_⟩, fun _ _ => rfl⟩
  cases hrows : ((db.start sim.key sim.plan now).pendingSnapshots sim.key).isEmpty <;> simp

end PaperSimulator

end EventQuant.Paper
