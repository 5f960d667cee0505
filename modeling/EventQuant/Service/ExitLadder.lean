import EventQuant.Service.ExitBudget
import EventQuant.Service.LedgerRuns
import EventQuant.Service.VenueList

/-!
The take-profit ladder of a filled entry: each rung is to sell its fraction of
what was filled. A rung counts as handled by its exits on the books, and a
pass submits what is still short. No pass takes a rung past its share; and a
pass whose submissions are all taken leaves nothing for the next one.
-/
namespace EventQuant

open Program Store Python

namespace Database

def OfRung (slug outcome : String) (price : ℚ) (r : OrderRow) : Prop :=
  r.slug = slug ∧ r.outcome = outcome ∧ r.role = .exit ∧ r.price = price

instance (slug outcome : String) (price : ℚ) (r : OrderRow) :
    Decidable (OfRung slug outcome price r) :=
  inferInstanceAs (Decidable (_ ∧ _ ∧ _ ∧ _))

def handledSize (r : OrderRow) : ℚ :=
  r.matchedSize +
    if r.status ∈ activeExitStates then restingSize .exact r
    else if r.status = "failed" then r.size
    else 0

theorem handled_exact (total : ℚ) (r : OrderRow) :
    handled .exact total r = total + handledSize r := by
  unfold handled handledSize
  simp only [Decimals.exact_add]
  split_ifs <;> ring

def rungSize (rows : List OrderRow) (slug outcome : String) (price : ℚ) : ℚ :=
  ((rows.filter fun r => OfRung slug outcome price r).map handledSize).sum

theorem exitHandledSize_eq (db : Database) (slug outcome : String) (price : ℚ) :
    db.exitHandledSize .exact slug outcome price = rungSize db.orders.rows slug outcome price := by
  have hfold : ∀ (rows : List OrderRow) (total : ℚ),
      rows.foldl (handled .exact) total = total + (rows.map handledSize).sum := by
    intro rows
    induction rows with
    | nil => simp
    | cons r rows ih =>
      intro total
      rw [List.foldl_cons, ih, handled_exact, List.map_cons, List.sum_cons, add_assoc]
  unfold exitHandledSize rungSize
  rw [hfold, zero_add]
  rfl

theorem activeExitReservedSize_eq (db : Database) (slug outcome : String) :
    db.activeExitReservedSize .exact slug outcome = ((db.orders.rows.filter fun r =>
      r.slug = slug ∧ r.outcome = outcome ∧ r.role = .exit ∧ r.status ∈ activeExitStates).map
        (restingSize .exact)).sum := by
  unfold activeExitReservedSize
  rw [Decimals.exact_sum]

theorem rungSize_append (rows rows' : List OrderRow) (slug outcome : String) (price : ℚ) :
    rungSize (rows ++ rows') slug outcome price =
      rungSize rows slug outcome price + rungSize rows' slug outcome price := by
  unfold rungSize
  rw [List.filter_append, List.map_append, List.sum_append]

theorem rungSize_cons (row : OrderRow) (rows : List OrderRow) (slug outcome : String) (price : ℚ) :
    rungSize (row :: rows) slug outcome price =
      (if OfRung slug outcome price row then handledSize row else 0) +
        rungSize rows slug outcome price := by
  unfold rungSize
  by_cases hrow : OfRung slug outcome price row <;> simp [hrow]

/-- Rows of other rungs count nothing. -/
theorem rungSize_none {rows : List OrderRow} {slug outcome : String} {price : ℚ}
    (h : ∀ r ∈ rows, ¬ OfRung slug outcome price r) : rungSize rows slug outcome price = 0 := by
  unfold rungSize
  rw [List.filter_eq_nil_iff.mpr (by simpa using h)]
  rfl

def Counts (db : Database) (slug outcome : String) : Prop :=
  ∀ r ∈ db.orders.rows, r.slug = slug → r.outcome = outcome → r.role = .exit → 0 ≤ handledSize r

/-- A row put in adds what it counts, and takes away what it replaces. -/
theorem exitHandledSize_put_le {db : Database} {slug outcome : String} (h : db.Counts slug outcome)
    (now : ℤ) (market : String) (order : PlacedOrder) (price : ℚ) :
    (db.apply (.addOrder now market order)).exitHandledSize .exact slug outcome price ≤
      db.exitHandledSize .exact slug outcome price +
        if OfRung slug outcome price (orderRow now market order) then
          handledSize (orderRow now market order) else 0 := by
  rw [exitHandledSize_eq, exitHandledSize_eq]
  change rungSize (db.orders.rows.filter _ ++ [orderRow now market order]) slug outcome price ≤ _
  rw [rungSize_append, rungSize_cons, rungSize_none (fun _ h => absurd h List.not_mem_nil), add_zero]
  refine add_le_add ?_ (le_refl _)
  refine List.Sublist.sum_le_sum ((List.filter_sublist.filter _).map _) fun a ha => ?_
  obtain ⟨r, hr, rfl⟩ := List.mem_map.mp ha
  obtain ⟨hr, hrung⟩ := List.mem_filter.mp hr
  obtain ⟨hslug, houtcome, hrole, -⟩ := of_decide_eq_true hrung
  exact h r hr hslug houtcome hrole

def Settles (status : String) : Prop :=
  status ∈ activeExitStates ∨ status = "matched" ∨ status = "filled"

instance (status : String) : Decidable (Settles status) :=
  inferInstanceAs (Decidable (_ ∨ _ ∨ _))

/-- A new order counts its size at most, and its whole size where its status
says what became of it. -/
theorem handledSize_orderRow (now : ℤ) (slug : String) (order : PlacedOrder) (hsize : 0 ≤ order.size) :
    0 ≤ handledSize (orderRow now slug order) ∧ handledSize (orderRow now slug order) ≤ order.size ∧
      (Settles order.status → handledSize (orderRow now slug order) = order.size) := by
  by_cases hfull : order.status = "matched" ∨ order.status = "filled"
  · have hactive : order.status ∉ activeExitStates := by
      rcases hfull with h | h <;> rw [h] <;> decide
    have hfailed : order.status ≠ "failed" := by
      rcases hfull with h | h <;> rw [h] <;> decide
    have hwhole : handledSize (orderRow now slug order) = order.size := by
      simp [handledSize, orderRow, initialMatched, hfull, hactive, hfailed]
    exact ⟨hwhole ▸ hsize, hwhole.le, fun _ => hwhole⟩
  · have hmatched : initialMatched order = 0 := if_neg hfull
    by_cases hactive : order.status ∈ activeExitStates
    · have hwhole : handledSize (orderRow now slug order) = order.size := by
        simp [handledSize, orderRow, restingSize, hmatched, hactive, hsize]
      exact ⟨hwhole ▸ hsize, hwhole.le, fun _ => hwhole⟩
    · have hunknown : ¬ Settles order.status := fun h => h.elim hactive hfull
      by_cases hfailed : order.status = "failed"
      · have hwhole : handledSize (orderRow now slug order) = order.size := by
          have hdecided : "failed" ∉ activeExitStates := by decide
          simp [handledSize, orderRow, hmatched, hfailed, hdecided]
        exact ⟨hwhole ▸ hsize, hwhole.le, fun _ => hwhole⟩
      · have hnone : handledSize (orderRow now slug order) = 0 := by
          simp [handledSize, orderRow, hmatched, hactive, hfailed]
        exact ⟨hnone.ge, hnone.trans_le hsize, fun h => absurd h hunknown⟩

end Database

namespace Service

section Rungs

variable {x : Exchange} {row : OrderRow} {answers : LadderAnswers}

/-- A rung's order is an exit of the entry's outcome at the rung's price and
size, placed or not. -/
theorem rungOrder_terms {price size : ℚ} {rung : ExitAnswers} {order : PlacedOrder}
    (h : RungOrder x row price size rung order) :
    order.outcome = row.outcome ∧ order.price = price ∧ order.size = size ∧ order.role = .exit := by
  rcases h with h | rfl
  · unfold exitOrder at h
    split at h
    · rename_i placed hplaced
      obtain rfl := Except.ok.inj h
      unfold Exchange.placeExit at hplaced
      split at hplaced
      · cases hplaced
      · split at hplaced
        · obtain rfl := Except.ok.inj hplaced
          exact ⟨rfl, rfl, rfl, rfl⟩
        · cases hplaced
    · split at h
      · rename_i placed hplaced
        obtain rfl := Except.ok.inj h
        unfold Exchange.reconcileAmbiguousExit at hplaced
        repeat' split at hplaced
        all_goals try cases hplaced
        obtain ⟨orderId, -, rfl⟩ := Option.map_eq_some_iff.mp (Except.ok.inj hplaced)
        exact ⟨rfl, rfl, rfl, rfl⟩
      · cases h
      · cases h
  · exact ⟨rfl, rfl, rfl, rfl⟩

/-- The rule for a ladder: what holds with some rungs still to come, kept as
each is skipped, written down or failed. -/
theorem placeRungs_keeps {s : Service} {minSize : ℚ} {P : List (ExitTarget × ℚ) → Bot → Prop}
    (hskip : ∀ rung rungs t, P (rung :: rungs) t → P rungs t)
    (hfail : ∀ rungs t error, P rungs t →
      P rungs (Store.apply t (.write (.setMarketState row.slug .exitError error))))
    (hadd : ∀ target pending rungs t size order now, P ((target, pending) :: rungs) t →
      size ≤ pending → (0 ≤ pending → 0 ≤ size) →
      RungOrder x row target.price size (answers.rung row target) order →
      P rungs (Store.apply t (.write (.addOrder now row.slug order))))
    {available : ℚ} {rungs : List (ExitTarget × ℚ)} {t : Bot} (havailable : 0 ≤ available)
    (h : P rungs t) : Safe (fun _ _ => True) (s.placeRungs x row minSize answers available rungs)
      (fun _ => P []) (fun _ => P []) t := by
  have hdone : ∀ rungs t, P rungs t → P [] t := by
    intro rungs
    induction rungs with
    | nil => exact fun _ h => h
    | cons rung rungs ih => exact fun t h => ih t (hskip rung rungs t h)
  induction rungs generalizing available t with
  | nil => exact safe_return () h
  | cons rung rungs ih =>
    obtain ⟨target, pending⟩ := rung
    unfold placeRungs
    split
    · exact ih havailable (hskip _ _ _ h)
    · have hpending : min pending available ≤ pending := min_le_left _ _
      have hnonneg : 0 ≤ pending → 0 ≤ min pending available := fun hp => le_min hp havailable
      have hadds : ∀ order now u, RungOrder x row target.price (min pending available)
          (answers.rung row target) order → P ((target, pending) :: rungs) u →
          Safe (fun _ _ => True) (Action.addOrder now row.slug order) (fun _ => P rungs)
            (fun _ => P []) u := by
        intro order now u horder hu
        unfold Action.addOrder Action.query
        simp only [bind_eq]
        refine safe_andThen (q := fun _ t => P ((target, pending) :: rungs) t) (safe_read _ hu)
          fun known t' ht' => ?_
        split
        · exact safe_commit _ trivial (hadd target pending rungs t' _ order now ht' hpending hnonneg horder)
        · exact safe_raise _ (hdone _ _ ht')
      have hrung : Safe (fun _ _ => True) (placeExitRung x row target.price (min pending available)
          (answers.rung row target)) (fun _ => P rungs) (fun _ => P []) t := by
        unfold placeExitRung
        simp only [bind_eq]
        refine safe_andThen (q := fun _ t => P ((target, pending) :: rungs) t)
          (safe_commit _ trivial h) fun _ u hu => ?_
        cases horder : exitOrder x row target.price (min pending available) (answers.rung row target) with
        | ok order =>
          exact safe_andThen (hadds order _ u (.inl horder) hu) fun _ _ ht => safe_return true ht
        | error error =>
          refine safe_andThen (hadds _ _ u (.inr rfl) hu) fun _ t' ht' => ?_
          exact safe_andThen (safe_commit _ trivial (hfail rungs t' _ ht'))
            fun _ _ ht => safe_return false ht
      simp only [bind_eq]
      refine safe_andThen hrung fun placed u hu => ?_
      have hleft : 0 ≤ if placed = true then s.decimals.sub available (min pending available)
          else available := by
        have hle : min pending available ≤ available := min_le_right _ _
        split
        · exact s.decimals.round_nonneg (sub_nonneg.mpr hle)
        · exact havailable
      generalize (if placed = true then s.decimals.sub available (min pending available)
        else available) = left at hleft ⊢
      split
      · exact safe_return () (hdone rungs u hu)
      · exact ih hleft hu

end Rungs

variable (s : Service) (x : Exchange) (nowTs : ℤ) (answers : LadderAnswers)

/-- No rung of the entry has been taken past its share. -/
structure WithinShares (row : OrderRow) (db : Database) : Prop where
  counts : db.Counts row.slug row.outcome
  shares : ∀ target ∈ s.plan.exitTargets,
    db.exitHandledSize .exact row.slug row.outcome target.price ≤ row.matchedSize * target.fraction

variable {s x nowTs answers} {row : OrderRow}

/-- A new exit within what its rung has left takes no rung past its share. -/
theorem WithinShares.put {db : Database} (h : WithinShares s row db) {now : ℤ} {slug : String}
    {order : PlacedOrder} (hsize : 0 ≤ order.size)
    (hroom : ∀ target ∈ s.plan.exitTargets,
      Database.OfRung row.slug row.outcome target.price (Database.orderRow now slug order) →
      db.exitHandledSize .exact row.slug row.outcome target.price + order.size ≤
        row.matchedSize * target.fraction) :
    WithinShares s row (db.apply (.addOrder now slug order)) := by
  obtain ⟨hpos, hwhole, -⟩ := Database.handledSize_orderRow now slug order hsize
  refine ⟨fun r hr hslug houtcome hrole => ?_, fun target htarget => ?_⟩
  · rcases (Table.mem_put _ _ _).mp hr with rfl | ⟨hr, -⟩
    · exact hpos
    · exact h.counts r hr hslug houtcome hrole
  · have hput := Database.exitHandledSize_put_le h.counts now slug order target.price
    by_cases hrung : Database.OfRung row.slug row.outcome target.price (Database.orderRow now slug order)
    · rw [if_pos hrung] at hput
      have hleft := hroom target htarget hrung
      linarith
    · rw [if_neg hrung, add_zero] at hput
      exact hput.trans (h.shares target htarget)

/-- What is left of the rungs still to come. -/
structure Rungs (s : Service) (row : OrderRow) (rungs : List (ExitTarget × ℚ)) (db : Database) :
    Prop where
  within : WithinShares s row db
  room : ∀ rung ∈ rungs, rung.1 ∈ s.plan.exitTargets ∧ 0 ≤ rung.2 ∧
    db.exitHandledSize .exact row.slug row.outcome rung.1.price + rung.2 ≤ row.matchedSize * rung.1.fraction
  prices : (rungs.map fun rung => rung.1.price).Nodup

theorem mem_pendingTargets (hexact : s.decimals = .exact) {db : Database} {minSize : ℚ}
    {rung : ExitTarget × ℚ} :
    rung ∈ s.pendingTargets db row minSize ↔ rung.1 ∈ s.plan.exitTargets ∧
      rung.2 = row.matchedSize * rung.1.fraction -
        db.exitHandledSize .exact row.slug row.outcome rung.1.price ∧ minSize ≤ rung.2 := by
  unfold pendingTargets
  rw [hexact, List.mem_filter, List.mem_map]
  simp only [Decimals.exact_sub, Decimals.exact_mul]
  constructor
  · rintro ⟨⟨target, htarget, rfl⟩, hmin⟩
    exact ⟨htarget, rfl, of_decide_eq_true hmin⟩
  · rintro ⟨htarget, hpending, hmin⟩
    exact ⟨⟨rung.1, htarget, by rw [← hpending]⟩, decide_eq_true hmin⟩

theorem rungs_pending (hexact : s.decimals = .exact) (hplan : s.plan.Valid) {db : Database} (h : WithinShares s row db)
    (minSize : ℚ) : Rungs s row (s.pendingTargets db row minSize) db := by
  refine ⟨h, fun rung hrung => ?_, ?_⟩
  · obtain ⟨htarget, hpending, -⟩ := (mem_pendingTargets hexact).mp hrung
    have hshare := h.shares rung.1 htarget
    exact ⟨htarget, by linarith, by linarith⟩
  · refine List.Nodup.sublist (List.filter_sublist.map _) ?_
    rw [List.map_map]
    exact hplan.prices

/-- The entry's own ladder takes no rung past its share. -/
theorem placeRungs_shares (hplan : s.plan.Valid) {minSize available : ℚ}
    {rungs : List (ExitTarget × ℚ)} {t : Bot} (havailable : 0 ≤ available)
    (h : Rungs s row rungs t.database) :
    Safe (fun _ _ => True) (s.placeRungs x row minSize answers available rungs)
      (fun _ t => WithinShares s row t.database) (fun _ t => WithinShares s row t.database) t := by
  refine (placeRungs_keeps (P := fun rungs t => Rungs s row rungs t.database) ?_ ?_ ?_ havailable
    h).mono (fun _ _ h => h.within) fun _ _ h => h.within
  · intro rung rungs t h
    exact ⟨h.within, fun rung' h' => h.room rung' (List.mem_cons_of_mem _ h'),
      (List.nodup_cons.mp h.prices).2⟩
  · intro rungs t error h
    exact ⟨⟨h.within.counts, h.within.shares⟩, h.room, h.prices⟩
  · intro target pending rungs t size order now h hsize hnonneg horder
    obtain ⟨houtcome, hprice, hordered, hrole⟩ := rungOrder_terms horder
    obtain ⟨htarget, hpending, hroom⟩ := h.room _ List.mem_cons_self
    obtain ⟨hlater, hprices⟩ := List.nodup_cons.mp h.prices
    have hpos : 0 ≤ order.size := hordered ▸ hnonneg hpending
    refine ⟨h.within.put hpos fun target' htarget' hrung => ?_, fun rung hrung => ?_, hprices⟩
    · -- only the rung submitted for is of that price
      have hsame : target' = target :=
        List.inj_on_of_nodup_map hplan.prices htarget' htarget (hrung.2.2.2.symm.trans hprice)
      rw [hsame, hordered]
      simp only at hroom
      linarith
    · obtain ⟨htarget', hpending', hroom'⟩ := h.room rung (List.mem_cons_of_mem _ hrung)
      refine ⟨htarget', hpending', le_trans (add_le_add ?_ (le_refl _)) hroom'⟩
      have hother : ¬ Database.OfRung row.slug row.outcome rung.1.price
          (Database.orderRow now row.slug order) := by
        intro hrung'
        exact hlater (List.mem_map.mpr ⟨rung, hrung, hrung'.2.2.2.symm.trans hprice⟩)
      have hput := Database.exitHandledSize_put_le h.within.counts now row.slug order rung.1.price
      rw [if_neg hother, add_zero] at hput
      exact hput

/-- Another outcome's ladder leaves the entry's rungs as they are. -/
theorem placeRungs_others {row' : OrderRow} {minSize available : ℚ} {rungs : List (ExitTarget × ℚ)}
    {t : Bot} (hother : ¬ (row'.slug = row.slug ∧ row'.outcome = row.outcome))
    (havailable : 0 ≤ available) (h : WithinShares s row t.database) :
    Safe (fun _ _ => True) (s.placeRungs x row' minSize answers available rungs)
      (fun _ t => WithinShares s row t.database) (fun _ t => WithinShares s row t.database) t := by
  refine placeRungs_keeps (P := fun _ t => WithinShares s row t.database) (fun _ _ _ h => h) ?_ ?_
    havailable h
  · exact fun _ _ _ h => ⟨h.counts, h.shares⟩
  · intro target pending rungs t size order now h hsize hnonneg horder
    obtain ⟨houtcome, -, -, -⟩ := rungOrder_terms horder
    have hnone : ∀ price, ¬ Database.OfRung row.slug row.outcome price
        (Database.orderRow now row'.slug order) :=
      fun price hrung => hother ⟨hrung.1, houtcome.symm.trans hrung.2.1⟩
    refine ⟨fun r hr hslug houtcome' hrole => ?_, fun target' htarget' => ?_⟩
    · rcases (Table.mem_put _ _ _).mp hr with rfl | ⟨hr, -⟩
      · exact absurd ⟨hslug, houtcome.symm.trans houtcome'⟩ hother
      · exact h.counts r hr hslug houtcome' hrole
    · have hput := Database.exitHandledSize_put_le h.counts now row'.slug order target'.price
      rw [if_neg (hnone _), add_zero] at hput
      exact hput.trans (h.shares target' htarget')

theorem placeLadder_shares (hexact : s.decimals = .exact) (hplan : s.plan.Valid) {entry : OrderRow × MarketRow} {t : Bot}
    (hown : entry.1.slug = row.slug ∧ entry.1.outcome = row.outcome → entry.1 = row)
    (h : WithinShares s row t.database) :
    Safe (fun _ _ => True) (s.placeLadder x nowTs answers entry)
      (fun _ t => WithinShares s row t.database) (fun _ t => WithinShares s row t.database) t := by
  obtain ⟨row', market⟩ := entry
  unfold placeLadder Action.query
  simp only [bind_eq]
  split
  · exact safe_return () h
  · refine safe_andThen (q := fun pending (t : Bot) =>
      pending = s.pendingTargets t.database row' market.minSize ∧ WithinShares s row t.database)
      (safe_read _ ⟨rfl, h⟩) fun pending t ht => ?_
    split
    · exact safe_return () ht.2
    · refine safe_andThen (q := fun _ u => u = t) (safe_answer _ (fun _ _ => rfl) fun _ _ => ht.2)
        fun balance u hu => ?_
      subst hu
      refine safe_andThen (q := fun _ u' => u' = u) (safe_read _ rfl) fun reserved u' hu' => ?_
      subst hu'
      have havailable : 0 ≤ max 0 (s.decimals.sub balance reserved) := le_max_left _ _
      split
      · exact safe_return () ht.2
      · by_cases hsame : row'.slug = row.slug ∧ row'.outcome = row.outcome
        · obtain rfl : row' = row := hown hsame
          rw [ht.1]
          exact placeRungs_shares hplan havailable (rungs_pending hexact hplan ht.2 market.minSize)
        · exact placeRungs_others hsame havailable ht.2

/-- A pass takes no rung of the outcome's one entry past its share. -/
theorem placeMissingExits_shares (hexact : s.decimals = .exact) (hplan : s.plan.Valid) {b : Bot} {entry : OrderRow × MarketRow}
    (honly : ∀ other ∈ b.database.entryOrdersWithFills,
      other.1.slug = entry.1.slug ∧ other.1.outcome = entry.1.outcome → other = entry)
    (h : WithinShares s entry.1 b.database) :
    WithinShares s entry.1 ((s.placeMissingExits x nowTs answers).after b).database := by
  have hloop : Safe (fun _ _ => True)
      (forEach b.database.entryOrdersWithFills (s.placeLadder x nowTs answers))
      (fun _ t => WithinShares s entry.1 t.database) (fun _ t => WithinShares s entry.1 t.database) b := by
    refine safe_forEach (fun t : Bot => WithinShares s entry.1 t.database) (fun other hother t ht => ?_) h
    exact placeLadder_shares hexact hplan (fun hsame => congrArg Prod.fst (honly other hother hsame)) ht
  have hend := hloop.at_end
  rw [after, placeMissingExits_commits]
  exact hend

/-- Nor is the whole ladder offered more than was filled. -/
theorem WithinShares.total (hplan : s.plan.Valid) {db : Database} (h : WithinShares s row db)
    (hfilled : 0 ≤ row.matchedSize) :
    (s.plan.exitTargets.map fun target =>
      db.exitHandledSize .exact row.slug row.outcome target.price).sum ≤ row.matchedSize := by
  calc (s.plan.exitTargets.map fun target =>
        db.exitHandledSize .exact row.slug row.outcome target.price).sum
      ≤ (s.plan.exitTargets.map fun target => row.matchedSize * target.fraction).sum :=
        List.sum_le_sum h.shares
    _ = row.matchedSize * (s.plan.exitTargets.map ExitTarget.fraction).sum := by
        rw [List.sum_map_mul_left]
    _ ≤ row.matchedSize := mul_le_of_le_one_right hfilled hplan.total

def Taken (x : Exchange) (answers : LadderAnswers) (rung : OrderRow × ExitTarget × ℚ)
    (order : PlacedOrder) : Prop :=
  x.placeExit rung.1.outcome rung.1.tokenId rung.2.1.price rung.2.2
    (answers.rung rung.1 rung.2.1).response = .ok order ∧ Database.Settles order.status

def RungRow (row : OrderRow) (rung : ExitTarget × ℚ) (r : OrderRow) : Prop :=
  Database.OfRung row.slug row.outcome rung.1.price r ∧ Database.handledSize r = rung.2

/-- What a pass has added: exits under new ids, on the books as they were. -/
structure Added (t t' : Bot) (news : List OrderRow) : Prop where
  rows : t'.database.orders.rows = t.database.orders.rows ++ news
  markets : t'.database.markets = t.database.markets

theorem Added.append {t t' t'' : Bot} {news news' : List OrderRow} (h : Added t t' news)
    (h' : Added t' t'' news') : Added t t'' (news ++ news') := by
  refine ⟨?_, h'.markets.trans h.markets⟩
  rw [h'.rows, h.rows, List.append_assoc]

/-- A rung that was taken is a new row for all it asked. -/
theorem placeExitRung_taken {target : ExitTarget} {size : ℚ} {order : PlacedOrder} {t : Bot}
    (hsize : 0 ≤ size) (htaken : Taken x answers (row, target, size) order)
    (hmarket : t.database.hasMarket row.slug = true)
    (hnew : ∀ r ∈ t.database.orders.rows, r.orderId ≠ order.orderId) :
    (placeExitRung x row target.price size (answers.rung row target)).result t = .ok true ∧
      ∃ r, Added t ((placeExitRung x row target.price size (answers.rung row target)).after t) [r] ∧
        RungRow row (target, size) r ∧ r.orderId = order.orderId := by
  obtain ⟨hplaced, hsettles⟩ := htaken
  have horder : exitOrder x row target.price size (answers.rung row target) = .ok order := by
    unfold exitOrder
    rw [hplaced]
  obtain ⟨houtcome, hprice, hordered, hrole⟩ := rungOrder_terms (.inl horder)
  obtain ⟨-, -, hwhole⟩ := Database.handledSize_orderRow (answers.rung row target).now row.slug order
    (hordered ▸ hsize)
  have hkept : (Store.apply t (Effect.submitExit row.tokenId target.price size)).database = t.database :=
    rfl
  obtain ⟨hresult, hafter⟩ := Action.addOrder_known (o := order)
    (hkept.symm ▸ hmarket)
  unfold placeExitRung
  simp only [bind_eq]
  rw [result_andThen_ok (result_commit _ _), after_andThen_ok (result_commit _ _), after_commit, horder]
  rw [result_andThen_ok hresult, after_andThen_ok hresult]
  refine ⟨rfl, Database.orderRow (answers.rung row target).now row.slug order, ⟨?_, ?_⟩, ⟨⟨rfl, houtcome,
    hrole, hprice⟩, (hwhole hsettles).trans hordered⟩, rfl⟩
  · rw [after_return, hafter, hkept]
    change t.database.orders.rows.filter _ ++ [_] = _
    rw [List.filter_eq_self.mpr]
    intro r hr
    exact decide_eq_true (hnew r hr)
  · rw [after_return, hafter, hkept]
    rfl

/-- Every rung of a ladder that was taken is a new row for all it asked. -/
theorem placeRungs_taken (hexact : s.decimals = .exact) {minSize available : ℚ} {rungs : List (ExitTarget × ℚ)}
    {orders : List PlacedOrder} {t : Bot} (hmin : 0 < minSize)
    (hpending : ∀ rung ∈ rungs, minSize ≤ rung.2)
    (hcovers : (rungs.map Prod.snd).sum ≤ available)
    (htaken : List.Forall₂ (fun rung order => Taken x answers (row, rung) order) rungs orders)
    (hnew : (t.database.orders.rows.map OrderRow.orderId ++ orders.map PlacedOrder.orderId).Nodup)
    (hmarket : t.database.hasMarket row.slug = true) :
    (s.placeRungs x row minSize answers available rungs).result t = .ok () ∧
      ∃ news, Added t ((s.placeRungs x row minSize answers available rungs).after t) news ∧
        List.Forall₂ (RungRow row) rungs news ∧
        news.map OrderRow.orderId = orders.map PlacedOrder.orderId := by
  induction htaken generalizing available t with
  | nil =>
    exact ⟨rfl, [], ⟨(List.append_nil _).symm, rfl⟩, .nil, rfl⟩
  | @cons rung order rungs orders hfirst hrest ih =>
    obtain ⟨target, pending⟩ := rung
    have hleast : minSize ≤ pending := hpending _ List.mem_cons_self
    have hlater : ∀ rung ∈ rungs, minSize ≤ rung.2 :=
      fun rung hrung => hpending rung (List.mem_cons_of_mem _ hrung)
    have hpos : 0 ≤ (rungs.map Prod.snd).sum := by
      refine List.sum_nonneg fun p hp => ?_
      obtain ⟨rung, hrung, rfl⟩ := List.mem_map.mp hp
      exact hmin.le.trans (hlater rung hrung)
    rw [List.map_cons, List.sum_cons] at hcovers
    have hwhole : min pending available = pending := min_eq_left (by linarith)
    obtain ⟨hresult, r, hadded, hrow, hid⟩ := placeExitRung_taken (hmin.le.trans hleast) hfirst hmarket
      fun r hr hsame => by
        have hdisjoint := (List.nodup_append.mp hnew).2.2
        exact hdisjoint _ (List.mem_map_of_mem hr) _ (List.mem_map_of_mem List.mem_cons_self) hsame
    unfold placeRungs
    rw [if_neg (by rw [hwhole]; exact not_lt.mpr hleast)]
    simp only [bind_eq]
    rw [hwhole, result_andThen_ok hresult, after_andThen_ok hresult, if_pos rfl, hexact,
      Decimals.exact_sub]
    by_cases hlast : available - pending < minSize
    · -- what is left is short of the minimum only when no rung is to come
      have hnone : rungs = [] := by
        cases rungs with
        | nil => rfl
        | cons rung rungs =>
          rw [List.map_cons, List.sum_cons] at hcovers hpos
          have hnonneg : 0 ≤ (rungs.map Prod.snd).sum := by
            refine List.sum_nonneg fun p hp => ?_
            obtain ⟨rung, hrung, rfl⟩ := List.mem_map.mp hp
            exact hmin.le.trans (hlater rung (List.mem_cons_of_mem _ hrung))
          have hnext := hlater rung List.mem_cons_self
          linarith
      subst hnone
      obtain rfl : orders = [] := List.forall₂_nil_left_iff.mp hrest
      rw [if_pos hlast]
      exact ⟨rfl, [r], hadded, .cons hrow .nil, by simp [hid]⟩
    · rw [if_neg hlast]
      obtain ⟨hdone, news, hadded', hrows, hids⟩ := ih hlater
        (show (rungs.map Prod.snd).sum ≤ available - pending by linarith) (by
          rw [hadded.rows, List.map_append, List.append_assoc]
          simpa [hid] using hnew) (by
          unfold Database.hasMarket at hmarket ⊢
          rw [hadded.markets]
          exact hmarket)
      exact ⟨hdone, r :: news, hadded.append hadded', .cons hrow hrows, by simp [hid, hids]⟩

def Due (s : Service) (nowTs : ℤ) (entry : OrderRow × MarketRow) : Prop :=
  nowTs < entry.2.endTs - s.cancelBeforeEndSeconds

instance (entry : OrderRow × MarketRow) : Decidable (Due s nowTs entry) :=
  inferInstanceAs (Decidable (nowTs < entry.2.endTs - s.cancelBeforeEndSeconds))

def rungsDue (s : Service) (nowTs : ℤ) (db : Database) (entries : List (OrderRow × MarketRow)) :
    List (OrderRow × ExitTarget × ℚ) :=
  entries.flatMap fun entry =>
    if Due s nowTs entry then
      (s.pendingTargets db entry.1 entry.2.minSize).map fun rung => (entry.1, rung)
    else []

/-- Settled inventory covers all that is pending for the entry, none of it past
its share. -/
structure Covers (s : Service) (answers : LadderAnswers) (db : Database)
    (entry : OrderRow × MarketRow) : Prop where
  minSize : 0 < entry.2.minSize
  shares : ∀ target ∈ s.plan.exitTargets,
    db.exitHandledSize .exact entry.1.slug entry.1.outcome target.price ≤ entry.1.matchedSize * target.fraction
  balance : s.pendingTargets db entry.1 entry.2.minSize ≠ [] →
    ∃ balance, answers.balance entry.1 = .ok balance ∧
      ((s.pendingTargets db entry.1 entry.2.minSize).map Prod.snd).sum ≤
        s.freeBalance db entry.1 balance

def Sold (s : Service) (db : Database) (entry : OrderRow × MarketRow) : Prop :=
  ∀ target ∈ s.plan.exitTargets,
    entry.1.matchedSize * target.fraction - entry.2.minSize <
        db.exitHandledSize .exact entry.1.slug entry.1.outcome target.price ∧
      db.exitHandledSize .exact entry.1.slug entry.1.outcome target.price ≤
        entry.1.matchedSize * target.fraction

/-- Nothing is pending exactly when every rung is within the minimum. -/
theorem pendingTargets_nil (hexact : s.decimals = .exact) {db : Database} {minSize : ℚ} :
    s.pendingTargets db row minSize = [] ↔ ∀ target ∈ s.plan.exitTargets,
      row.matchedSize * target.fraction - minSize <
        db.exitHandledSize .exact row.slug row.outcome target.price := by
  rw [List.eq_nil_iff_forall_not_mem]
  constructor
  · intro h target htarget
    by_contra hfar
    refine h (target, row.matchedSize * target.fraction -
      db.exitHandledSize .exact row.slug row.outcome target.price) 
      ((mem_pendingTargets hexact).mpr ⟨htarget, rfl, ?_⟩)
    simp only
    linarith [not_lt.mp hfar]
  · intro h rung hrung
    obtain ⟨htarget, hpending, hmin⟩ := (mem_pendingTargets hexact).mp hrung
    have hnear := h rung.1 htarget
    linarith

/-- The rows of a taken ladder count, for a rung that was pending, all it asked,
and nothing for the others. -/
theorem rungSize_taken {rungs : List (ExitTarget × ℚ)} {news : List OrderRow}
    (h : List.Forall₂ (RungRow row) rungs news) (hprices : (rungs.map fun rung => rung.1.price).Nodup) :
    (∀ rung ∈ rungs, Database.rungSize news row.slug row.outcome rung.1.price = rung.2) ∧
      ∀ price, price ∉ (rungs.map fun rung => rung.1.price) →
        Database.rungSize news row.slug row.outcome price = 0 := by
  induction h with
  | nil => exact ⟨fun _ hrung => absurd hrung List.not_mem_nil, fun _ _ => rfl⟩
  | @cons rung r rungs news hrow _ ih =>
    obtain ⟨hfirst, hlater⟩ := List.nodup_cons.mp hprices
    obtain ⟨hsame, hother⟩ := ih hlater
    obtain ⟨hrung, hsize⟩ := hrow
    refine ⟨fun rung' hrung' => ?_, fun price hprice => ?_⟩
    · rw [Database.rungSize_cons]
      rcases List.mem_cons.mp hrung' with rfl | hrung'
      · rw [if_pos hrung, hsize, hother _ hfirst, add_zero]
      · rw [if_neg, zero_add, hsame rung' hrung']
        intro hrow
        exact hfirst (List.mem_map.mpr ⟨rung', hrung', hrow.2.2.2.symm.trans hrung.2.2.2⟩)
    · rw [List.map_cons, List.mem_cons, not_or] at hprice
      rw [Database.rungSize_cons, if_neg, zero_add, hother price hprice.2]
      exact fun hrow => hprice.1 (hrow.2.2.2.symm.trans hrung.2.2.2)

/-- A due entry whose ladder is taken ends with every rung within the minimum
of its share. -/
theorem placeLadder_taken (hexact : s.decimals = .exact) (hplan : s.plan.Valid) {entry : OrderRow × MarketRow} {t : Bot}
    {orders : List PlacedOrder} (hdue : Due s nowTs entry) (hcovers : Covers s answers t.database entry)
    (htaken : List.Forall₂ (fun rung order => Taken x answers (entry.1, rung) order)
      (s.pendingTargets t.database entry.1 entry.2.minSize) orders)
    (hnew : (t.database.orders.rows.map OrderRow.orderId ++ orders.map PlacedOrder.orderId).Nodup)
    (hmarket : t.database.hasMarket entry.1.slug = true) :
    (s.placeLadder x nowTs answers entry).result t = .ok () ∧
      ∃ news, Added t ((s.placeLadder x nowTs answers entry).after t) news ∧
        (∀ r ∈ news, r.slug = entry.1.slug ∧ r.outcome = entry.1.outcome ∧ r.role = .exit) ∧
        news.map OrderRow.orderId = orders.map PlacedOrder.orderId ∧
        Sold s ((s.placeLadder x nowTs answers entry).after t).database entry := by
  obtain ⟨row, market⟩ := entry
  unfold placeLadder Action.query
  simp only [bind_eq]
  rw [if_neg (not_le.mpr hdue), result_andThen_ok (result_read _ _), after_andThen_ok (result_read _ _),
    after_read]
  split
  · rename_i hnone
    simp only at htaken hnone
    rw [hnone] at htaken
    obtain rfl := List.forall₂_nil_left_iff.mp htaken
    refine ⟨rfl, [], ⟨(List.append_nil _).symm, rfl⟩, fun r hr => absurd hr List.not_mem_nil, rfl, ?_⟩
    intro target htarget
    exact ⟨(pendingTargets_nil hexact).mp hnone target htarget, hcovers.shares target htarget⟩
  · rename_i hsome
    obtain ⟨balance, hbalance, hcovered⟩ := hcovers.balance hsome
    have hfree : ((s.pendingTargets t.database row market.minSize).map Prod.snd).sum ≤ max 0
        (s.decimals.sub balance (t.database.activeExitReservedSize s.decimals row.slug row.outcome)) :=
      hcovered
    rw [result_andThen_ok (a := balance) (by rw [result_answer]; exact hbalance),
      after_andThen_ok (a := balance) (by rw [result_answer]; exact hbalance), after_answer,
      result_andThen_ok (result_read _ _), after_andThen_ok (result_read _ _), after_read]
    have hpending : ∀ rung ∈ s.pendingTargets t.database row market.minSize, market.minSize ≤ rung.2 :=
      fun rung hrung => ((mem_pendingTargets hexact).mp hrung).2.2
    have hprices : ((s.pendingTargets t.database row market.minSize).map
        fun rung => rung.1.price).Nodup := by
      refine List.Nodup.sublist (List.filter_sublist.map _) ?_
      rw [List.map_map]
      exact hplan.prices
    have henough : ¬ max 0 (s.decimals.sub balance
        (t.database.activeExitReservedSize s.decimals row.slug row.outcome)) < market.minSize := by
      obtain ⟨rung, hrung⟩ := List.exists_mem_of_ne_nil _ hsome
      have hone : rung.2 ≤ ((s.pendingTargets t.database row market.minSize).map Prod.snd).sum := by
        refine List.single_le_sum (fun p hp => ?_) _ (List.mem_map_of_mem hrung)
        obtain ⟨rung', hrung', rfl⟩ := List.mem_map.mp hp
        exact hcovers.minSize.le.trans (hpending rung' hrung')
      exact not_lt.mpr ((hpending rung hrung).trans (hone.trans hfree))
    rw [if_neg henough]
    obtain ⟨hdone, news, hadded, hrows, hids⟩ := placeRungs_taken hexact hcovers.minSize hpending
      hfree htaken hnew hmarket
    refine ⟨hdone, news, hadded, fun r hr => ?_, hids, fun target htarget => ?_⟩
    · obtain ⟨rung, -, hrung⟩ := Results.exists_left hrows hr
      exact ⟨hrung.1.1, hrung.1.2.1, hrung.1.2.2.1⟩
    · obtain ⟨hsold, hnothing⟩ := rungSize_taken hrows hprices
      rw [Database.exitHandledSize_eq, hadded.rows, Database.rungSize_append,
        ← Database.exitHandledSize_eq]
      have hwithin := hcovers.shares target htarget
      by_cases hfar : market.minSize ≤ row.matchedSize * target.fraction -
          t.database.exitHandledSize .exact row.slug row.outcome target.price
      · rw [hsold (target, _) ((mem_pendingTargets hexact).mpr ⟨htarget, rfl, hfar⟩)]
        have hmin := hcovers.minSize
        constructor <;> simp only <;> linarith
      · rw [hnothing, add_zero]
        · exact ⟨by simp only; linarith [not_le.mp hfar], hwithin⟩
        · intro hprice
          obtain ⟨rung, hrung, hsame⟩ := List.mem_map.mp hprice
          obtain ⟨htarget', hpending', hmin⟩ := (mem_pendingTargets hexact).mp hrung
          have hrungs : rung.1 = target :=
            List.inj_on_of_nodup_map hplan.prices htarget' htarget hsame
          rw [hpending', hrungs] at hmin
          exact hfar hmin

/-- Exits added are no entries. -/
theorem Added.entries {t t' : Bot} {news : List OrderRow} (h : Added t t' news)
    (hroles : ∀ r ∈ news, r.role = .exit) :
    t'.database.entryOrdersWithFills = t.database.entryOrdersWithFills := by
  have hnone : news.filter (fun r => r.role = .entry ∧ 0 < r.matchedSize) = [] := by
    rw [List.filter_eq_nil_iff]
    intro r hr hentry
    have hrole := (of_decide_eq_true hentry).1
    rw [hroles r hr] at hrole
    cases hrole
  unfold Database.entryOrdersWithFills Database.withMarkets
  rw [h.rows, h.markets, List.filter_append, hnone, List.append_nil]

/-- The outcome's exits are as they were. -/
structure Unmoved (row : OrderRow) (db db' : Database) : Prop where
  handled : ∀ price, db'.exitHandledSize .exact row.slug row.outcome price =
    db.exitHandledSize .exact row.slug row.outcome price
  reserved : db'.activeExitReservedSize .exact row.slug row.outcome =
    db.activeExitReservedSize .exact row.slug row.outcome

/-- New rows of other outcomes leave an outcome's exits as they were. -/
theorem Added.unmoved {t t' : Bot} {news : List OrderRow} (h : Added t t' news)
    (hothers : ∀ r ∈ news, ¬ (r.slug = row.slug ∧ r.outcome = row.outcome)) :
    Unmoved row t.database t'.database := by
  refine ⟨fun price => ?_, ?_⟩
  · have hnone : Database.rungSize news row.slug row.outcome price = 0 :=
      Database.rungSize_none fun r hr hrung => hothers r hr ⟨hrung.1, hrung.2.1⟩
    rw [Database.exitHandledSize_eq, Database.exitHandledSize_eq, h.rows, Database.rungSize_append,
      hnone, add_zero]
  · rw [Database.activeExitReservedSize_eq, Database.activeExitReservedSize_eq]
    have hnone : news.filter (fun r => r.slug = row.slug ∧ r.outcome = row.outcome ∧ r.role = .exit ∧
        r.status ∈ activeExitStates) = [] := by
      rw [List.filter_eq_nil_iff]
      intro r hr hresting
      have hresting := of_decide_eq_true hresting
      exact hothers r hr ⟨hresting.1, hresting.2.1⟩
    rw [h.rows, List.filter_append, hnone, List.append_nil]

theorem Unmoved.pendingTargets (hexact : s.decimals = .exact) {db db' : Database} (h : Unmoved row db db') (minSize : ℚ) :
    s.pendingTargets db' row minSize = s.pendingTargets db row minSize := by
  unfold Service.pendingTargets
  simp only [hexact, h.handled]

theorem Unmoved.covers (hexact : s.decimals = .exact) {db db' : Database} {entry : OrderRow × MarketRow} (h : Unmoved entry.1 db db')
    (hcovers : Covers s answers db entry) : Covers s answers db' entry := by
  refine ⟨hcovers.minSize, fun target htarget => ?_, ?_⟩
  · rw [h.handled]
    exact hcovers.shares target htarget
  · rw [h.pendingTargets hexact]
    have hbalance := hcovers.balance
    unfold freeBalance at hbalance ⊢
    rw [hexact] at hbalance ⊢
    rw [h.reserved]
    exact hbalance

theorem Unmoved.sold {db db' : Database} {entry : OrderRow × MarketRow} (h : Unmoved entry.1 db db')
    (hsold : Sold s db entry) : Sold s db' entry := by
  intro target htarget
  rw [h.handled]
  exact hsold target htarget

/-- The ladders of entries of different outcomes, all of them taken. -/
theorem entries_taken (hexact : s.decimals = .exact) (hplan : s.plan.Valid) {entries : List (OrderRow × MarketRow)} {t : Bot}
    {orders : List PlacedOrder}
    (houtcomes : entries.Pairwise fun e e' => ¬ (e'.1.slug = e.1.slug ∧ e'.1.outcome = e.1.outcome))
    (hcovers : ∀ e ∈ entries, Due s nowTs e → Covers s answers t.database e)
    (htaken : List.Forall₂ (Taken x answers) (rungsDue s nowTs t.database entries) orders)
    (hnew : (t.database.orders.rows.map OrderRow.orderId ++ orders.map PlacedOrder.orderId).Nodup)
    (hmarkets : ∀ e ∈ entries, t.database.hasMarket e.1.slug = true) :
    (forEach entries (s.placeLadder x nowTs answers)).result t = .ok () ∧
      ∃ news, Added t ((forEach entries (s.placeLadder x nowTs answers)).after t) news ∧
        (∀ r ∈ news, r.role = .exit ∧ ∃ e ∈ entries, r.slug = e.1.slug ∧ r.outcome = e.1.outcome) ∧
        ∀ e ∈ entries, Due s nowTs e →
          Sold s ((forEach entries (s.placeLadder x nowTs answers)).after t).database e := by
  induction entries generalizing t orders with
  | nil =>
    exact ⟨rfl, [], ⟨(List.append_nil _).symm, rfl⟩, fun r hr => absurd hr List.not_mem_nil,
      fun e he => absurd he List.not_mem_nil⟩
  | cons entry entries ih =>
    obtain ⟨hothers, hlater⟩ := List.pairwise_cons.mp houtcomes
    have hcovers' := fun e he => hcovers e (List.mem_cons_of_mem entry he)
    have hmarkets' := fun e he => hmarkets e (List.mem_cons_of_mem entry he)
    unfold rungsDue at htaken
    rw [List.flatMap_cons] at htaken
    rw [forEach_cons]
    by_cases hdue : Due s nowTs entry
    · rw [if_pos hdue] at htaken
      obtain ⟨orders₁, orders₂, hhead, htail, rfl⟩ := Results.forall₂_append_left htaken
      rw [List.forall₂_map_left_iff] at hhead
      rw [List.map_append, ← List.append_assoc] at hnew
      obtain ⟨hdone, news, hadded, houtcome, hids, hsold⟩ := placeLadder_taken hexact hplan hdue
        (hcovers entry List.mem_cons_self hdue) hhead (List.nodup_append.mp hnew).1
        (hmarkets entry List.mem_cons_self)
      have hunmoved : ∀ e ∈ entries, Unmoved e.1 t.database
          ((s.placeLadder x nowTs answers entry).after t).database := by
        intro e he
        refine hadded.unmoved fun r hr hsame => hothers e he ?_
        exact ⟨hsame.1.symm.trans (houtcome r hr).1, hsame.2.symm.trans (houtcome r hr).2.1⟩
      have hrungs : rungsDue s nowTs ((s.placeLadder x nowTs answers entry).after t).database entries =
          rungsDue s nowTs t.database entries := by
        unfold rungsDue
        refine List.flatMap_congr fun e he => ?_
        rw [(hunmoved e he).pendingTargets hexact]
      obtain ⟨hdone', news', hadded', hroles, hsold'⟩ := ih hlater
        (fun e he hdue' => (hunmoved e he).covers hexact (hcovers' e he hdue')) (by rw [hrungs]; exact htail)
        (by rw [hadded.rows, List.map_append, hids]; exact hnew) (fun e he => by
          have hmarket := hmarkets' e he
          unfold Database.hasMarket at hmarket ⊢
          rw [hadded.markets]
          exact hmarket)
      rw [result_andThen_ok hdone, after_andThen_ok hdone]
      refine ⟨hdone', news ++ news', hadded.append hadded', fun r hr => ?_, fun e he hdue' => ?_⟩
      · rcases List.mem_append.mp hr with hr | hr
        · obtain ⟨hslug, houtcome, hrole⟩ := houtcome r hr
          exact ⟨hrole, entry, List.mem_cons_self, hslug, houtcome⟩
        · obtain ⟨hrole, e, he, hsame⟩ := hroles r hr
          exact ⟨hrole, e, List.mem_cons_of_mem _ he, hsame⟩
      · rcases List.mem_cons.mp he with rfl | he
        · refine (hadded'.unmoved fun r hr hsame => ?_).sold hsold
          obtain ⟨-, e', he', hslug, houtcome⟩ := hroles r hr
          exact hothers e' he' ⟨hslug.symm.trans hsame.1, houtcome.symm.trans hsame.2⟩
        · exact hsold' e he hdue'
    · rw [if_neg hdue, List.nil_append] at htaken
      have hskip : s.placeLadder x nowTs answers entry = return' () := by
        unfold placeLadder
        exact if_pos (not_lt.mp hdue)
      rw [hskip, result_andThen_ok (result_return _ _), after_andThen_ok (result_return _ _), after_return]
      obtain ⟨hdone, news, hadded, hroles, hsold⟩ := ih hlater hcovers' htaken hnew hmarkets'
      refine ⟨hdone, news, hadded, fun r hr => ?_, fun e he hdue' => ?_⟩
      · obtain ⟨hrole, e, he, hsame⟩ := hroles r hr
        exact ⟨hrole, e, List.mem_cons_of_mem _ he, hsame⟩
      · rcases List.mem_cons.mp he with rfl | he
        · exact absurd hdue' hdue
        · exact hsold e he hdue'

/-- A pass submits nothing when every due entry is within the minimum of all
its shares. -/
theorem placeMissingExits_idle (hexact : s.decimals = .exact) {b : Bot}
    (h : ∀ e ∈ b.database.entryOrdersWithFills, Due s nowTs e → Sold s b.database e) :
    (s.placeMissingExits x nowTs answers).commits b = [] := by
  have hquiet : ∀ e ∈ b.database.entryOrdersWithFills,
      (s.placeLadder x nowTs answers e).result b = .ok () ∧
        (s.placeLadder x nowTs answers e).commits b = [] := by
    intro e he
    obtain ⟨row, market⟩ := e
    unfold placeLadder Action.query
    simp only [bind_eq]
    split
    · exact ⟨rfl, rfl⟩
    · rename_i hdue
      have hnone : s.pendingTargets b.database row market.minSize = [] :=
        (pendingTargets_nil hexact).mpr fun target htarget => (h _ he (not_le.mp hdue) target htarget).1
      rw [result_andThen_ok (result_read _ _), commits_andThen_ok (result_read _ _), after_read, if_pos hnone]
      exact ⟨rfl, rfl⟩
  rw [placeMissingExits_commits]
  exact commits_forEach_nil hquiet

/-- The venue and the account take all a pass has to submit: what settled is
enough, and each rung's order is new to the books, under an id of its own. -/
structure Covered (s : Service) (x : Exchange) (nowTs : ℤ) (answers : LadderAnswers) (db : Database) :
    Prop where
  outcomes : db.entryOrdersWithFills.Pairwise fun e e' =>
    ¬ (e'.1.slug = e.1.slug ∧ e'.1.outcome = e.1.outcome)
  covers : ∀ e ∈ db.entryOrdersWithFills, Due s nowTs e → Covers s answers db e
  taken : ∃ orders, List.Forall₂ (Taken x answers) (rungsDue s nowTs db db.entryOrdersWithFills) orders ∧
    (db.orders.rows.map OrderRow.orderId ++ orders.map PlacedOrder.orderId).Nodup

/-- No pass takes a rung of an outcome's one entry past its share of the fill,
nor the ladder past the fill. A pass that is covered leaves each rung within
the market's minimum of its share, and then another pass submits nothing. -/
theorem take_profit_ladder (s : Service) (x : Exchange) (hexact : s.decimals = .exact)
    (hplan : s.plan.validate .exact = .ok ()) (nowTs : ℤ) (answers : LadderAnswers) (b : Bot) :
    (∀ entry ∈ b.database.entryOrdersWithFills,
      (∀ other ∈ b.database.entryOrdersWithFills,
        other.1.slug = entry.1.slug ∧ other.1.outcome = entry.1.outcome → other = entry) →
      WithinShares s entry.1 b.database →
      (∀ target ∈ s.plan.exitTargets,
        ((s.placeMissingExits x nowTs answers).after b).database.exitHandledSize .exact entry.1.slug
          entry.1.outcome target.price ≤ entry.1.matchedSize * target.fraction) ∧
      (s.plan.exitTargets.map fun target =>
        ((s.placeMissingExits x nowTs answers).after b).database.exitHandledSize .exact entry.1.slug
          entry.1.outcome target.price).sum ≤ entry.1.matchedSize) ∧
    (Covered s x nowTs answers b.database →
      (∀ entry ∈ b.database.entryOrdersWithFills, Due s nowTs entry →
        Sold s ((s.placeMissingExits x nowTs answers).after b).database entry) ∧
      ∀ nowTs' answers', nowTs ≤ nowTs' → (s.placeMissingExits x nowTs' answers').commits
        ((s.placeMissingExits x nowTs answers).after b) = []) := by
  have hvalid := TradePlan.valid_of_validate hplan
  refine ⟨fun entry hentry honly hwithin => ?_, fun hcovered => ?_⟩
  · have hend : WithinShares s entry.1 ((s.placeMissingExits x nowTs answers).after b).database :=
      placeMissingExits_shares hexact hvalid honly hwithin
    obtain ⟨-, hfilled, -⟩ := Database.mem_entryOrdersWithFills.mp hentry
    exact ⟨hend.shares, hend.total hvalid hfilled.2.le⟩
  · obtain ⟨orders, htaken, hnew⟩ := hcovered.taken
    obtain ⟨hdone, news, hadded, hroles, hsold⟩ := entries_taken hexact hvalid hcovered.outcomes hcovered.covers
      htaken hnew fun e he => by
        obtain ⟨-, -, hmarket⟩ := Database.mem_entryOrdersWithFills.mp he
        unfold Database.hasMarket
        rw [hmarket]
        rfl
    have hafter : (s.placeMissingExits x nowTs answers).after b =
        (forEach b.database.entryOrdersWithFills (s.placeLadder x nowTs answers)).after b := by
      rw [after, placeMissingExits_commits]
      rfl
    rw [hafter]
    refine ⟨hsold, fun nowTs' answers' hlater => placeMissingExits_idle hexact fun e he hdue => ?_⟩
    rw [hadded.entries fun r hr => (hroles r hr).1] at he
    exact hsold e he (lt_of_le_of_lt hlater hdue)

end Service

def exactLadder : Service := { ladderService with decimals := .exact }

def ladderTaken : LadderAnswers :=
  ladderAnswers 50 fun price => .ok (acceptedSell (if price = 1 / 5 then "0xe1" else "0xe2"))

def takenExit (orderId : String) (price : ℚ) : PlacedOrder :=
  ⟨orderId, "up", "up-token", price, 20, "live", .sell, .exit, ""⟩

theorem ladderBooks_entries : (ladderBooks []).database.entryOrdersWithFills =
    [(filledEntry, Database.marketRow 1 pairMarket .active)] := by
  decide +kernel

theorem take_profit_ladder_taken :
    (exactLadder.plan.exitTargets.map fun target =>
      ((exactLadder.placeMissingExits pairExchange 0 ladderTaken).after
        (ladderBooks [])).database.exitHandledSize .exact "btc-updown-5m-0" "up" target.price).sum ≤ 40 ∧
    Service.Sold exactLadder
      ((exactLadder.placeMissingExits pairExchange 0 ladderTaken).after (ladderBooks [])).database
      (filledEntry, Database.marketRow 1 pairMarket .active) ∧
    (exactLadder.placeMissingExits pairExchange 0 ladderTaken).commits
      ((exactLadder.placeMissingExits pairExchange 0 ladderTaken).after (ladderBooks [])) = [] := by
  obtain ⟨hwithin, hcovered⟩ := Service.take_profit_ladder exactLadder pairExchange rfl
    (by decide +kernel) 0 ladderTaken (ladderBooks [])
  rw [ladderBooks_entries] at hwithin hcovered
  have hrungs : Service.rungsDue exactLadder 0 (ladderBooks []).database
      [(filledEntry, Database.marketRow 1 pairMarket .active)] =
        [(filledEntry, ⟨1 / 5, 1 / 2⟩, 20), (filledEntry, ⟨3 / 10, 1 / 2⟩, 20)] := by
    decide +kernel
  have hshares : ∀ target ∈ exactLadder.plan.exitTargets,
      (ladderBooks []).database.exitHandledSize .exact "btc-updown-5m-0" "up" target.price ≤
        filledEntry.matchedSize * target.fraction := by
    decide +kernel
  obtain ⟨hsold, hidle⟩ := hcovered
    { outcomes := ladderBooks_entries ▸ List.pairwise_singleton _ _
      covers := fun e he _ => by
        rw [ladderBooks_entries] at he
        obtain rfl := List.mem_singleton.mp he
        exact ⟨by decide +kernel, hshares, fun _ => ⟨50, rfl, by decide +kernel⟩⟩
      taken := ⟨[takenExit "0xe1" (1 / 5), takenExit "0xe2" (3 / 10)], by
        rw [ladderBooks_entries, hrungs]
        exact ⟨.cons ⟨by decide +kernel, by decide⟩ (.cons ⟨by decide +kernel, by decide⟩ .nil),
          by decide +kernel⟩⟩ }
  refine ⟨(hwithin _ List.mem_cons_self ?_ ⟨?_, hshares⟩).2, hsold _ List.mem_cons_self (by decide +kernel),
    hidle 0 ladderTaken (le_refl 0)⟩
  · exact fun other hother _ => List.mem_singleton.mp hother
  · intro r hr _ _ hrole
    have hentry : ∀ r ∈ (ladderBooks []).database.orders.rows, r.role ≠ .exit := by decide +kernel
    exact absurd hrole (hentry r hr)

end EventQuant
