import EventQuant.OrderLedger
import EventQuant.Service.Drains

/-!
Which rows the sweeps can see. A status comes from the venue as a text, and
each path that writes a row makes its own of it: the reply to a placement, to
an exit and both adoptions of an ambiguous submission only lower it, the
reconciliation and the adoption of unknown orders also drop a prefix, and the
streams have their own words. For each path, the texts that leave the row in
sight.
-/
namespace EventQuant

open Program Python

/-- A sweep finds the status; one that was reported as live is found by all of
them. -/
def InSight (live : Prop) (status : String) : Prop :=
  Visible status ∧
    (live → status ∈ trackedStates ∧ status ∈ dueStates ∧ status ∈ activeExitStates)

def statusPrefix : String := "order_status_"

def ReportsLive (text : String) : Prop :=
  lower text = "live" ∨ lower text = statusPrefix ++ "live"

def UserOrderPayload.ReportsLive (payload : UserOrderPayload) : Prop :=
  payload.orderEventType ≠ "CANCELLATION" ∧ payload.status = "LIVE" ∧
    payload.sizeMatched < payload.originalSize

def Spelled (text : String) : Prop := lower text ∈ trackedStates ++ terminalStates

/-- What `normalize_order` takes for a cancel. -/
def resolvedStates : List String := ["cancelled_market_resolved", "canceled_market_resolved"]

def SpelledOrPrefixed (text : String) : Prop :=
  ∃ word ∈ trackedStates ++ terminalStates ++ resolvedStates,
    lower text = word ∨ lower text = statusPrefix ++ word

def replyText (codec : Codec) (raw : Value) : String :=
  ((raw.get "status").or (.string "open")).str codec

theorem removePrefix_eq_iff {start text word : String}
    (hword : ¬ start.toList <+: word.toList) :
    removePrefix start text = word ↔ text = word ∨ text = start ++ word := by
  unfold removePrefix
  by_cases hprefix : start.toList <+: text.toList
  · obtain ⟨rest, hrest⟩ := hprefix
    have htext : text = start ++ String.ofList rest := by
      apply String.toList_injective
      simp [hrest]
    have hneq : text ≠ word := fun h => hword (h ▸ ⟨rest, hrest⟩)
    rw [if_pos (by simp [← hrest]), ← hrest, List.drop_left]
    constructor
    · intro h
      exact .inr (h ▸ htext)
    · rintro (h | h)
      · exact absurd h hneq
      · have hlists : start.toList ++ rest = start.toList ++ word.toList := by
          rw [hrest, h, String.toList_append]
        rw [List.append_cancel_left hlists, String.ofList_toList]
  · rw [if_neg (by simpa using hprefix)]
    constructor
    · exact .inl
    · rintro (h | h)
      · exact h
      · exact absurd ⟨word.toList, by rw [h, String.toList_append]⟩ hprefix

/-- No status starts with the prefix. -/
theorem word_not_prefixed (word : String)
    (hword : word ∈ trackedStates ++ terminalStates ++ resolvedStates) :
    ¬ statusPrefix.toList <+: word.toList := by
  revert word
  decide

theorem normalizeStatus_eq (text : String) : normalizeStatus text =
    if removePrefix statusPrefix (lower text) ∈ resolvedStates then "cancelled"
    else removePrefix statusPrefix (lower text) := by
  unfold normalizeStatus statusPrefix
  simp [resolvedStates]

theorem visible_iff_mem (status : String) :
    Visible status ↔ status ∈ trackedStates ++ terminalStates := by
  rw [List.mem_append]
  rfl

theorem visible_normalizeStatus_iff (text : String) :
    Visible (normalizeStatus text) ↔ SpelledOrPrefixed text := by
  have hword : SpelledOrPrefixed text ↔
      removePrefix statusPrefix (lower text) ∈ trackedStates ++ terminalStates ++ resolvedStates := by
    constructor
    · rintro ⟨word, hword, htext⟩
      rwa [(removePrefix_eq_iff (word_not_prefixed word hword)).mpr htext]
    · intro hmem
      exact ⟨_, hmem, (removePrefix_eq_iff (word_not_prefixed _ hmem)).mp rfl⟩
  rw [hword, normalizeStatus_eq, List.mem_append, ← visible_iff_mem]
  split
  · rename_i hresolved
    exact iff_of_true (by decide) (.inr hresolved)
  · rename_i hresolved
    simp [hresolved]

theorem normalizeStatus_live {text : String} (h : ReportsLive text) :
    normalizeStatus text = "live" := by
  rw [normalizeStatus_eq, (removePrefix_eq_iff (by decide)).mpr h]
  decide

/-- Where the text is only lowered. -/
theorem inSight_lower_iff (text : String) :
    InSight (ReportsLive text) (lower text) ↔ Spelled text := by
  unfold InSight Spelled
  rw [visible_iff_mem, and_iff_left_iff_imp]
  rintro hlisted (hlive | hlive)
  · rw [hlive]
    decide
  · rw [hlive] at hlisted
    exact absurd hlisted (by decide)

/-- Where the prefix is dropped. -/
theorem inSight_normalizeStatus_iff (text : String) :
    InSight (ReportsLive text) (normalizeStatus text) ↔ SpelledOrPrefixed text := by
  unfold InSight
  rw [visible_normalizeStatus_iff, and_iff_left_iff_imp]
  intro _ hlive
  rw [normalizeStatus_live hlive]
  decide

namespace Service

/-- A report on a row that is over is late: the row stays over, and a live
report of it is not an open order's. -/
theorem inSight_reconciledStatus_iff (row : OrderRow) (snapshotSize : ℚ) (text : String)
    (matched : ℚ) :
    InSight (row.status ∉ terminalStates ∧ ReportsLive text)
        (reconciledStatus row snapshotSize (normalizeStatus text) matched) ↔
      row.status ∈ terminalStates ∨ SpelledOrPrefixed text := by
  by_cases hterminal : row.status ∈ terminalStates
  · have hstays := reconciledStatus_terminal row snapshotSize (normalizeStatus text) matched hterminal
    exact iff_of_true ⟨.inr hstays, fun h => absurd hterminal h.1⟩ (.inl hterminal)
  · simp only [hterminal, not_false_eq_true, true_and, false_or]
    rw [← inSight_normalizeStatus_iff]
    have hstatus : reconciledStatus row snapshotSize (normalizeStatus text) matched =
        normalizeStatus text ∨ normalizeStatus text = "matched" ∧
          reconciledStatus row snapshotSize (normalizeStatus text) matched = "filled" := by
      unfold reconciledStatus
      simp only [hterminal, false_and, if_false]
      split
      · rename_i h
        exact .inr ⟨h.1, rfl⟩
      · exact .inl rfl
    rcases hstatus with hstatus | ⟨hmatched, hfilled⟩
    · rw [hstatus]
    · have hlive : ¬ ReportsLive text := fun h => by
        rw [normalizeStatus_live h] at hmatched
        exact absurd hmatched (by decide)
      rw [hfilled, hmatched]
      exact iff_of_true ⟨by decide, fun h => absurd h hlive⟩ ⟨by decide, fun h => absurd h hlive⟩

end Service

/-- The stream's own words. -/
theorem inSight_normalize (payload : UserOrderPayload) :
    InSight payload.ReportsLive payload.normalize.status := by
  refine ⟨normalize_visible payload, fun ⟨hevent, hstatus, hopen⟩ => ?_⟩
  have hlive : payload.normalize.status = "live" := by
    simp [UserOrderPayload.normalize, hevent, hstatus, not_le.mpr hopen]
  rw [hlive]
  decide

section Adoption

variable (x : Exchange)

/-- Comparing with a number holds of that number alone. -/
theorem sameNumber_true {a : DecimalValue} {b : ℚ} : sameNumber a b = .ok true ↔ a = .finite b := by
  unfold sameNumber DecimalValue.same
  rcases a with q | negative | (_ | _) <;> simp

theorem agrees_true {tokens : List String} {side : String} {price size : ℚ} {row : Listed} :
    row.agrees tokens side price size = .ok true ↔ row.tokenId ∈ tokens ∧ row.side = side ∧
      row.price = .finite price ∧ row.size = .finite size := by
  unfold Listed.agrees
  by_cases hours : row.tokenId ∈ tokens ∧ row.side = side
  · rw [if_pos hours, ← sameNumber_true, ← sameNumber_true]
    cases hprice : sameNumber row.price price with
    | error e => simp [bind, Except.bind]
    | ok same => cases same <;> simp [bind, Except.bind, pure, Except.pure, hours]
  · rw [if_neg hours]
    refine iff_of_false ?_ fun h => hours ⟨h.1, h.2.1⟩
    simp [pure, Except.pure]

theorem listed_raw {codec : Codec} {raw : Value} {order : Listed}
    (h : listed codec raw = .ok order) : order.raw = raw := by
  unfold listed at h
  repeat' split at h
  all_goals simp only [Except.ok.injEq, reduceCtorEq] at h
  rw [← h]

theorem exactMatch_some {codec : Codec} {tokens : List String} {side : String} {price size : ℚ}
    {raw : Value} {order : Listed} :
    exactMatch codec tokens side price size raw = .ok (some order) ↔
      listed codec raw = .ok order ∧ order.tokenId ∈ tokens ∧ order.side = side ∧
        order.price = .finite price ∧ order.size = .finite size := by
  unfold exactMatch
  cases hlisted : listed codec raw with
  | error e => simp [bind, Except.bind]
  | ok row =>
    simp only [bind, Except.bind, Except.ok.injEq]
    rw [← agrees_true]
    cases hagrees : row.agrees tokens side price size with
    | error e =>
      refine iff_of_false nofun ?_
      rintro ⟨rfl, htrue⟩
      exact nomatch hagrees.symm.trans htrue
    | ok agrees =>
      cases agrees with
      | false =>
        refine iff_of_false nofun ?_
        rintro ⟨rfl, htrue⟩
        exact nomatch hagrees.symm.trans htrue
      | true =>
        constructor
        · intro h
          obtain rfl := Option.some.inj (Except.ok.inj h)
          exact ⟨rfl, hagrees⟩
        · rintro ⟨rfl, -⟩
          rfl

/-- A match is a listed order of one of the tokens, of the side, price and
size. -/
theorem exactMatches_mem {codec : Codec} {tokens : List String} {side : String} {price size : ℚ}
    {rows : List Value} {found : List Listed}
    (h : exactMatches codec tokens side price size rows = .ok found) (order : Listed) :
    order ∈ found ↔ order.raw ∈ rows ∧ listed codec order.raw = .ok order ∧
      order.tokenId ∈ tokens ∧ order.side = side ∧ order.price = .finite price ∧
      order.size = .finite size := by
  unfold exactMatches at h
  cases hall : rows.mapM (exactMatch codec tokens side price size) with
  | error e => simp [hall, Except.map] at h
  | ok all =>
    simp only [hall, Except.map, Except.ok.injEq] at h
    subst h
    rw [List.mem_filterMap]
    constructor
    · rintro ⟨_, horder, rfl⟩
      obtain ⟨raw, hraw, hmatch⟩ := Results.exists_source hall horder
      obtain ⟨hlisted, hterms⟩ := exactMatch_some.mp hmatch
      rw [listed_raw hlisted]
      exact ⟨hraw, hlisted, hterms⟩
    · rintro ⟨hraw, hlisted, hterms⟩
      obtain ⟨found, hfound, hmatch⟩ := Results.exists_result hall hraw
      rw [exactMatch_some.mpr ⟨hlisted, hterms⟩] at hmatch
      exact ⟨some order, Except.ok.inj hmatch ▸ hfound, rfl⟩

/-- An adopted pair's order comes from an order the venue lists. -/
theorem Exchange.reconcileAmbiguousDual_orders (market : Market) (price size : ℚ)
    (retryableIfMissing : Bool) (openOrders : Except Exn (List Value)) (cancel : Except Exn Unit)
    (b : Bot) (r : PlacementResult)
    (h : (x.reconcileAmbiguousDual market price size retryableIfMissing openOrders cancel).result b
      = .ok r) (o : PlacedOrder) (ho : o ∈ r.orders) :
    ∃ rows, openOrders = .ok rows ∧ ∃ raw ∈ rows, orderIdOf x.codec raw = some o.orderId ∧
      o.status = replyStatus x.codec raw := by
  unfold reconcileAmbiguousDual at h
  obtain ⟨rows, hrows, h⟩ := andThen_returned h
  obtain ⟨found, hfound, h⟩ := andThen_returned h
  refine ⟨rows, hrows, ?_⟩
  simp only at h
  split at h
  · split at h
    · rw [result_return, Except.ok.injEq] at h
      subst h
      exact absurd ho List.not_mem_nil
    · rename_i orders horders
      obtain ⟨_, -, h⟩ := andThen_returned h
      rw [result_return, Except.ok.injEq] at h
      subst h
      obtain ⟨leg, hleg, hadopted⟩ := Results.exists_source_some horders ho
      obtain ⟨row, hrow, hadopted⟩ := Option.bind_eq_some_iff.mp hadopted
      obtain ⟨orderId, hid, rfl⟩ := Option.map_eq_some_iff.mp hadopted
      obtain ⟨token, -, rfl⟩ := List.mem_map.mp hleg
      have hmem : row ∈ found := (List.mem_filter.mp (List.mem_of_mem_head? hrow)).1
      exact ⟨row.raw, ((exactMatches_mem hfound row).mp hmem).1, hid, rfl⟩
  · split at h
    · obtain ⟨_, -, h⟩ := andThen_returned h
      obtain ⟨_, -, h⟩ := andThen_returned h
      obtain ⟨_, -, h⟩ := andThen_returned h
      rw [result_return, Except.ok.injEq] at h
      subst h
      exact absurd ho List.not_mem_nil
    · split at h
      · rw [result_return, Except.ok.injEq] at h
        subst h
        exact absurd ho List.not_mem_nil
      · obtain ⟨_, -, h⟩ := andThen_returned h
        rw [result_return, Except.ok.injEq] at h
        subst h
        exact absurd ho List.not_mem_nil

/-- An adopted exit comes from an order the venue lists. -/
theorem Exchange.reconcileAmbiguousExit_order (outcome tokenId : String) (price size : ℚ)
    (openOrders : Except Exn (List Value)) (o : PlacedOrder)
    (h : x.reconcileAmbiguousExit outcome tokenId price size openOrders = .ok (some o)) :
    ∃ rows, openOrders = .ok rows ∧ ∃ raw ∈ rows, orderIdOf x.codec raw = some o.orderId ∧
      o.status = replyStatus x.codec raw := by
  unfold reconcileAmbiguousExit at h
  split at h
  · simp at h
  · rename_i rows
    split at h
    · simp at h
    · rename_i found hfound
      split at h
      · rename_i row hrow
        simp only [Except.ok.injEq, Option.map_eq_some_iff] at h
        obtain ⟨orderId, hid, rfl⟩ := h
        have hmem : row ∈ found := by
          have hfilter : row ∈ found.filter fun row => row.tokenId = tokenId := by rw [hrow]; simp
          exact (List.mem_filter.mp hfilter).1
        exact ⟨rows, rfl, row.raw, ((exactMatches_mem hfound row).mp hmem).1, hid, rfl⟩
      · simp at h

end Adoption

/-- The row an order is written down as is in sight exactly when the
condition holds. -/
def SightIff (live : Prop) (o : PlacedOrder) (condition : Prop) : Prop :=
  ∀ (db : Database) (now : ℤ) (slug : String),
    ∃ row, (db.apply (.addOrder now slug o)).order o.orderId = some row ∧
      (InSight live row.status ↔ condition)

theorem sightIff_of {live : Prop} {o : PlacedOrder} {condition : Prop}
    (h : InSight live o.status ↔ condition) : SightIff live o condition :=
  fun db now slug => ⟨Database.orderRow now slug o, by rw [Database.order_put, if_pos rfl], h⟩

theorem sightIff_reply (codec : Codec) (raw : Value) (o : PlacedOrder)
    (h : o.status = replyStatus codec raw) :
    SightIff (ReportsLive (replyText codec raw)) o (Spelled (replyText codec raw)) :=
  sightIff_of (h ▸ inSight_lower_iff (replyText codec raw))

section Writers

variable (s : Service) (x : Exchange)

theorem settleEntry_sight (entry : Entry) (outcome : Knock.MemberResult) (cancel : Except Exn Unit)
    (b : Bot) (r : PlacementResult) (h : (x.settleEntry entry outcome cancel).result b = .ok r)
    (o : PlacedOrder) (ho : o ∈ r.orders) : ∃ a ∈ outcome.accepted, a.orderId = o.orderId ∧
      let text := replyText x.codec (replyValue x.codec a.status a.body)
      SightIff (ReportsLive text) o (Spelled text) := by
  obtain ⟨a, ha, hplaced⟩ :=
    Results.exists_source (x.settleEntry_returned entry outcome cancel b r h).1 ho
  refine ⟨a, ha, (x.acceptedOrder_ok entry a o hplaced).1.symm, sightIff_reply x.codec _ o ?_⟩
  unfold Exchange.acceptedOrder at hplaced
  split at hplaced
  · simp at hplaced
  · rw [Except.ok.injEq] at hplaced
    rw [← hplaced]

theorem placeExit_sight (outcome tokenId : String) (price size : ℚ) (response : Value)
    (o : PlacedOrder) (h : x.placeExit outcome tokenId price size (.ok response) = .ok o) :
    SightIff (ReportsLive (replyText x.codec response)) o
      (Spelled (replyText x.codec response)) := by
  refine sightIff_reply x.codec response o ?_
  simp only [Exchange.placeExit] at h
  split at h
  · rw [Except.ok.injEq] at h
    rw [← h]
  · simp at h

theorem normalizeOrder_status {codec : Codec} {raw : Value} {status : String}
    {matched : DecimalValue} (h : normalizeOrder codec raw = .ok (status, matched)) :
    status = normalizeStatus (statusText codec raw) := by
  unfold normalizeOrder at h
  split at h
  · simp at h
  · simp only [Except.ok.injEq, Prod.mk.injEq] at h
    exact h.1.symm

theorem adoptable_sight (db : Database) (raw : Value) (slug : String) (o : PlacedOrder)
    (h : s.adoptable db raw = .ok (some (slug, o))) :
    SightIff (ReportsLive (statusText s.codec raw)) o
      (SpelledOrPrefixed (statusText s.codec raw)) := by
  have hstatus : o.status = normalizeStatus (statusText s.codec raw) := by
    unfold Service.adoptable at h
    cases hnormalized : normalizeOrder s.codec raw with
    | error failure =>
      simp only [hnormalized] at h
      repeat' split at h
      all_goals simp at h
    | ok p =>
      rw [← normalizeOrder_status hnormalized]
      simp only [hnormalized] at h
      repeat' split at h
      all_goals simp only [Except.ok.injEq, Option.some.injEq, Prod.mk.injEq, reduceCtorEq] at h
      all_goals rw [← h.2]
  exact sightIff_of (hstatus ▸ inSight_normalizeStatus_iff (statusText s.codec raw))

/-- The row a report leaves under the id it falls on. -/
theorem order_updateOrder {b : Bot} {orderId : String} {row : OrderRow} (status : String)
    (matchedSize : ℚ) (hrow : b.database.order orderId = some row) :
    (Store.settle b [Effect.write (.updateOrder orderId status matchedSize)]).database.order
      orderId = some { row with status := status, matchedSize := matchedSize } := by
  change (b.database.apply (.updateOrder orderId status matchedSize)).order orderId = _
  simp [Database.apply, Database.order_updateOrders, hrow]

/-- What a reconciled order's write is. -/
theorem drainReconciledOrder_writes (result : ReconciledOrder) (b : Bot) (row : OrderRow)
    (raw : Value) (hrow : b.database.order result.snapshot.orderId = some row)
    (hraw : result.raw = some raw)
    (hwrites : (s.drainReconciledOrder result).commits b ≠ []) :
    ∃ matched, (s.drainReconciledOrder result).commits b =
      [.write (.updateOrder result.snapshot.orderId
        (Service.reconciledStatus row result.snapshot.size
          (normalizeStatus (statusText s.codec raw)) matched) matched)] := by
  revert hwrites
  unfold Service.drainReconciledOrder Action.query
  simp only [bind_eq]
  rw [commits_andThen_ok (result_read b _), hrow, hraw]
  cases result.error with
  | some e => simp
  | none =>
    simp only [commits_read, after_read, List.nil_append]
    cases hnormalized : normalizeOrder s.codec raw with
    | error failure =>
      rw [commits_andThen_error (e := .other "InvalidOperation" failure) rfl]
      simp
    | ok p =>
      obtain ⟨status, reported⟩ := p
      rw [commits_andThen_ok (a := (status, reported)) rfl]
      simp only [commits_answer, after_answer, List.nil_append]
      split
      · simp
      · cases hfill : Service.largerFill row.matchedSize reported with
        | error e =>
          rw [commits_andThen_error (e := e) rfl]
          simp
        | ok matched =>
          rw [commits_andThen_ok (a := matched) rfl]
          intro _
          rw [normalizeOrder_status hnormalized]
          exact ⟨matched, rfl⟩

theorem drainReconciledOrder_sight (result : ReconciledOrder) (b : Bot) (row : OrderRow)
    (raw : Value) (hrow : b.database.order result.snapshot.orderId = some row)
    (hraw : result.raw = some raw)
    (hwrites : (s.drainReconciledOrder result).commits b ≠ []) :
    ∃ row', ((s.drainReconciledOrder result).after b).database.order result.snapshot.orderId =
        some row' ∧
      (row.status ∈ terminalStates → row'.status ∈ terminalStates) ∧
      (InSight (row.status ∉ terminalStates ∧ ReportsLive (statusText s.codec raw)) row'.status ↔
        row.status ∈ terminalStates ∨ SpelledOrPrefixed (statusText s.codec raw)) := by
  obtain ⟨matched, hcommits⟩ := drainReconciledOrder_writes s result b row raw hrow hraw hwrites
  have hafter := order_updateOrder (Service.reconciledStatus row result.snapshot.size
    (normalizeStatus (statusText s.codec raw)) matched) matched hrow
  rw [← hcommits] at hafter
  exact ⟨_, hafter, Service.reconciledStatus_terminal row _ _ matched,
    Service.inSight_reconciledStatus_iff row result.snapshot.size _ matched⟩

theorem drainStreamOrder_sight (payload : UserOrderPayload) (b : Bot) (row : OrderRow)
    (hrow : b.database.order payload.id = some row) :
    ∃ row', ((Service.drainStreamOrder payload.normalize).after b).database.order payload.id =
        some row' ∧ InSight payload.ReportsLive row'.status := by
  have hcommits : (Service.drainStreamOrder payload.normalize).commits b =
      [.write (.updateOrder payload.id payload.normalize.status payload.normalize.matchedSize)] := by
    unfold Service.drainStreamOrder Action.query
    simp only [bind_eq]
    have hread : b.database.order payload.normalize.orderId = some row := hrow
    rw [commits_andThen_ok (result_read b _), hread]
    rfl
  have hafter := order_updateOrder payload.normalize.status payload.normalize.matchedSize hrow
  rw [← hcommits] at hafter
  exact ⟨_, hafter, inSight_normalize payload⟩

/-- For each path that writes a row, the texts that leave it in sight: where
the text is only lowered it must be one of the lists' statuses, and where the
prefix is dropped it may carry it. A reconciled row that was over stays over,
and a stream's words are always in sight. -/
theorem stored_in_sight (b : Bot) :
    (∀ entry outcome cancel r, (x.settleEntry entry outcome cancel).result b = .ok r →
      ∀ o ∈ r.orders, ∃ a ∈ outcome.accepted, a.orderId = o.orderId ∧
        let text := replyText x.codec (replyValue x.codec a.status a.body)
        SightIff (ReportsLive text) o (Spelled text)) ∧
    (∀ market price size retryable openOrders cancel r,
      (x.reconcileAmbiguousDual market price size retryable openOrders cancel).result b = .ok r →
      ∀ o ∈ r.orders, ∃ rows, openOrders = .ok rows ∧ ∃ raw ∈ rows,
        orderIdOf x.codec raw = some o.orderId ∧
          SightIff (ReportsLive (replyText x.codec raw)) o (Spelled (replyText x.codec raw))) ∧
    (∀ outcome tokenId price size response o,
      x.placeExit outcome tokenId price size (.ok response) = .ok o →
      SightIff (ReportsLive (replyText x.codec response)) o
        (Spelled (replyText x.codec response))) ∧
    (∀ outcome tokenId price size openOrders o,
      x.reconcileAmbiguousExit outcome tokenId price size openOrders = .ok (some o) →
      ∃ rows, openOrders = .ok rows ∧ ∃ raw ∈ rows, orderIdOf x.codec raw = some o.orderId ∧
        SightIff (ReportsLive (replyText x.codec raw)) o (Spelled (replyText x.codec raw))) ∧
    (∀ raw slug o, s.adoptable b.database raw = .ok (some (slug, o)) →
      SightIff (ReportsLive (statusText s.codec raw)) o
        (SpelledOrPrefixed (statusText s.codec raw))) ∧
    (∀ result row raw, b.database.order result.snapshot.orderId = some row →
      result.raw = some raw → (s.drainReconciledOrder result).commits b ≠ [] →
      let text := statusText s.codec raw
      ∃ row', ((s.drainReconciledOrder result).after b).database.order result.snapshot.orderId =
          some row' ∧
        (row.status ∈ terminalStates → row'.status ∈ terminalStates) ∧
        (InSight (row.status ∉ terminalStates ∧ ReportsLive text) row'.status ↔
          row.status ∈ terminalStates ∨ SpelledOrPrefixed text)) ∧
    (∀ (payload : UserOrderPayload) row, b.database.order payload.id = some row →
      ∃ row', ((Service.drainStreamOrder payload.normalize).after b).database.order payload.id =
        some row' ∧ InSight payload.ReportsLive row'.status) := by
  refine ⟨fun entry outcome cancel r h o ho => settleEntry_sight x entry outcome cancel b r h o ho,
    fun market price size retryable openOrders cancel r h o ho => ?_,
    fun outcome tokenId price size response o h =>
      placeExit_sight x outcome tokenId price size response o h,
    fun outcome tokenId price size openOrders o h => ?_,
    fun raw slug o h => adoptable_sight s b.database raw slug o h,
    fun result row raw hrow hraw hwrites =>
      drainReconciledOrder_sight s result b row raw hrow hraw hwrites,
    fun payload row hrow => drainStreamOrder_sight payload b row hrow⟩
  · obtain ⟨rows, hrows, raw, hraw, hid, hstatus⟩ :=
      x.reconcileAmbiguousDual_orders market price size retryable openOrders cancel b r h o ho
    exact ⟨rows, hrows, raw, hraw, hid, sightIff_reply x.codec raw o hstatus⟩
  · obtain ⟨rows, hrows, raw, hraw, hid, hstatus⟩ :=
      x.reconcileAmbiguousExit_order outcome tokenId price size openOrders o h
    exact ⟨rows, hrows, raw, hraw, hid, sightIff_reply x.codec raw o hstatus⟩

end Writers

def upExit (status : String) : Value :=
  .object [("id", .string "0xa1"), ("asset_id", .string "up-token"), ("price", .string "0.5"),
    ("original_size", .string "10"), ("side", .string "SELL"), ("status", .string status)]

def adoptUpExit (status : String) : Except Exn (Option PlacedOrder) :=
  pairExchange.reconcileAmbiguousExit "up" "up-token" (1 / 2) 10 (.ok [upExit status])

/-- An exit adopted as plain `LIVE` is in sight. -/
theorem stored_in_sight_live : ∃ o, adoptUpExit "LIVE" = .ok (some o) ∧
    SightIff (ReportsLive "LIVE") o (Spelled "LIVE") := by
  obtain ⟨-, -, -, hexit, -⟩ := stored_in_sight pairService pairExchange (Bot.boot Database.empty)
  have hadopted : adoptUpExit "LIVE" = .ok (some
      ⟨"0xa1", "up", "up-token", 1 / 2, 10, "live", .sell, .exit, ""⟩) := by
    decide +kernel
  obtain ⟨rows, hrows, raw, hraw, -, hsight⟩ := hexit _ _ _ _ _ _ hadopted
  rw [Except.ok.injEq] at hrows
  subst hrows
  rw [List.mem_singleton] at hraw
  subst hraw
  exact ⟨_, hadopted, hsight⟩

/-- An exit adopted under the prefixed spelling is on no list. -/
theorem stored_in_sight_prefixed : ∃ o, adoptUpExit "ORDER_STATUS_LIVE" = .ok (some o) ∧
    ReportsLive "ORDER_STATUS_LIVE" ∧ ¬ Visible o.status := by
  refine ⟨⟨"0xa1", "up", "up-token", 1 / 2, 10, "order_status_live", .sell, .exit, ""⟩, ?_, ?_, ?_⟩
  · decide +kernel
  · exact .inr (by decide)
  · decide

end EventQuant
