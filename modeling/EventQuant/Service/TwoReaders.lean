import EventQuant.Service.OrderSight

/-!
One order of the venue, read twice: by the user stream as an event, and by the
reconciliation as a record. Both write the same column of the order's row. The
stream goes by the sizes; the record goes by its status text.
-/
namespace EventQuant

open Program Python

/-- An order as the venue words it, on either path. -/
structure VenueOrder where
  orderId : String
  status : String
  sizeMatched : String
  originalSize : String

namespace VenueOrder

variable (o : VenueOrder)

def raw : Value :=
  .object [("id", .string o.orderId), ("status", .string o.status),
    ("size_matched", .string o.sizeMatched), ("original_size", .string o.originalSize)]

def event (eventType : String) : Option UserOrderPayload :=
  (decimal o.sizeMatched).bind fun matched => (decimal o.originalSize).map fun original =>
    ⟨o.orderId, eventType, o.status, matched, original⟩

def recordStatus (codec : Codec) (originalSize : ℚ) (row : OrderRow) : Except Exn String := do
  let (status, reported) ← (normalizeOrder codec o.raw).mapError (.other "InvalidOperation")
  let matched ← Service.largerFill row.matchedSize reported
  return Service.reconciledStatus row originalSize status matched

end VenueOrder

def SameSide (status status' : String) : Prop :=
  status ∈ terminalStates ∧ status' ∈ terminalStates ∨
    status ∈ trackedStates ∧ status' ∈ trackedStates

instance (status status' : String) : Decidable (SameSide status status') := by
  unfold SameSide
  infer_instance

def UserOrderPayload.SaysOver (payload : UserOrderPayload) : Prop :=
  payload.orderEventType = "CANCELLATION" ∨ payload.status = "CANCELED" ∨
    payload.originalSize ≤ payload.sizeMatched

theorem normalize_saysOver (payload : UserOrderPayload) :
    (payload.SaysOver → payload.normalize.status ∈ terminalStates) ∧
      (¬ payload.SaysOver → payload.normalize.status ∈ trackedStates) := by
  unfold UserOrderPayload.SaysOver UserOrderPayload.normalize
  simp only
  split
  · rename_i hcancelled
    exact ⟨fun _ => by decide, fun h => absurd (hcancelled.imp_right .inl) h⟩
  · rename_i hcancelled
    split
    · rename_i hfull
      exact ⟨fun _ => by decide, fun h => absurd (.inr (.inr hfull)) h⟩
    · rename_i hfull
      refine ⟨fun h => ?_, fun _ => ?_⟩
      · rcases h with h | h | h
        · exact absurd (.inl h) hcancelled
        · exact absurd (.inr h) hcancelled
        · exact absurd h hfull
      · split
        · rename_i hword
          rcases hword with hword | hword <;> rw [hword] <;> decide
        · decide

/-- The step from matched to filled moves no status across. -/
theorem reconciledStatus_side {row : OrderRow} (hrow : row.status ∉ terminalStates)
    (snapshotSize : ℚ) (status : String) (matched : ℚ) :
    (Service.reconciledStatus row snapshotSize status matched ∈ terminalStates ↔
        status ∈ terminalStates) ∧
      (Service.reconciledStatus row snapshotSize status matched ∈ trackedStates ↔
        status ∈ trackedStates) := by
  unfold Service.reconciledStatus
  simp only [hrow, false_and, if_false]
  split
  · rename_i hfilled
    rw [hfilled.1]
    decide
  · exact ⟨Iff.rfl, Iff.rfl⟩

theorem normalizeOrder_raw {codec : Codec} {o : VenueOrder} {eventType : String}
    {payload : UserOrderPayload} (h : o.event eventType = some payload) :
    normalizeOrder codec o.raw =
      .ok (normalizeStatus (statusText codec o.raw), .finite payload.sizeMatched) := by
  obtain ⟨matched, hmatched, h⟩ := Option.bind_eq_some_iff.mp h
  obtain ⟨original, -, rfl⟩ := Option.map_eq_some_iff.mp h
  have hnamed : o.sizeMatched ≠ "" := by
    intro hempty
    have hnone : decimal "" = none := by decide +kernel
    rw [hempty, hnone] at hmatched
    cases hmatched
  have htext : o.raw.firstOf ["size_matched", "sizeMatched", "matched_size"] (.string "0") =
      .string o.sizeMatched := by
    simp [VenueOrder.raw, Value.firstOf, Value.get, Value.or, Value.truthy, List.lookup, hnamed]
  unfold normalizeOrder toDecimal
  rw [htext, Value.str, readDecimal_of_decimal hmatched]

/-- For a row still open, both readers put the order on one side exactly when
its status text is final for an order that is cancelled or matched whole, and
open for any other. -/
theorem readers_agree_iff (codec : Codec) (o : VenueOrder) (eventType : String)
    (payload : UserOrderPayload) (hevent : o.event eventType = some payload) (row : OrderRow)
    (hrow : row.status ∉ terminalStates) :
    (∃ status, o.recordStatus codec payload.originalSize row = .ok status ∧
      SameSide payload.normalize.status status) ↔
    (payload.SaysOver → normalizeStatus (statusText codec o.raw) ∈ terminalStates) ∧
      (¬ payload.SaysOver → normalizeStatus (statusText codec o.raw) ∈ trackedStates) := by
  have hrecord : o.recordStatus codec payload.originalSize row =
      .ok (Service.reconciledStatus row payload.originalSize
        (normalizeStatus (statusText codec o.raw)) (max payload.sizeMatched row.matchedSize)) := by
    unfold VenueOrder.recordStatus
    rw [normalizeOrder_raw hevent]
    rfl
  obtain ⟨hterminal, htracked⟩ := reconciledStatus_side hrow payload.originalSize
    (normalizeStatus (statusText codec o.raw)) (max payload.sizeMatched row.matchedSize)
  obtain ⟨hover, hopen⟩ := normalize_saysOver payload
  rw [hrecord]
  simp only [Except.ok.injEq, exists_eq_left', SameSide, hterminal, htracked]
  by_cases hterminal : payload.SaysOver
  · have hstream := hover hterminal
    have hstream' := terminal_not_tracked _ hstream
    simp [hterminal, hstream, hstream']
  · have hstream := hopen hterminal
    have hstream' : payload.normalize.status ∉ terminalStates :=
      fun h => terminal_not_tracked _ h hstream
    simp [hterminal, hstream, hstream']

def partlyMatched : VenueOrder := ⟨"0xa1", "MATCHED", "25", "100"⟩

def unmatchedLive : VenueOrder := ⟨"0xa1", "LIVE", "0", "100"⟩

def liveRow : OrderRow :=
  ⟨"0xa1", "btc-updown-5m-0", "up", "up-token", .buy, .entry, "", 1 / 10, 100, 0, "live", 0⟩

theorem readers_agree_live :
    ∃ status, unmatchedLive.recordStatus pairExchange.codec 100 liveRow = .ok status ∧
      SameSide (UserOrderPayload.normalize ⟨"0xa1", "UPDATE", "LIVE", 0, 100⟩).status status := by
  refine (readers_agree_iff pairExchange.codec unmatchedLive "UPDATE" ⟨"0xa1", "UPDATE", "LIVE", 0, 100⟩
    (by decide +kernel) liveRow (by decide)).mpr ⟨fun h => ?_, fun _ => by decide⟩
  rcases h with h | h | h
  · exact absurd h (by decide)
  · exact absurd h (by decide)
  · norm_num at h

/-- The stream keeps a part match open; the record of it is final. -/
theorem readers_agree_matched :
    ∃ payload, partlyMatched.event "UPDATE" = some payload ∧
      payload.sizeMatched < payload.originalSize ∧ liveRow.status ∉ terminalStates ∧
      payload.normalize.status = "live" ∧
      ¬ ∃ status, partlyMatched.recordStatus pairExchange.codec payload.originalSize liveRow =
          .ok status ∧ SameSide payload.normalize.status status := by
  refine ⟨⟨"0xa1", "UPDATE", "MATCHED", 25, 100⟩, by decide +kernel, by norm_num, by decide,
    by decide +kernel, ?_⟩
  rintro ⟨status, hstatus, hside⟩
  have hmatched : partlyMatched.recordStatus pairExchange.codec 100 liveRow = .ok "matched" := by
    decide +kernel
  obtain rfl := Except.ok.inj (hmatched.symm.trans hstatus)
  exact absurd hside (by decide +kernel)

end EventQuant
