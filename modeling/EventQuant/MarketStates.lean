import EventQuant.Bot

/-!
When a market's entry plan is closed for good. Its row then says something
other than pending, and only a write that says pending again can undo that.
-/
namespace EventQuant

namespace Database

/-- The market has a row that is not waiting for another placement. -/
def Closed (db : Database) (slug : String) : Prop :=
  ∃ row, db.markets.get? slug = some row ∧ row.state ≠ .placementPending

def Reopens (slug : String) : Write → Prop
  | .setMarketState slug' state _ => slug' = slug ∧ state = .placementPending
  | .prepareMarket _ m state => m.slug = slug ∧ state = .placementPending
  | _ => False

theorem Closed.cannotStart {db : Database} {slug : String} (h : db.Closed slug) :
    db.canStartEntryPlan slug = false := by
  obtain ⟨row, hrow, hstate⟩ := h
  simp [canStartEntryPlan, hrow, hstate]

theorem Closed.hasMarket {db : Database} {slug : String} (h : db.Closed slug) :
    db.hasMarket slug = true := by
  obtain ⟨row, hrow, -⟩ := h
  simp [Database.hasMarket, hrow]

theorem market_updateMarket (db : Database) (slug : String) (f : MarketRow → MarketRow)
    (hf : ∀ r, (f r).slug = r.slug) (slug' : String) :
    (db.updateMarket slug f hf).markets.get? slug' =
      (db.markets.get? slug').map fun r => if slug' = slug then f r else r := by
  simp only [updateMarket, Table.get?_update]
  cases hrow : db.markets.get? slug' with
  | none => rfl
  | some row => simp [Table.get?_key hrow]

/-- A row that is there stays there. -/
theorem hasMarket_apply {db : Database} {slug : String} (h : db.hasMarket slug = true) (w : Write) :
    (db.apply w).hasMarket slug = true := by
  unfold hasMarket at h ⊢
  obtain ⟨row, hrow⟩ := Option.isSome_iff_exists.mp h
  cases w with
  | prepareMarket runId m state =>
    simp only [apply]
    split
    · simp [market_updateMarket, hrow]
    · rw [Table.get?_put]
      split
      · rfl
      · simp [hrow]
  | setMarketState slug' state error => simp [apply, market_updateMarket, hrow]
  | _ => simpa [apply, updateOrders] using h

theorem closed_setMarketState {db : Database} {slug : String} (h : db.hasMarket slug = true)
    {state : MarketState} (hstate : state ≠ .placementPending) (error : Option String) :
    (db.apply (.setMarketState slug state error)).Closed slug := by
  obtain ⟨row, hrow⟩ := Option.isSome_iff_exists.mp h
  refine ⟨{ row with state := state, error := error }, ?_, hstate⟩
  simp [apply, market_updateMarket, hrow]

theorem closed_prepareMarket (db : Database) (runId : ℕ) (m : Market) {state : MarketState}
    (hstate : state ≠ .placementPending) : (db.apply (.prepareMarket runId m state)).Closed m.slug := by
  simp only [apply]
  split
  · rename_i h
    obtain ⟨row, hrow⟩ := Option.isSome_iff_exists.mp h
    refine ⟨{ marketRow runId m state with slug := row.slug }, ?_, hstate⟩
    simp [market_updateMarket, hrow]
  · refine ⟨marketRow runId m state, ?_, hstate⟩
    rw [Table.get?_put]
    exact if_pos rfl

/-- Only a write that says so reopens a market. -/
theorem Closed.apply {db : Database} {slug : String} (h : db.Closed slug) {w : Write}
    (hw : ¬ Reopens slug w) : (db.apply w).Closed slug := by
  obtain ⟨row, hrow, hstate⟩ := h
  cases w with
  | prepareMarket runId m state =>
    by_cases hslug : m.slug = slug
    · subst hslug
      exact closed_prepareMarket db runId m fun hpending => hw ⟨rfl, hpending⟩
    · refine ⟨row, ?_, hstate⟩
      simp only [Database.apply]
      split
      · simp [market_updateMarket, hrow, Ne.symm hslug]
      · rw [Table.get?_put]
        exact (if_neg hslug).trans hrow
  | setMarketState slug' state error =>
    by_cases hslug : slug' = slug
    · subst hslug
      exact closed_setMarketState (by simp [Database.hasMarket, hrow]) (fun hpending => hw ⟨rfl, hpending⟩) error
    · exact ⟨row, by simp [Database.apply, market_updateMarket, hrow, Ne.symm hslug], hstate⟩
  | addOrder now slug' order => exact ⟨row, hrow, hstate⟩
  | updateOrder orderId status matchedSize => exact ⟨row, hrow, hstate⟩
  | markOrders orderIds status => exact ⟨row, hrow, hstate⟩

end Database

end EventQuant
