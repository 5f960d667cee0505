import EventQuant.Bot

/-!
The order ledger's law: a row never loses matched size and never leaves a
final status. What one write must look like to keep it is read off the rows
the write falls on, and a write keeps the law exactly when it looks like that.
-/
namespace EventQuant

open Store

/-- The row after stands for no less than the row before. -/
structure OrderRow.Keeps (before after : OrderRow) : Prop where
  matched : before.matchedSize ≤ after.matchedSize
  terminal : before.status ∈ terminalStates → after.status ∈ terminalStates

theorem OrderRow.Keeps.refl (r : OrderRow) : r.Keeps r := ⟨le_refl _, fun h => h⟩

theorem OrderRow.Keeps.trans {r₁ r₂ r₃ : OrderRow} (h : r₁.Keeps r₂) (h' : r₂.Keeps r₃) :
    r₁.Keeps r₃ :=
  ⟨h.matched.trans h'.matched, fun hr => h'.terminal (h.terminal hr)⟩

namespace Database

/-- Every order id that has a row keeps one that stands for no less. -/
def Keeps (before after : Database) : Prop :=
  ∀ orderId row, before.order orderId = some row →
    ∃ row', after.order orderId = some row' ∧ row.Keeps row'

theorem Keeps.refl (db : Database) : Keeps db db := fun _ row hrow => ⟨row, hrow, .refl row⟩

theorem Keeps.trans (db₁ db₂ db₃ : Database) (h : Keeps db₁ db₂) (h' : Keeps db₂ db₃) :
    Keeps db₁ db₃ := by
  intro orderId row hrow
  obtain ⟨row', hrow', hkeeps⟩ := h orderId row hrow
  obtain ⟨row'', hrow'', hkeeps'⟩ := h' orderId row' hrow'
  exact ⟨row'', hrow'', hkeeps.trans hkeeps'⟩

def FreshOrder (db : Database) (order : PlacedOrder) : Prop :=
  ∀ row, db.order order.orderId = some row →
    row.matchedSize ≤ initialMatched order ∧
      (row.status ∈ terminalStates → order.status ∈ terminalStates)

def FreshReport (db : Database) (orderId status : String) (matchedSize : ℚ) : Prop :=
  ∀ row, db.order orderId = some row →
    row.matchedSize ≤ matchedSize ∧ (row.status ∈ terminalStates → status ∈ terminalStates)

def Fresh (db : Database) : Write → Prop
  | .addOrder _ _ order => db.FreshOrder order
  | .updateOrder orderId status matchedSize => db.FreshReport orderId status matchedSize
  | .markOrders orderIds status =>
    ∀ orderId ∈ orderIds, ∀ row, db.order orderId = some row →
      row.status ∈ terminalStates → status ∈ terminalStates
  | _ => True

theorem order_updateOrders (db : Database) (orderIds : List String) (f : OrderRow → OrderRow)
    (hf : ∀ r, (f r).orderId = r.orderId) (orderId : String) :
    (db.updateOrders orderIds f hf).order orderId =
      (db.order orderId).map fun r => if orderId ∈ orderIds then f r else r := by
  simp only [order, updateOrders, Table.get?_update]
  cases hrow : db.orders.get? orderId with
  | none => rfl
  | some row => simp [Table.get?_key hrow]

theorem order_put (db : Database) (now : ℤ) (slug : String) (placed : PlacedOrder)
    (orderId : String) : (db.apply (.addOrder now slug placed)).order orderId =
      if placed.orderId = orderId then some (orderRow now slug placed) else db.order orderId := by
  simp only [apply, order, Table.get?_put]
  rfl

theorem order_prepareMarket (db : Database) (runId : ℕ) (m : Market) (state : MarketState) :
    (db.apply (.prepareMarket runId m state)).order = db.order := by
  simp only [apply]
  split <;> rfl

/-- One write keeps the law exactly when it sets no row back. -/
theorem keeps_apply_iff (db : Database) (w : Write) : Keeps db (db.apply w) ↔ db.Fresh w := by
  cases w with
  | prepareMarket runId m state =>
    refine iff_of_true ?_ trivial
    intro orderId row hrow
    exact ⟨row, by rw [order_prepareMarket]; exact hrow, .refl row⟩
  | setMarketState slug state error =>
    exact iff_of_true (fun orderId row hrow => ⟨row, hrow, .refl row⟩) trivial
  | addOrder now slug placed =>
    constructor
    · intro h row hrow
      obtain ⟨row', hrow', hkeeps⟩ := h _ row hrow
      rw [order_put, if_pos rfl, Option.some.injEq] at hrow'
      subst hrow'
      exact ⟨hkeeps.matched, hkeeps.terminal⟩
    · intro h orderId row hrow
      rw [order_put]
      split
      · rename_i hid
        subst hid
        exact ⟨_, rfl, (h row hrow).1, (h row hrow).2⟩
      · exact ⟨row, hrow, .refl row⟩
  | updateOrder id status matchedSize =>
    constructor
    · intro h row hrow
      obtain ⟨row', hrow', hkeeps⟩ := h _ row hrow
      simp only [apply, order_updateOrders, hrow, Option.map_some, List.mem_singleton,
        if_true, Option.some.injEq] at hrow'
      subst hrow'
      exact ⟨hkeeps.matched, hkeeps.terminal⟩
    · intro h orderId row hrow
      simp only [apply, order_updateOrders, hrow, Option.map_some, List.mem_singleton]
      split
      · rename_i hid
        subst hid
        exact ⟨_, rfl, (h row hrow).1, (h row hrow).2⟩
      · exact ⟨row, rfl, .refl row⟩
  | markOrders orderIds status =>
    constructor
    · intro h orderId hmem row hrow hterminal
      obtain ⟨row', hrow', hkeeps⟩ := h _ row hrow
      simp only [apply, order_updateOrders, hrow, Option.map_some, hmem, if_true,
        Option.some.injEq] at hrow'
      subst hrow'
      exact hkeeps.terminal hterminal
    · intro h orderId row hrow
      simp only [apply, order_updateOrders, hrow, Option.map_some]
      split
      · rename_i hmem
        exact ⟨_, rfl, le_refl _, h orderId hmem row hrow⟩
      · exact ⟨row, rfl, .refl row⟩

end Database

/-- An effect that sets no row back; only writes touch the rows. -/
def Effect.Fresh (b : Bot) : Effect → Prop
  | .write w => b.database.Fresh w
  | _ => True

def Effect.FreshAdds (b : Bot) : Effect → Prop
  | .write (.addOrder _ _ order) => b.database.FreshOrder order
  | _ => True

def Bot.Keeps (before after : Bot) : Prop := before.database.Keeps after.database

theorem Bot.keeps_apply (b : Bot) (e : Effect) (h : e.Fresh b) : b.Keeps (Store.apply b e) := by
  cases e with
  | write w => exact (Database.keeps_apply_iff b.database w).mpr h
  | _ => exact Database.Keeps.refl b.database

/-- Commits that set no row back keep the law together, and so does any first
part of them. -/
theorem Bot.keeps_settle {b : Bot} {effects : List Effect} (h : Each (fun b e => e.Fresh b) b effects)
    (n : ℕ) : b.Keeps (settle b (effects.take n)) :=
  (h.take n).relates Bot.Keeps (fun b => Database.Keeps.refl b.database)
    (fun _ _ _ => Database.Keeps.trans _ _ _) Bot.keeps_apply

end EventQuant
