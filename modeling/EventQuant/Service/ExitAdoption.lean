import EventQuant.Service.Calls
import EventQuant.Service.OrderSight

/-!
An exit whose submission raised is looked for among the venue's open orders,
by its token, side, price and size alone. What is found is written down under
its id, and a row of that id is replaced whole.
-/
namespace EventQuant

open Program Python

section Table

variable {κ ρ : Type*} {key : ρ → κ} [DecidableEq κ]

/-- Putting a row adds one exactly where its key had none. -/
theorem Table.put_adds_iff (t : Table κ ρ key) (row : ρ) :
    (t.put row).rows = t.rows ++ [row] ↔ t.get? (key row) = none := by
  rw [Table.get?_eq_none_iff]
  unfold Table.put
  rw [List.append_left_inj, List.filter_eq_self]
  simp

end Table

def Lists (codec : Codec) (side tokenId : String) (price size : ℚ) (raw : Value) : Prop :=
  ∃ order, listed codec raw = .ok order ∧ order.tokenId = tokenId ∧ order.side = side ∧
    order.price = .finite price ∧ order.size = .finite size

instance (codec : Codec) (side tokenId : String) (price size : ℚ) (raw : Value) :
    Decidable (Lists codec side tokenId price size raw) :=
  match h : listed codec raw with
  | .ok order =>
    decidable_of_iff (order.tokenId = tokenId ∧ order.side = side ∧ order.price = .finite price ∧
      order.size = .finite size) (by unfold Lists; simp [h])
  | .error e => .isFalse (by unfold Lists; simp [h])

section Matches

variable {codec : Codec} {tokens : List String} {side : String} {price size : ℚ} {rows : List Value}
  {found : List Listed}

theorem exactMatches_lists (h : exactMatches codec tokens side price size rows = .ok found)
    {tokenId : String} (htokens : tokenId ∈ tokens) {raw : Value} :
    raw ∈ rows ∧ Lists codec side tokenId price size raw ↔
      ∃ order ∈ found, order.tokenId = tokenId ∧ order.raw = raw := by
  constructor
  · rintro ⟨hraw, order, hlisted, rfl, hterms⟩
    obtain rfl := listed_raw hlisted
    exact ⟨order, (exactMatches_mem h order).mpr ⟨hraw, hlisted, htokens, hterms⟩, rfl, rfl⟩
  · rintro ⟨order, horder, htoken, rfl⟩
    obtain ⟨hraw, hlisted, -, hterms⟩ := (exactMatches_mem h order).mp horder
    exact ⟨hraw, order, hlisted, htoken, hterms⟩

end Matches

/-- What is found is the one listed order that matches, under its id. -/
theorem Exchange.reconcileAmbiguousExit_some (x : Exchange) {outcome tokenId : String}
    {price size : ℚ} {rows : List Value} {order : PlacedOrder}
    (h : x.reconcileAmbiguousExit outcome tokenId price size (.ok rows) = .ok (some order)) :
    order.role = .exit ∧ (∃ raw ∈ rows, Lists x.codec "SELL" tokenId price size raw) ∧
      ∀ raw ∈ rows, Lists x.codec "SELL" tokenId price size raw →
        orderIdOf x.codec raw = some order.orderId := by
  unfold reconcileAmbiguousExit at h
  simp only at h
  split at h
  · exact nomatch h
  rename_i found hfound
  split at h
  swap
  · exact nomatch h
  rename_i row hrow
  obtain ⟨orderId, hid, hplaced⟩ := Option.map_eq_some_iff.mp (Except.ok.inj h)
  have hmatches : ∀ order', order' ∈ found ∧ order'.tokenId = tokenId ↔ order' = row := by
    intro order'
    have hone : order' ∈ [row] ↔ order' = row := List.mem_singleton
    rw [← hone, ← hrow, List.mem_filter, decide_eq_true_eq]
  subst hplaced
  refine ⟨rfl, ?_, ?_⟩
  · obtain ⟨horder, htoken⟩ := (hmatches row).mpr rfl
    obtain ⟨hraw, hlists⟩ := (exactMatches_lists hfound (List.mem_singleton_self _)).mpr ⟨row, horder, htoken, rfl⟩
    exact ⟨row.raw, hraw, hlists⟩
  · intro raw hraw hlists
    obtain ⟨order', horder, htoken, rfl⟩ := (exactMatches_lists hfound (List.mem_singleton_self _)).mp ⟨hraw, hlists⟩
    rw [(hmatches order').mp ⟨horder, htoken⟩]
    exact hid

namespace Service

/-- A rung reported as placed wrote its order down. -/
theorem placeExitRung_placed {x : Exchange} {row : OrderRow} {price size : ℚ} {answers : ExitAnswers}
    {b : Bot} {order : PlacedOrder} (horder : exitOrder x row price size answers = .ok order)
    (h : (placeExitRung x row price size answers).result b = .ok true) :
    ((placeExitRung x row price size answers).after b).database.orders =
      b.database.orders.put (Database.orderRow answers.now row.slug order) := by
  unfold placeExitRung at h ⊢
  simp only [bind_eq, horder] at h ⊢
  rw [after_andThen_ok (result_commit _ _)]
  rw [result_andThen_ok (result_commit _ _), after_commit] at h
  obtain ⟨_, hadded, -⟩ := andThen_returned h
  rw [after_commit, after_andThen_ok hadded, after_return]
  unfold Action.addOrder Action.query at hadded ⊢
  simp only [bind_eq] at hadded ⊢
  rw [after_andThen_ok (result_read _ _)]
  rw [result_andThen_ok (result_read _ _)] at hadded
  split
  · rfl
  · rename_i hknown
    rw [if_neg hknown] at hadded
    cases hadded

def AddsExit (before after : Database) (orderId : String) : Prop :=
  before.order orderId = none ∧ ∃ row, row.role = .exit ∧ row.orderId = orderId ∧
    after.orders.rows = before.orders.rows ++ [row]

/-- A rung placed by adopting an open order adds a new exit and overwrites no
row exactly when no listed order that matches it is on the books. -/
theorem adopted_exit_new_iff (x : Exchange) (row : OrderRow) (price size : ℚ) (answers : ExitAnswers)
    (b : Bot) (e : Exn) (rows : List Value) (order : PlacedOrder)
    (hraised : x.placeExit row.outcome row.tokenId price size answers.response = .error e)
    (hlisted : answers.openOrders = .ok rows)
    (hfound : x.reconcileAmbiguousExit row.outcome row.tokenId price size (.ok rows) =
      .ok (some order))
    (hplaced : (placeExitRung x row price size answers).result b = .ok true) :
    AddsExit b.database ((placeExitRung x row price size answers).after b).database order.orderId ↔
      ∀ raw ∈ rows, Lists x.codec "SELL" row.tokenId price size raw →
        ∀ known ∈ b.database.orders.rows, orderIdOf x.codec raw ≠ some known.orderId := by
  have horder : exitOrder x row price size answers = .ok order := by
    unfold exitOrder
    rw [hraised, hlisted, hfound]
  have hafter := placeExitRung_placed horder hplaced
  obtain ⟨hrole, ⟨raw, hraw, hmatch⟩, hids⟩ := x.reconcileAmbiguousExit_some hfound
  have hnew : b.database.order order.orderId = none ↔
      ∀ raw ∈ rows, Lists x.codec "SELL" row.tokenId price size raw →
        ∀ known ∈ b.database.orders.rows, orderIdOf x.codec raw ≠ some known.orderId := by
    unfold Database.order
    rw [Table.get?_eq_none_iff]
    constructor
    · intro h raw' hraw' hmatch' known hknown hsame
      rw [hids raw' hraw' hmatch', Option.some.injEq] at hsame
      exact h known hknown hsame.symm
    · intro h known hknown hsame
      exact h raw hraw hmatch known hknown (by rw [hids raw hraw hmatch, hsame])
  rw [← hnew]
  constructor
  · exact fun h => h.1
  · intro h
    refine ⟨h, Database.orderRow answers.now row.slug order, hrole, rfl, ?_⟩
    rw [hafter]
    exact (Table.put_adds_iff _ _).mpr h

end Service

def ladderBooks (exits : List (String × ℚ)) : Bot :=
  let entry : OrderRow := ⟨"0xa1", "btc-updown-5m-0", "up", "up-token", .buy, .entry, "", 1 / 10, 40, 40,
    "filled", 10⟩
  let exit := fun (orderId : String) (matched : ℚ) =>
    (⟨orderId, "btc-updown-5m-0", "up", "up-token", .sell, .exit, "", 1 / 5, 10, matched, "live", 20⟩ :
      OrderRow)
  let orders := exits.foldl (fun t row => t.put (exit row.1 row.2)) (Table.empty.put entry)
  Bot.boot ⟨Table.empty.put (Database.marketRow 1 pairMarket .active), orders⟩

def listedExit (orderId : String) : Value :=
  .object [("id", .string orderId), ("asset_id", .string "up-token"), ("side", .string "SELL"),
    ("price", .string "0.2"), ("original_size", .string "10"), ("status", .string "live")]

def timedOut (orderId : String) : ExitAnswers :=
  ⟨.error (.other "TimeoutError" "timed out"), .ok [listedExit orderId], 90, 0⟩

def filledEntry : OrderRow :=
  ⟨"0xa1", "btc-updown-5m-0", "up", "up-token", .buy, .entry, "", 1 / 10, 40, 40, "filled", 10⟩

def adoptedExit (orderId : String) : PlacedOrder :=
  ⟨orderId, "up", "up-token", 1 / 5, 10, "live", .sell, .exit, ""⟩

theorem adopted_exit_new_second :
    Service.AddsExit (ladderBooks [("0xe1", 4)]).database
      ((Service.placeExitRung pairExchange filledEntry (1 / 5) 10 (timedOut "0xe2")).after
        (ladderBooks [("0xe1", 4)])).database "0xe2" := by
  have hid : orderIdOf pairExchange.codec (listedExit "0xe2") = some "0xe2" := by decide +kernel
  refine (Service.adopted_exit_new_iff pairExchange filledEntry (1 / 5) 10 (timedOut "0xe2")
    (ladderBooks [("0xe1", 4)]) (.other "TimeoutError" "timed out") [listedExit "0xe2"]
    (adoptedExit "0xe2") rfl rfl (by decide +kernel) (by decide +kernel)).mpr ?_
  intro raw hraw _ known hknown
  obtain rfl := List.mem_singleton.mp hraw
  rw [hid]
  revert known
  decide +kernel

/-- The exit the venue lists is the one on the books: its row is replaced, and
what it had matched is gone. -/
theorem adopted_exit_new_known :
    let b := ladderBooks [("0xe1", 4)]
    let rung := Service.placeExitRung pairExchange filledEntry (1 / 5) 10 (timedOut "0xe1")
    pairExchange.placeExit "up" "up-token" (1 / 5) 10 (timedOut "0xe1").response =
        .error (.other "TimeoutError" "timed out") ∧
      pairExchange.reconcileAmbiguousExit "up" "up-token" (1 / 5) 10 (.ok [listedExit "0xe1"]) =
        .ok (some (adoptedExit "0xe1")) ∧
      rung.result b = .ok true ∧
      ¬ Service.AddsExit b.database (rung.after b).database "0xe1" ∧
      (b.database.order "0xe1").map (fun row => (row.matchedSize, row.createdTs)) = some (4, 20) ∧
      ((rung.after b).database.order "0xe1").map (fun row => (row.matchedSize, row.createdTs)) =
        some (0, 90) := by
  refine ⟨rfl, by decide +kernel, by decide +kernel, ?_, by decide +kernel, by decide +kernel⟩
  rintro ⟨hnew, -⟩
  have hknown : ((ladderBooks [("0xe1", 4)]).database.order "0xe1").isSome = true := by
    decide +kernel
  rw [hnew] at hknown
  cases hknown

end EventQuant
