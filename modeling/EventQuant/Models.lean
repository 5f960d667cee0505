import EventQuant.Library.Decimals

/-!
The data the service trades on: the plan, the markets, the orders placed and
what one placement came to. Prices, sizes and fractions are decimals, and what
is made of them is rounded as the run's arithmetic has it.
-/
namespace EventQuant

structure ExitTarget where
  price : ℚ
  fraction : ℚ
  deriving DecidableEq, Repr

structure TradePlan where
  buyPrice : ℚ
  exitTargets : List ExitTarget
  usdPerSide : ℚ
  deriving DecidableEq, Repr

namespace TradePlan

def buyOnly (p : TradePlan) : Bool := p.exitTargets.isEmpty

def holdFraction (p : TradePlan) (d : Decimals) : ℚ :=
  d.sub 1 (d.sum (p.exitTargets.map ExitTarget.fraction))

def orderSize (p : TradePlan) (d : Decimals) : ℚ := d.div p.usdPerSide p.buyPrice

def marketReserve (p : TradePlan) (d : Decimals) : ℚ := d.mul p.usdPerSide 2

/-- What `validate` asks of one rung. -/
def checkTarget (p : TradePlan) (d : Decimals) (target : ExitTarget) : Except String Unit :=
  if ¬ (p.buyPrice < target.price ∧ target.price < 1) then
    .error "--take-profit prices must be above --buy-price and below 1"
  else if ¬ (0 < target.fraction ∧ target.fraction ≤ 1) then
    .error "--take-profit fractions must be above 0 and at most 1"
  else if d.mul (p.orderSize d) target.fraction < 5 then
    .error "each --take-profit rung must contain at least 5 shares"
  else .ok ()

def validate (p : TradePlan) (d : Decimals) : Except String Unit :=
  let prices := p.exitTargets.map ExitTarget.price
  if ¬ (0 < p.buyPrice ∧ p.buyPrice < 1) then .error "--buy-price must be between 0 and 1"
  else if p.usdPerSide ≤ 0 then .error "--usd-per-side must be positive"
  else if p.orderSize d < 5 then .error "configured entry must be at least 5 shares"
  else if prices ≠ prices.insertionSort (· ≤ ·) ∨ ¬ prices.Nodup then
    .error "--take-profit prices must be unique and ascending"
  else do
    forM p.exitTargets (p.checkTarget d)
    if p.holdFraction d < 0 then .error "--take-profit fractions cannot total more than 1" else .ok ()

/-- What a plan that was accepted keeps to, where nothing is rounded. -/
structure Valid (p : TradePlan) : Prop where
  price : 0 < p.buyPrice ∧ p.buyPrice < 1
  usd : 0 < p.usdPerSide
  prices : (p.exitTargets.map ExitTarget.price).Nodup
  fractions : ∀ target ∈ p.exitTargets, 0 < target.fraction ∧ target.fraction ≤ 1
  total : (p.exitTargets.map ExitTarget.fraction).sum ≤ 1

theorem checkTarget_ok {p : TradePlan} {d : Decimals} {target : ExitTarget}
    (h : p.checkTarget d target = .ok ()) :
    0 < target.fraction ∧ target.fraction ≤ 1 := by
  unfold checkTarget at h
  split_ifs at h with hprice hfraction
  exact hfraction

theorem forM_checkTarget {p : TradePlan} {d : Decimals} {targets : List ExitTarget}
    (h : forM targets (p.checkTarget d) = .ok ()) :
    ∀ target ∈ targets, p.checkTarget d target = .ok () := by
  induction targets with
  | nil => exact fun _ htarget => absurd htarget List.not_mem_nil
  | cons first targets ih =>
    rw [List.forM_cons] at h
    cases hfirst : p.checkTarget d first with
    | error e =>
      rw [hfirst] at h
      cases h
    | ok _ =>
      rw [hfirst] at h
      intro target htarget
      rcases List.mem_cons.mp htarget with rfl | htarget
      · exact hfirst
      · exact ih h target htarget

theorem valid_of_validate {p : TradePlan} (h : p.validate .exact = .ok ()) : p.Valid := by
  unfold validate at h
  simp only at h
  split_ifs at h with hprice husd hsize hprices htotal
  · cases hchecks : forM p.exitTargets (p.checkTarget .exact) <;> rw [hchecks] at h <;> cases h
  · rw [not_or, not_not, not_not] at hprices
    have hchecks : forM p.exitTargets (p.checkTarget .exact) = .ok () := by
      cases hchecks : forM p.exitTargets (p.checkTarget .exact) with
      | error e =>
        rw [hchecks] at h
        cases h
      | ok _ => rfl
    refine ⟨hprice, not_le.mp husd, hprices.2,
      fun target htarget => checkTarget_ok (forM_checkTarget hchecks target htarget), ?_⟩
    simp only [holdFraction, Decimals.exact_sub, Decimals.exact_sum] at htotal
    linarith

end TradePlan

structure Market where
  slug : String
  conditionId : String
  startTs : ℤ
  endTs : ℤ
  upTokenId : String
  downTokenId : String
  minSize : ℚ
  tickSize : ℚ
  deriving DecidableEq, Repr

inductive Side
  | buy
  | sell
  deriving DecidableEq, Repr

inductive Role
  | entry
  | exit
  deriving DecidableEq, Repr

structure PlacedOrder where
  orderId : String
  outcome : String
  tokenId : String
  price : ℚ
  size : ℚ
  status : String
  side : Side
  role : Role
  account : String
  deriving DecidableEq, Repr

/-- What one account's placement came to; the defaults are the source's. -/
structure PlacementResult where
  orders : List PlacedOrder
  error : Option String := none
  retryable : Bool := false
  attempts : ℕ := 1
  expected : ℕ := 2
  registeredTsMs : Option ℤ := none
  heldBack : ℕ := 0
  gaveUp : Bool := false
  deriving DecidableEq, Repr

def PlacementResult.complete (r : PlacementResult) : Bool :=
  r.error.isNone && r.orders.length == r.expected

end EventQuant
