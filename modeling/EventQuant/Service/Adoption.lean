import EventQuant.Service.OrderSight

/-!
What it takes for an open order of the venue's list to be written down: a name
nobody has written down, a market of this run, one of its two tokens, the price
the run enters at, and fields that can be read.
-/
namespace EventQuant

open Program Store Python

namespace Service

variable (s : Service)

def listedId (raw : Value) : Value := raw.firstOf ["id", "orderID", "orderId"] .null

def listedMarket (db : Database) (raw : Value) : Option MarketRow :=
  db.marketForCondition (((raw.get "market").or (.string "")).str s.codec) s.runId

def listedToken (raw : Value) : String := ((raw.get "asset_id").or (.string "")).str s.codec

/-- An order without a price is taken to be at the run's own. -/
def listedPrice (raw : Value) : Except String DecimalValue :=
  if (raw.get "price").truthy then toDecimal s.codec (raw.get "price")
  else .ok (.finite s.plan.buyPrice)

def listedSize (raw : Value) : Except String DecimalValue :=
  toDecimal s.codec (raw.firstOf ["original_size", "size"] (.string "0"))

def listedSide (raw : Value) : Side :=
  if upper ((raw.get "side").str s.codec) = "SELL" then .sell else .buy

/-- The order is written down for that market. -/
structure AdoptedAs (db : Database) (raw : Value) (market : MarketRow) (o : PlacedOrder) : Prop where
  named : (listedId raw).truthy = true ∧ o.orderId = (listedId raw).str s.codec
  unknown : db.order o.orderId = none
  onMarket : s.listedMarket db raw = some market
  token : s.listedToken raw = market.upTokenId ∨ s.listedToken raw = market.downTokenId
  price : s.listedPrice raw = .ok (.finite s.plan.buyPrice)
  status : ∃ matched, normalizeOrder s.codec raw = .ok (o.status, matched)
  opened : o.status ∉ terminalStates
  size : s.listedSize raw = .ok (.finite o.size)

variable {s} {db : Database} {raw : Value}

/-- Whatever is written down meets every guard. -/
theorem adoptable_some {slug : String} {o : PlacedOrder}
    (h : s.adoptable db raw = .ok (some (slug, o))) :
    ∃ market, market.slug = slug ∧ s.AdoptedAs db raw market o := by
  unfold adoptable at h
  simp only at h
  split at h
  · exact nomatch h
  rename_i hnamed
  simp only [Bool.not_eq_true', not_or, Bool.not_eq_false, Bool.not_eq_true,
    Option.isSome_eq_false_iff, Option.isNone_iff_eq_none] at hnamed
  split at h
  · exact nomatch h
  rename_i market hmarket
  split at h
  · exact nomatch h
  rename_i outcome houtcome
  split at h
  · exact nomatch h
  rename_i price hprice
  split at h
  · exact nomatch h
  rename_i hours
  split at h
  · exact nomatch h
  rename_i status matched hstatus
  split at h
  · exact nomatch h
  rename_i hopen
  split at h
  · exact nomatch h
  rename_i size hsize
  obtain ⟨rfl, rfl⟩ := Prod.mk.inj (Option.some.inj (Except.ok.inj h))
  refine ⟨market, rfl, ⟨hnamed.1, rfl⟩, hnamed.2, hmarket, ?_, ?_, ⟨matched, hstatus⟩, hopen,
    toNumber_ok.mp hsize⟩
  · split at houtcome
    · rename_i hup
      exact .inl hup
    · split at houtcome
      · rename_i hdown
        exact .inr hdown
      · exact nomatch houtcome
  · rw [← not_not.mp hours]
    exact hprice

/-- And whatever meets every guard is written down. -/
theorem adoptable_of {market : MarketRow} {o : PlacedOrder} (h : s.AdoptedAs db raw market o) :
    ∃ o', o'.orderId = o.orderId ∧ o'.status = o.status ∧
      s.adoptable db raw = .ok (some (market.slug, o')) := by
  obtain ⟨matched, hstatus⟩ := h.status
  have hunknown : db.order ((listedId raw).str s.codec) = none := h.named.2 ▸ h.unknown
  have houtcome : ∃ outcome, (if s.listedToken raw = market.upTokenId then some "up"
      else if s.listedToken raw = market.downTokenId then some "down" else none) =
        some outcome := by
    rcases h.token with hup | hdown
    · exact ⟨"up", if_pos hup⟩
    · by_cases hup : s.listedToken raw = market.upTokenId
      · exact ⟨"up", if_pos hup⟩
      · exact ⟨"down", by rw [if_neg hup, if_pos hdown]⟩
  obtain ⟨outcome, houtcome⟩ := houtcome
  have hmarket := h.onMarket
  have hprice := h.price
  have hsize := toNumber_ok.mpr h.size
  have hnamed := h.named
  simp only [listedId, listedMarket, listedToken, listedPrice] at *
  unfold adoptable
  simp only [hnamed.1, hunknown, hmarket, hprice, hstatus, h.opened, hsize]
  rw [if_neg (by simp)]
  split
  · rename_i hnone
    exact nomatch hnone.symm.trans houtcome
  · rw [if_neg (not_not.mpr rfl), if_neg not_false]
    refine ⟨_, ?_, ?_, rfl⟩
    · exact hnamed.2.symm
    · rfl

end Service

end EventQuant
