import EventQuant.Paper

/-!
The two routes to one level. A sale of a token and a purchase of the opposite
one at the complementary price say the same of both levels, so a market's paper
result does not depend on which route its trades took, nor on their order; and
more trades never fill less.
-/
namespace EventQuant.Paper

open Python

def Trade.mirror (up down : String) (t : Trade) : Trade where
  assetId := if t.assetId = up then down else if t.assetId = down then up else t.assetId
  side := if t.side = "SELL" then "BUY" else if t.side = "BUY" then "SELL" else t.side
  price := 1 - t.price
  size := t.size

def Rearranged (up down : String) (trades trades' : List Trade) : Prop :=
  ∃ routed, List.Forall₂ (fun t t' => t' = t ∨ t' = t.mirror up down) trades routed ∧
    routed.Perm trades'

def PaperResult.totals (r : PaperResult) : String × ℚ × ℚ × ℚ × ℚ × ℚ :=
  (r.winnerOutcome, r.upFill, r.downFill, r.grossCost, r.grossPayout, r.pnlBeforeRebates)

/-! ### One trade -/

section Level

variable (up down : String) (buyPrice : ℚ)

theorem Trade.mirror_comm (t : Trade) : t.mirror up down = t.mirror down up := by
  by_cases hup : t.assetId = up
  · by_cases hdown : t.assetId = down
    · simp [mirror, hup, ← hdown]
    · simp [mirror, hup, hup ▸ hdown]
  · by_cases hdown : t.assetId = down <;> simp [mirror, hup, hdown]

/-- Both routes hit the same bid. -/
theorem Trade.bidPrice_mirror (t : Trade) :
    (t.mirror up down).bidPrice up down = t.bidPrice up down := by
  by_cases hsell : t.side = "SELL"
  · by_cases hup : t.assetId = up
    · simp [bidPrice, mirror, hsell, hup]
    · by_cases hdown : t.assetId = down
      · have hne : ¬ down = up := fun h => hup (hdown.trans h)
        simp [bidPrice, mirror, hsell, hdown, hne, Ne.symm hne]
      · simp [bidPrice, mirror, hsell, hup, hdown]
  · by_cases hbuy : t.side = "BUY"
    · by_cases hdown : t.assetId = down
      · by_cases heq : down = up <;> simp [bidPrice, mirror, hbuy, hdown, heq]
      · by_cases hup : t.assetId = up
        · have hne : ¬ up = down := fun h => hdown (hup.trans h)
          simp [bidPrice, mirror, hbuy, hup, hne, Ne.symm hne]
        · simp [bidPrice, mirror, hbuy, hup, hdown]
    · simp [bidPrice, mirror, hsell, hbuy]

theorem Trade.volumeAt_mirror (t : Trade) :
    (t.mirror up down).volumeAt up down buyPrice = t.volumeAt up down buyPrice := by
  unfold volumeAt
  rw [bidPrice_mirror]
  rfl

theorem Trade.through_mirror (t : Trade) :
    (t.mirror up down).through up down buyPrice = t.through up down buyPrice := by
  unfold through
  rw [bidPrice_mirror]

/-! ### A list of trades -/


theorem Rearranged.symm_tokens {up down : String} {trades trades' : List Trade} (h : Rearranged up down trades trades') :
    Rearranged down up trades trades' := by
  obtain ⟨routed, hrouted, hperm⟩ := h
  refine ⟨routed, hrouted.imp fun t t' ht => ?_, hperm⟩
  rw [Trade.mirror_comm down up]
  exact ht

/-- Volume and crossing are the same of rearranged trades. -/
theorem Rearranged.evidence {up down : String} {trades trades' : List Trade} (buyPrice : ℚ)
    (h : Rearranged up down trades trades') :
    (trades'.map (Trade.volumeAt up down buyPrice)).sum =
        (trades.map (Trade.volumeAt up down buyPrice)).sum ∧
      trades'.any (Trade.through up down buyPrice) = trades.any (Trade.through up down buyPrice) := by
  obtain ⟨routed, hrouted, hperm⟩ := h
  rw [← (hperm.map _).sum_eq, ← hperm.any_eq]
  clear hperm
  induction hrouted with
  | nil => exact ⟨rfl, rfl⟩
  | @cons t t' trades routed ht _ ih =>
    have hsame : t'.volumeAt up down buyPrice = t.volumeAt up down buyPrice ∧
        t'.through up down buyPrice = t.through up down buyPrice := by
      obtain rfl | rfl := ht
      · exact ⟨rfl, rfl⟩
      · exact ⟨Trade.volumeAt_mirror up down buyPrice t, Trade.through_mirror up down buyPrice t⟩
    obtain ⟨hvolume, hcrossed⟩ := ih
    rw [List.map_cons, List.sum_cons, List.any_cons, hvolume, hcrossed, hsame.1, hsame.2]
    exact ⟨rfl, rfl⟩

/-- More trades take no less at the price, and cross it if fewer did. -/
theorem evidence_mono {trades trades' : List Trade} (h : trades.Subperm trades')
    (hsizes : ∀ t ∈ trades', 0 ≤ t.size) :
    (trades.map (Trade.volumeAt up down buyPrice)).sum ≤
        (trades'.map (Trade.volumeAt up down buyPrice)).sum ∧
      (trades.any (Trade.through up down buyPrice) = true →
        trades'.any (Trade.through up down buyPrice) = true) := by
  obtain ⟨listed, hperm, hsub⟩ := h
  rw [← (hperm.map _).sum_eq, ← hperm.any_eq]
  constructor
  · refine (hsub.map _).sum_le_sum fun a ha => ?_
    obtain ⟨t, ht, rfl⟩ := List.mem_map.mp ha
    unfold Trade.volumeAt
    split
    · exact hsizes t ht
    · exact le_refl _
  · intro hany
    obtain ⟨t, ht, hthrough⟩ := List.any_eq_true.mp hany
    exact List.any_eq_true.mpr ⟨t, hsub.subset ht, hthrough⟩

end Level

theorem fifoFill_mono {queueAhead orderSize : ℚ} {a b : ExecutionEvidence}
    (hvolume : a.boundaryVolume ≤ b.boundaryVolume) (hcrossed : a.crossed = true → b.crossed = true) :
    fifoFill queueAhead orderSize a ≤ fifoFill queueAhead orderSize b := by
  by_cases hb : b.crossed = true
  · have hfull : fifoFill queueAhead orderSize b = orderSize := if_pos hb
    rw [hfull]
    exact fifoFill_le_orderSize _ _ a
  · have ha : ¬ a.crossed = true := fun h => hb (hcrossed h)
    unfold fifoFill
    rw [if_neg ha, if_neg hb]
    exact min_le_min (le_refl _) (max_le_max (le_refl _) (by linarith))

theorem fifoFill_congr {a b : ExecutionEvidence} (queueAhead orderSize : ℚ)
    (hvolume : a.boundaryVolume = b.boundaryVolume) (hcrossed : a.crossed = b.crossed) :
    fifoFill queueAhead orderSize a = fifoFill queueAhead orderSize b := by
  unfold fifoFill
  rw [hvolume, hcrossed]

/-! ### The result -/

section Result

variable {codec : Codec} {winnerOutcome up down : String}
  {buyPrice orderSize upQueueAhead downQueueAhead : ℚ} {records : List Value}
  {trades : List Trade}

/-- A result is put together from both levels' evidence. -/
theorem calculateResult_eq (winnerOutcome up down : String)
    (buyPrice orderSize upQueueAhead downQueueAhead : ℚ)
    (hread : records.mapM (readTrade codec) = .ok trades) :
    ∃ upEvidence downEvidence : ExecutionEvidence,
      upEvidence.boundaryVolume = (trades.map (Trade.volumeAt up down buyPrice)).sum ∧
      upEvidence.crossed = trades.any (Trade.through up down buyPrice) ∧
      downEvidence.boundaryVolume = (trades.map (Trade.volumeAt down up buyPrice)).sum ∧
      downEvidence.crossed = trades.any (Trade.through down up buyPrice) ∧
      calculateResult codec winnerOutcome records up down buyPrice orderSize upQueueAhead
        downQueueAhead =
        if lower winnerOutcome ≠ "up" ∧ lower winnerOutcome ≠ "down" then
          .error ("unsupported winning outcome: " ++ winnerOutcome)
        else
          .ok ⟨lower winnerOutcome, upEvidence, downEvidence,
            fifoFill upQueueAhead orderSize upEvidence,
            fifoFill downQueueAhead orderSize downEvidence,
            buyPrice * (fifoFill upQueueAhead orderSize upEvidence +
              fifoFill downQueueAhead orderSize downEvidence),
            if lower winnerOutcome = "up" then fifoFill upQueueAhead orderSize upEvidence
              else fifoFill downQueueAhead orderSize downEvidence,
            (if lower winnerOutcome = "up" then fifoFill upQueueAhead orderSize upEvidence
              else fifoFill downQueueAhead orderSize downEvidence) -
                buyPrice * (fifoFill upQueueAhead orderSize upEvidence +
                  fifoFill downQueueAhead orderSize downEvidence)⟩ := by
  obtain ⟨upEvidence, hup, hupVolume, hupCrossed⟩ := executionEvidence_eq up down buyPrice hread
  obtain ⟨downEvidence, hdown, hdownVolume, hdownCrossed⟩ :=
    executionEvidence_eq down up buyPrice hread
  refine ⟨upEvidence, downEvidence, hupVolume, hupCrossed, hdownVolume, hdownCrossed, ?_⟩
  by_cases hwinner : lower winnerOutcome ≠ "up" ∧ lower winnerOutcome ≠ "down"
  · rw [if_pos hwinner, calculateResult, if_pos hwinner]
    rfl
  · rw [if_neg hwinner, calculateResult, if_neg hwinner, hup, hdown]
    rfl

/-- A market's paper result is the same in any order of its trades and by
either route of each; more trades fill no less; and the cost, the payout and
the profit keep to the order's size and price. -/
theorem calculateResult_routes (hread : records.mapM (readTrade codec) = .ok trades) :
    (∀ records' trades', records'.mapM (readTrade codec) = .ok trades' →
      Rearranged up down trades trades' →
      (calculateResult codec winnerOutcome records' up down buyPrice orderSize upQueueAhead
        downQueueAhead).map PaperResult.totals =
        (calculateResult codec winnerOutcome records up down buyPrice orderSize upQueueAhead
          downQueueAhead).map PaperResult.totals) ∧
    (∀ records' trades' r r', records'.mapM (readTrade codec) = .ok trades' →
      trades.Subperm trades' → (∀ t ∈ trades', 0 ≤ t.size) →
      calculateResult codec winnerOutcome records up down buyPrice orderSize upQueueAhead
        downQueueAhead = .ok r →
      calculateResult codec winnerOutcome records' up down buyPrice orderSize upQueueAhead
        downQueueAhead = .ok r' →
      r.upFill ≤ r'.upFill ∧ r.downFill ≤ r'.downFill) ∧
    (∀ r, 0 ≤ buyPrice → 0 ≤ orderSize →
      calculateResult codec winnerOutcome records up down buyPrice orderSize upQueueAhead
        downQueueAhead = .ok r →
      (0 ≤ r.grossCost ∧ r.grossCost ≤ 2 * buyPrice * orderSize) ∧
        r.grossPayout ≤ orderSize ∧ r.pnlBeforeRebates = r.grossPayout - r.grossCost) := by
  obtain ⟨upEvidence, downEvidence, hupVolume, hupCrossed, hdownVolume, hdownCrossed, hresult⟩ :=
    calculateResult_eq winnerOutcome up down buyPrice orderSize upQueueAhead downQueueAhead hread
  refine ⟨fun records' trades' hread' hrearranged => ?_,
    fun records' trades' r r' hread' hsub hsizes hr hr' => ?_, fun r hprice hsize hr => ?_⟩
  · obtain ⟨upEvidence', downEvidence', hupVolume', hupCrossed', hdownVolume', hdownCrossed',
      hresult'⟩ := calculateResult_eq winnerOutcome up down buyPrice orderSize upQueueAhead
        downQueueAhead hread'
    have hup := hrearranged.evidence buyPrice
    have hdown := hrearranged.symm_tokens.evidence buyPrice
    have hupFill : fifoFill upQueueAhead orderSize upEvidence' =
        fifoFill upQueueAhead orderSize upEvidence :=
      fifoFill_congr _ _ (by rw [hupVolume', hupVolume, hup.1]) (by rw [hupCrossed', hupCrossed, hup.2])
    have hdownFill : fifoFill downQueueAhead orderSize downEvidence' =
        fifoFill downQueueAhead orderSize downEvidence :=
      fifoFill_congr _ _ (by rw [hdownVolume', hdownVolume, hdown.1])
        (by rw [hdownCrossed', hdownCrossed, hdown.2])
    rw [hresult, hresult', hupFill, hdownFill]
    split
    · rfl
    · rfl
  · obtain ⟨upEvidence', downEvidence', hupVolume', hupCrossed', hdownVolume', hdownCrossed',
      hresult'⟩ := calculateResult_eq winnerOutcome up down buyPrice orderSize upQueueAhead
        downQueueAhead hread'
    obtain ⟨hupMore, hupAny⟩ := evidence_mono up down buyPrice hsub hsizes
    obtain ⟨hdownMore, hdownAny⟩ := evidence_mono down up buyPrice hsub hsizes
    rw [hresult] at hr
    rw [hresult'] at hr'
    split at hr
    · cases hr
    · rename_i hwinner
      rw [if_neg hwinner] at hr'
      obtain rfl := Except.ok.inj hr
      obtain rfl := Except.ok.inj hr'
      exact ⟨fifoFill_mono (by rw [hupVolume, hupVolume']; exact hupMore)
          (by rw [hupCrossed, hupCrossed']; exact hupAny),
        fifoFill_mono (by rw [hdownVolume, hdownVolume']; exact hdownMore)
          (by rw [hdownCrossed, hdownCrossed']; exact hdownAny)⟩
  · rw [hresult] at hr
    split at hr
    · cases hr
    · obtain rfl := Except.ok.inj hr
      have hup0 : 0 ≤ fifoFill upQueueAhead orderSize upEvidence := fifoFill_nonneg hsize _
      have hdown0 : 0 ≤ fifoFill downQueueAhead orderSize downEvidence := fifoFill_nonneg hsize _
      have hup := fifoFill_le_orderSize upQueueAhead orderSize upEvidence
      have hdown := fifoFill_le_orderSize downQueueAhead orderSize downEvidence
      refine ⟨⟨mul_nonneg hprice (add_nonneg hup0 hdown0), ?_⟩, ?_, rfl⟩
      · calc buyPrice * (fifoFill upQueueAhead orderSize upEvidence +
              fifoFill downQueueAhead orderSize downEvidence)
            ≤ buyPrice * (orderSize + orderSize) :=
              mul_le_mul_of_nonneg_left (add_le_add hup hdown) hprice
          _ = 2 * buyPrice * orderSize := by ring
      · show (if lower winnerOutcome = "up" then _ else _) ≤ orderSize
        split
        · exact hup
        · exact hdown

end Result

def rearrangedRecords : List Value :=
  [.object [("asset", .string "down"), ("side", .string "BUY"), ("price", .string "0.99"),
      ("size", .string "60")],
    .object [("asset_id", .string "down"), ("side", .string "buy"), ("price", .string "0.98"),
      ("size", .string "500")],
    .object [("asset", .string "up"), ("side", .string "sell"), ("price", .string "0.01"),
      ("size", .string "70")]]

theorem calculateResult_routes_example :
    (calculateResult textCodec "Up" rearrangedRecords "up" "down" (1/100) 100 50 50).map
        PaperResult.totals =
      (calculateResult textCodec "Up" exampleRecords "up" "down" (1/100) 100 50 50).map
        PaperResult.totals := by
  have hread : exampleRecords.mapM (readTrade textCodec) =
      .ok [⟨"down", "BUY", 99/100, 70⟩, ⟨"down", "BUY", 98/100, 500⟩, ⟨"up", "SELL", 1/100, 60⟩] := by
    decide +kernel
  have hread' : rearrangedRecords.mapM (readTrade textCodec) =
      .ok [⟨"down", "BUY", 99/100, 60⟩, ⟨"down", "BUY", 98/100, 500⟩, ⟨"up", "SELL", 1/100, 70⟩] := by
    decide +kernel
  refine (calculateResult_routes hread).1 _ _ hread'
    ⟨[⟨"up", "SELL", 1/100, 70⟩, ⟨"down", "BUY", 98/100, 500⟩, ⟨"down", "BUY", 99/100, 60⟩], ?_, ?_⟩
  · refine .cons (Or.inr ?_) (.cons (Or.inl rfl) (.cons (Or.inr ?_) .nil))
    · decide +kernel
    · decide +kernel
  · decide +kernel

end EventQuant.Paper
