import EventQuant.Library.PriceLevels
import EventQuant.Python.Value

/-!
The paper simulation: what the market's public trades say about an order that
was never sent, and what it would have been filled. The queue of the price it
would rest at is `PriceLevels` at nonnegative rationals; a direct sale of its
outcome and a complementary buy of the opposite one both meet that queue. The
fill the simulation reports is at most what the order in the queue was filled.
-/
namespace EventQuant.Paper

open Python PriceLevels

/-- The fields `execution_evidence` reads of a trade. -/
structure Trade where
  assetId : String
  side : String
  price : ℚ
  size : ℚ
  deriving DecidableEq

/-- One trade of the public list; `Decimal` raises on a text that is no number. -/
def readTrade (codec : Codec) (trade : Value) : Except String Trade := do
  let assetId := (trade.firstOf ["asset", "asset_id"] (.string "")).str codec
  let side := upper ((trade.firstOf ["side"] (.string "")).str codec)
  let price ← toNumber codec (trade.firstOf ["price"] (.string "0"))
  let size ← toNumber codec (trade.firstOf ["size"] (.string "0"))
  return ⟨assetId, side, price, size⟩

structure ExecutionEvent where
  timestamp : Value
  transactionHash : Value
  assetId : String
  side : String
  price : ℚ
  size : ℚ
  route : String
  through : Bool

structure ExecutionEvidence where
  boundaryVolume : ℚ
  crossed : Bool
  events : List ExecutionEvent

/-- The loop's turn on one trade: a trade on neither route, or on the far side
of the price, says nothing. -/
def evidenceStep (tokenId oppositeTokenId : String) (buyPrice : ℚ) (evidence : ExecutionEvidence)
    (record : Value) (trade : Trade) : ExecutionEvidence :=
  let direct := trade.assetId == tokenId && trade.side == "SELL"
  let complementary := trade.assetId == oppositeTokenId && trade.side == "BUY"
  if !direct && !complementary then evidence
  else
    let threshold := if direct then buyPrice else 1 - buyPrice
    let through := if direct then decide (trade.price < threshold) else decide (trade.price > threshold)
    let atBoundary := decide (trade.price = threshold)
    if !through && !atBoundary then evidence
    else
      { boundaryVolume :=
          if through then evidence.boundaryVolume else evidence.boundaryVolume + trade.size
        crossed := evidence.crossed || through
        events := evidence.events ++ [⟨record.get "timestamp", record.get "transactionHash",
          trade.assetId, trade.side, trade.price, trade.size,
          if direct then "direct" else "complementary", through⟩] }

def executionEvidence (codec : Codec) (trades : List Value) (tokenId oppositeTokenId : String)
    (buyPrice : ℚ) : Except String ExecutionEvidence :=
  trades.foldlM (fun evidence record =>
    (evidenceStep tokenId oppositeTokenId buyPrice evidence record) <$> readTrade codec record)
    ⟨0, false, []⟩

def fifoFill (queueAhead orderSize : ℚ) (evidence : ExecutionEvidence) : ℚ :=
  if evidence.crossed then orderSize
  else min orderSize (max 0 (evidence.boundaryVolume - queueAhead))

structure PaperResult where
  winnerOutcome : String
  upEvidence : ExecutionEvidence
  downEvidence : ExecutionEvidence
  upFill : ℚ
  downFill : ℚ
  grossCost : ℚ
  grossPayout : ℚ
  pnlBeforeRebates : ℚ

def calculateResult (codec : Codec) (winnerOutcome : String) (trades : List Value)
    (upTokenId downTokenId : String) (buyPrice orderSize upQueueAhead downQueueAhead : ℚ) :
    Except String PaperResult := do
  let winner := lower winnerOutcome
  if winner ≠ "up" ∧ winner ≠ "down" then
    throw ("unsupported winning outcome: " ++ winnerOutcome)
  let upEvidence ← executionEvidence codec trades upTokenId downTokenId buyPrice
  let downEvidence ← executionEvidence codec trades downTokenId upTokenId buyPrice
  let upFill := fifoFill upQueueAhead orderSize upEvidence
  let downFill := fifoFill downQueueAhead orderSize downEvidence
  let grossCost := buyPrice * (upFill + downFill)
  let grossPayout := if winner = "up" then upFill else downFill
  return ⟨winner, upEvidence, downEvidence, upFill, downFill, grossCost, grossPayout,
    grossPayout - grossCost⟩

section Level

variable (tokenId oppositeTokenId : String) (buyPrice : ℚ)

/-- The bid price of the token a trade hits: a taker sold the token, or bought
the opposite one against a bid for this one. -/
def Trade.bidPrice (t : Trade) : Option ℚ :=
  if t.assetId = tokenId ∧ t.side = "SELL" then some t.price
  else if t.assetId = oppositeTokenId ∧ t.side = "BUY" then some (1 - t.price)
  else none

def Trade.volumeAt (t : Trade) : ℚ :=
  if t.bidPrice tokenId oppositeTokenId = some buyPrice then t.size else 0

def Trade.through (t : Trade) : Bool :=
  (t.bidPrice tokenId oppositeTokenId).any (· < buyPrice)

/-- What can happen around the level: any trade of the market, a cancel of the
order at a place, an order that joins. -/
inductive MarketEvent
  | trade (t : Trade)
  | canceled (place : ℕ) (volume : ℚ≥0)
  | joined (volume : ℚ≥0)

def MarketEvent.atLevel : MarketEvent → List (Event ℚ≥0)
  | .trade t =>
    if t.through tokenId oppositeTokenId buyPrice then [.through]
    else if t.bidPrice tokenId oppositeTokenId = some buyPrice then [.taken t.size.toNNRat]
    else []
  | .canceled i v => [.canceled i v]
  | .joined v => [.joined v]

def tradesOf : List MarketEvent → List Trade
  | [] => []
  | .trade t :: history => t :: tradesOf history
  | .canceled _ _ :: history | .joined _ :: history => tradesOf history

def levelEvents (history : List MarketEvent) : List (Event ℚ≥0) :=
  history.flatMap (MarketEvent.atLevel tokenId oppositeTokenId buyPrice)

/-- An order of the size joined behind the others and this happened then. -/
structure LevelHistory (ahead : List ℚ≥0) (orderSize : ℚ≥0) (history : List MarketEvent) :
    Prop where
  sizes : ∀ t ∈ tradesOf history, 0 ≤ t.size
  level : (Level.join ahead orderSize).History (levelEvents tokenId oppositeTokenId buyPrice history)

def filled (ahead : List ℚ≥0) (orderSize : ℚ≥0) (history : List MarketEvent) : ℚ≥0 :=
  orderSize -
    ((Level.join ahead orderSize).run (levelEvents tokenId oppositeTokenId buyPrice history)).ours

theorem levelEvents_cons (e : MarketEvent) (history : List MarketEvent) :
    levelEvents tokenId oppositeTokenId buyPrice (e :: history) =
      e.atLevel tokenId oppositeTokenId buyPrice ++
        levelEvents tokenId oppositeTokenId buyPrice history :=
  List.flatMap_cons

theorem Trade.volumeAt_of_through {t : Trade} (h : t.through tokenId oppositeTokenId buyPrice) :
    t.volumeAt tokenId oppositeTokenId buyPrice = 0 := by
  refine if_neg fun hprice => ?_
  simp [Trade.through, hprice] at h

theorem evidenceStep_elsewhere {t : Trade} (evidence : ExecutionEvidence) (record : Value)
    (hdirect : ¬ (t.assetId = tokenId ∧ t.side = "SELL"))
    (hcomplement : ¬ (t.assetId = oppositeTokenId ∧ t.side = "BUY")) :
    evidenceStep tokenId oppositeTokenId buyPrice evidence record t = evidence := by
  simp [evidenceStep, not_and_or.mp hdirect, not_and_or.mp hcomplement]

/-- A turn of the loop adds what the trade takes at the price, on either route. -/
theorem evidenceStep_boundaryVolume (evidence : ExecutionEvidence) (record : Value) (t : Trade) :
    (evidenceStep tokenId oppositeTokenId buyPrice evidence record t).boundaryVolume =
      evidence.boundaryVolume + t.volumeAt tokenId oppositeTokenId buyPrice := by
  by_cases hdirect : t.assetId = tokenId ∧ t.side = "SELL"
  · obtain ⟨htoken, hside⟩ := hdirect
    by_cases hprice : t.price = buyPrice
    · simp [evidenceStep, Trade.volumeAt, Trade.bidPrice, htoken, hside, hprice]
    · by_cases hlt : t.price < buyPrice <;> simp [evidenceStep, Trade.volumeAt, Trade.bidPrice, htoken, hside, hprice, hlt]
  · by_cases hcomplement : t.assetId = oppositeTokenId ∧ t.side = "BUY"
    · obtain ⟨htoken, hside⟩ := hcomplement
      have hiff : 1 - t.price = buyPrice ↔ t.price = 1 - buyPrice :=
        ⟨fun h => by linarith, fun h => by linarith⟩
      by_cases hprice : t.price = 1 - buyPrice
      · simp [evidenceStep, Trade.volumeAt, Trade.bidPrice, htoken, hside, hprice]
      · by_cases hgt : 1 - buyPrice < t.price <;> simp [evidenceStep, Trade.volumeAt, Trade.bidPrice, htoken, hside, hiff, hprice, hgt]
    · rw [evidenceStep_elsewhere tokenId oppositeTokenId buyPrice _ _ hdirect hcomplement]
      simp [Trade.volumeAt, Trade.bidPrice, hdirect, hcomplement]

theorem evidenceStep_crossed (evidence : ExecutionEvidence) (record : Value) (t : Trade) :
    (evidenceStep tokenId oppositeTokenId buyPrice evidence record t).crossed =
      (evidence.crossed || t.through tokenId oppositeTokenId buyPrice) := by
  by_cases hdirect : t.assetId = tokenId ∧ t.side = "SELL"
  · obtain ⟨htoken, hside⟩ := hdirect
    by_cases hlt : t.price < buyPrice
    · simp [evidenceStep, Trade.through, Trade.bidPrice, htoken, hside, hlt]
    · by_cases hprice : t.price = buyPrice <;> simp [evidenceStep, Trade.through, Trade.bidPrice, htoken, hside, hlt, hprice]
  · by_cases hcomplement : t.assetId = oppositeTokenId ∧ t.side = "BUY"
    · obtain ⟨htoken, hside⟩ := hcomplement
      have hiff : 1 - t.price < buyPrice ↔ 1 - buyPrice < t.price :=
        ⟨fun h => by linarith, fun h => by linarith⟩
      by_cases hgt : 1 - buyPrice < t.price
      · simp [evidenceStep, Trade.through, Trade.bidPrice, htoken, hside, hiff, hgt]
      · by_cases hprice : t.price = 1 - buyPrice <;> simp [evidenceStep, Trade.through, Trade.bidPrice, htoken, hside, hiff, hgt, hprice]
    · rw [evidenceStep_elsewhere tokenId oppositeTokenId buyPrice _ _ hdirect hcomplement]
      simp [Trade.through, Trade.bidPrice, hdirect, hcomplement]

/-- The loop is its turns on the trades the records read as. -/
theorem executionEvidence_eq {codec : Codec} {records : List Value} {trades : List Trade}
    (hread : records.mapM (readTrade codec) = .ok trades) :
    ∃ evidence,
      executionEvidence codec records tokenId oppositeTokenId buyPrice = .ok evidence ∧
      evidence.boundaryVolume =
        (trades.map (Trade.volumeAt tokenId oppositeTokenId buyPrice)).sum ∧
      evidence.crossed = trades.any (Trade.through tokenId oppositeTokenId buyPrice) := by
  suffices hloop : ∀ start : ExecutionEvidence, ∃ evidence,
      records.foldlM (fun evidence record =>
        (evidenceStep tokenId oppositeTokenId buyPrice evidence record) <$> readTrade codec record)
        start = .ok evidence ∧
      evidence.boundaryVolume = start.boundaryVolume +
        (trades.map (Trade.volumeAt tokenId oppositeTokenId buyPrice)).sum ∧
      evidence.crossed =
        (start.crossed || trades.any (Trade.through tokenId oppositeTokenId buyPrice)) by
    simpa [executionEvidence] using hloop ⟨0, false, []⟩
  induction records generalizing trades with
  | nil =>
    intro start
    obtain rfl : [] = trades := Except.ok.inj hread
    exact ⟨start, rfl, by simp, by simp⟩
  | cons record records ih =>
    intro start
    obtain ⟨trade, rest, hrecord, hrest, rfl⟩ : ∃ trade rest, readTrade codec record = .ok trade ∧
        records.mapM (readTrade codec) = .ok rest ∧ trades = trade :: rest := by
      rw [List.mapM_cons] at hread
      cases hrecord : readTrade codec record with
      | error e => rw [hrecord] at hread; exact nomatch hread
      | ok trade =>
        cases hrest : records.mapM (readTrade codec) with
        | error e => rw [hrecord, hrest] at hread; exact nomatch hread
        | ok rest =>
          rw [hrecord, hrest] at hread
          exact ⟨trade, rest, rfl, rfl, (Except.ok.inj hread).symm⟩
    obtain ⟨evidence, hloop, hvolume, hcrossed⟩ :=
      ih hrest (evidenceStep tokenId oppositeTokenId buyPrice start record trade)
    refine ⟨evidence, ?_, ?_, ?_⟩
    · rw [List.foldlM_cons, hrecord]
      exact hloop
    · rw [hvolume, evidenceStep_boundaryVolume, List.map_cons, List.sum_cons, add_assoc]
    · rw [hcrossed, evidenceStep_crossed, List.any_cons, Bool.or_assoc]

/-- The level sees the volume of the trades that hit its price, whatever the route. -/
theorem taken_levelEvents (history : List MarketEvent)
    (hsizes : ∀ t ∈ tradesOf history, 0 ≤ t.size) :
    ((taken (levelEvents tokenId oppositeTokenId buyPrice history) : ℚ≥0) : ℚ) =
      ((tradesOf history).map (Trade.volumeAt tokenId oppositeTokenId buyPrice)).sum := by
  induction history with
  | nil => rfl
  | cons e history ih =>
    cases e with
    | trade t =>
      have hsize : 0 ≤ t.size := hsizes t (.head _)
      have hrest := ih fun u hu => hsizes u (.tail _ hu)
      rw [tradesOf, List.map_cons, List.sum_cons, ← hrest, levelEvents_cons]
      by_cases hthrough : t.through tokenId oppositeTokenId buyPrice
      · rw [Trade.volumeAt_of_through _ _ _ hthrough, zero_add]
        simp [MarketEvent.atLevel, hthrough, taken]
      · by_cases hprice : t.bidPrice tokenId oppositeTokenId = some buyPrice
        · simp [MarketEvent.atLevel, hthrough, hprice, taken, Trade.volumeAt, Rat.coe_toNNRat _ hsize]
        · simp [MarketEvent.atLevel, hthrough, hprice, Trade.volumeAt]
    | canceled i v => exact ih hsizes
    | joined v => exact ih hsizes

theorem crossed_levelEvents (history : List MarketEvent) :
    crossed (levelEvents tokenId oppositeTokenId buyPrice history) =
      (tradesOf history).any (Trade.through tokenId oppositeTokenId buyPrice) := by
  induction history with
  | nil => rfl
  | cons e history ih =>
    cases e with
    | trade t =>
      rw [tradesOf, List.any_cons, ← ih, levelEvents_cons]
      by_cases hthrough : t.through tokenId oppositeTokenId buyPrice
      · simp [MarketEvent.atLevel, hthrough, crossed]
      · by_cases hprice : t.bidPrice tokenId oppositeTokenId = some buyPrice
        · simp [MarketEvent.atLevel, hthrough, hprice, crossed]
        · simp [MarketEvent.atLevel, hthrough, hprice]
    | canceled i v => exact ih
    | joined v => exact ih

/-- The records read as the history's trades, in whatever order they are listed. -/
def Reported (codec : Codec) (records : List Value) (history : List MarketEvent) : Prop :=
  ∃ trades, records.mapM (readTrade codec) = .ok trades ∧ trades.Perm (tradesOf history)

theorem executionEvidence_reported {codec : Codec} {records : List Value}
    {history : List MarketEvent} (h : Reported codec records history)
    (hsizes : ∀ t ∈ tradesOf history, 0 ≤ t.size) :
    ∃ evidence,
      executionEvidence codec records tokenId oppositeTokenId buyPrice = .ok evidence ∧
      evidence.boundaryVolume =
        (taken (levelEvents tokenId oppositeTokenId buyPrice history) : ℚ≥0) ∧
      evidence.crossed = crossed (levelEvents tokenId oppositeTokenId buyPrice history) := by
  obtain ⟨trades, hread, hlisted⟩ := h
  obtain ⟨evidence, hevidence, hvolume, hcrossed⟩ :=
    executionEvidence_eq tokenId oppositeTokenId buyPrice hread
  refine ⟨evidence, hevidence, ?_, ?_⟩
  · rw [hvolume, taken_levelEvents _ _ _ _ hsizes]
    exact (hlisted.map _).sum_eq
  · rw [hcrossed, crossed_levelEvents]
    exact hlisted.any_eq

theorem fifoFill_nonneg {queueAhead orderSize : ℚ} (hsize : 0 ≤ orderSize)
    (evidence : ExecutionEvidence) : 0 ≤ fifoFill queueAhead orderSize evidence := by
  unfold fifoFill
  split
  · exact hsize
  · exact le_min hsize (le_max_left _ _)

theorem fifoFill_le_orderSize (queueAhead orderSize : ℚ) (evidence : ExecutionEvidence) :
    fifoFill queueAhead orderSize evidence ≤ orderSize := by
  unfold fifoFill
  split
  · exact le_rfl
  · exact min_le_left _ _

/-- The fill of a history's evidence is what the level's own bound says. -/
theorem fifoFill_eq {queueAhead orderSize volume : ℚ≥0} {evidence : ExecutionEvidence}
    (hvolume : evidence.boundaryVolume = volume) (hcrossed : evidence.crossed = false) :
    fifoFill queueAhead orderSize evidence = (min orderSize (volume - queueAhead) : ℚ≥0) := by
  simp only [fifoFill, hcrossed, hvolume, Bool.false_eq_true, if_false]
  push_cast
  rw [max_comm, NNRat.sub_def]
  rfl

/-- The simulated fill is between nothing and the order's size, and at most what
the order was filled at its place in the queue. -/
theorem fifoFill_le_filled {codec : Codec} {records : List Value} {ahead : List ℚ≥0}
    {orderSize : ℚ≥0} {history : List MarketEvent}
    (hhistory : LevelHistory tokenId oppositeTokenId buyPrice ahead orderSize history)
    (hrecords : Reported codec records history) :
    ∃ evidence,
      executionEvidence codec records tokenId oppositeTokenId buyPrice = .ok evidence ∧
      fifoFill ahead.sum orderSize evidence ≤
        filled tokenId oppositeTokenId buyPrice ahead orderSize history ∧
      0 ≤ fifoFill ahead.sum orderSize evidence ∧
      fifoFill ahead.sum orderSize evidence ≤ orderSize := by
  obtain ⟨evidence, hevidence, hvolume, hcrossed⟩ :=
    executionEvidence_reported tokenId oppositeTokenId buyPrice hrecords hhistory.sizes
  refine ⟨evidence, hevidence, ?_, fifoFill_nonneg orderSize.2 evidence,
    fifoFill_le_orderSize _ _ evidence⟩
  by_cases hthrough : evidence.crossed = true
  · -- something traded through the price, so nothing of the order is left
    have hempty := Level.ours_run_crossed _ hhistory.level (hcrossed ▸ hthrough)
    rw [filled, hempty, tsub_zero]
    exact fifoFill_le_orderSize _ _ evidence
  · rw [fifoFill_eq hvolume (by simpa using hthrough)]
    exact_mod_cast Level.filled_ge ahead orderSize _ hhistory.level

end Level

def exampleHistory : List MarketEvent :=
  [.canceled 1 10, .trade ⟨"up", "SELL", 1/100, 60⟩, .joined 30, .trade ⟨"down", "BUY", 98/100, 500⟩,
    .trade ⟨"down", "BUY", 99/100, 70⟩]

def exampleRecords : List Value :=
  [.object [("asset", .string "down"), ("side", .string "BUY"), ("price", .string "0.99"),
      ("size", .string "70")],
    .object [("asset_id", .string "down"), ("side", .string "buy"), ("price", .string "0.98"),
      ("size", .string "500")],
    .object [("asset", .string "up"), ("side", .string "sell"), ("price", .string "0.01"),
      ("size", .string "60")]]

def textCodec : Codec := ⟨fun _ => none, fun _ => "", fun _ => ""⟩

/-- Eighty of a hundred are counted, where the level filled ninety. -/
theorem fifoFill_le_filled_example :
    LevelHistory "up" "down" (1/100) [40, 10] 100 exampleHistory ∧
      Reported textCodec exampleRecords exampleHistory ∧
      ∃ evidence, executionEvidence textCodec exampleRecords "up" "down" (1/100) = .ok evidence ∧
        fifoFill ([40, 10] : List ℚ≥0).sum (100 : ℚ≥0) evidence ≤
          filled "up" "down" (1/100) [40, 10] 100 exampleHistory ∧
        0 ≤ fifoFill ([40, 10] : List ℚ≥0).sum (100 : ℚ≥0) evidence ∧
        fifoFill ([40, 10] : List ℚ≥0).sum (100 : ℚ≥0) evidence ≤ (100 : ℚ≥0) := by
  have hhistory : LevelHistory "up" "down" (1/100) [40, 10] 100 exampleHistory := by
    constructor
    · decide +kernel
    · decide +kernel
  have hrecords : Reported textCodec exampleRecords exampleHistory := by
    refine ⟨[⟨"down", "BUY", 99/100, 70⟩, ⟨"down", "BUY", 98/100, 500⟩, ⟨"up", "SELL", 1/100, 60⟩],
      ?_, ?_⟩
    · decide +kernel
    · decide +kernel
  exact ⟨hhistory, hrecords, fifoFill_le_filled "up" "down" (1/100) hhistory hrecords⟩

/-- A settled market's two fills are each at most what the order on that side was
filled: its trades are the trades of both levels. -/
theorem calculateResult_fills_le {codec : Codec} {winnerOutcome up down : String} {buyPrice : ℚ}
    {records : List Value} {upAhead downAhead : List ℚ≥0} {orderSize : ℚ≥0}
    {upHistory downHistory : List MarketEvent} {r : PaperResult}
    (hresult : calculateResult codec winnerOutcome records up down buyPrice orderSize upAhead.sum
      downAhead.sum = .ok r)
    (hup : LevelHistory up down buyPrice upAhead orderSize upHistory)
    (hdown : LevelHistory down up buyPrice downAhead orderSize downHistory)
    (huprecords : Reported codec records upHistory)
    (hdownrecords : Reported codec records downHistory) :
    r.upFill ≤ filled up down buyPrice upAhead orderSize upHistory ∧
      r.downFill ≤ filled down up buyPrice downAhead orderSize downHistory := by
  obtain ⟨upEvidence, hupeq, hupfill, -⟩ := fifoFill_le_filled up down buyPrice hup huprecords
  obtain ⟨downEvidence, hdowneq, hdownfill, -⟩ :=
    fifoFill_le_filled down up buyPrice hdown hdownrecords
  by_cases hwinner : lower winnerOutcome ≠ "up" ∧ lower winnerOutcome ≠ "down"
  · rw [calculateResult, if_pos hwinner] at hresult
    exact nomatch hresult
  · rw [calculateResult, if_neg hwinner, hupeq, hdowneq] at hresult
    obtain rfl := Except.ok.inj hresult
    exact ⟨hupfill, hdownfill⟩

end EventQuant.Paper
