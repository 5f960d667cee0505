import EventQuant.Service.Lives

/-!
The queue of activated markets: it is taken whole, each update has its turn,
and a turn that is to be tried again puts its update back. A cap ends the pass
with the updates behind it already taken.
-/
namespace EventQuant

open Program Store Runs

namespace Service

variable (s : Service) (nowTs : ℤ)

def considerActivated (turn : ActivationUpdate × PlacementAnswers) : Action Bool :=
  s.considerMarket turn.1.market nowTs
    (.activation turn.1.marketDiscoveredTsMs turn.1.marketParametersDetectedTsMs) true turn.2

/-- The loop of `_place_activated_markets`. -/
def placeEach : List (ActivationUpdate × PlacementAnswers) → Action Unit
  | [] => return' ()
  | turn :: rest => do
    let goOn ← s.considerActivated nowTs turn
    if goOn then placeEach rest else return' ()

def turnsOf (updates : List ActivationUpdate) (answers : ℕ → PlacementAnswers) :
    List (ActivationUpdate × PlacementAnswers) :=
  updates.zipIdx.map fun u => (u.1, answers u.2)

/-- `_place_activated_markets`. -/
def placeActivatedMarkets (answers : ℕ → PlacementAnswers) : Action Unit := do
  let updates ← read Bot.activations
  commit .takeActivations
  s.placeEach nowTs (turnsOf updates answers)

/-- The turn came to a final decision on the update and did not put it back:
the market is past its time, or the books close it to a new entry plan. -/
def Decides (b : Bot) (turn : ActivationUpdate × PlacementAnswers) : Prop :=
  let b' := (s.considerActivated nowTs turn).after b
  (s.eligible turn.1.market nowTs = false ∨
    b'.database.canStartEntryPlan turn.1.market.slug = false) ∧ b'.activations = b.activations

instance (b : Bot) (turn : ActivationUpdate × PlacementAnswers) :
    Decidable (s.Decides nowTs b turn) := by
  unfold Decides
  infer_instance

def decided : Bot → List (ActivationUpdate × PlacementAnswers) → List ActivationUpdate
  | _, [] => []
  | b, turn :: rest =>
    match (s.considerActivated nowTs turn).result b with
    | .ok true =>
      let later := decided ((s.considerActivated nowTs turn).after b) rest
      if s.Decides nowTs b turn then turn.1 :: later else later
    | _ => []

/-- No turn of the pass meets a cap, each in the state it begins in. -/
def CapFree : Bot → List (ActivationUpdate × PlacementAnswers) → Prop
  | _, [] => True
  | b, turn :: rest =>
    ¬ s.Capped turn.1.market nowTs turn.2 b ∧
      CapFree ((s.considerActivated nowTs turn).after b) rest

variable {s nowTs}

theorem Retryable.activations {market : Market} {answers : PlacementAnswers} {start mid : Bot}
    (h : s.Retryable market answers start mid) : mid.activations = start.activations := by
  cases h with
  | solo x start r hexchange hfleet hresult hretryable =>
    exact emits_queue ((s.soloResult_submits x market answers.solo).mono
      fun _ => Effect.Submits.keepsQueue) start
  | fleet f start r hfleet hresult hretryable =>
    exact emits_queue ((f.place_submits market s.plan.buyPrice answers.fleet).mono
      fun _ => Effect.Submits.keepsQueue) start

/-- A turn that goes on decides its update or puts it back. -/
theorem considerActivated_true {b : Bot} (hb : b.Rooted)
    {turn : ActivationUpdate × PlacementAnswers}
    (h : (s.considerActivated nowTs turn).result b = .ok true) :
    s.Decides nowTs b turn ∨
      ((s.considerActivated nowTs turn).after b).activations = b.activations ++ [turn.1] := by
  have hends := s.considerMarket_true turn.1.market hb h
  cases hends with
  | expired hpast hafter =>
    refine .inl ⟨.inl hpast, ?_⟩
    change ((s.considerActivated nowTs turn).after b) = _ at hafter
    rw [hafter]
    exact emits_queue (expireMarket_emits turn.1.market (close_keepsQueue turn.1.market .expired)) b
  | idle hidle hafter =>
    change ((s.considerActivated nowTs turn).after b) = _ at hafter
    refine .inl ⟨.inr ?_, by rw [hafter]⟩
    rw [hafter]
    exact hidle.resolve_right (by decide)
  | placed start _ hbegins hends =>
    change s.Ends _ _ _ start ((s.considerActivated nowTs turn).after b) at hends
    rcases hends with ⟨hclosed, hqueue⟩ | ⟨mid, hretryable, hback⟩
    · exact .inl ⟨.inr hclosed.cannotStart, hqueue.trans hbegins.activations⟩
    · refine .inr ?_
      rw [hback.activations, hretryable.activations, hbegins.activations]
      rfl

theorem rooted_considerActivated {b : Bot} (hb : b.Rooted)
    (turn : ActivationUpdate × PlacementAnswers) :
    ((s.considerActivated nowTs turn).after b).Rooted := by
  have h := s.considerMarket_inOrder turn.1.market nowTs
    (.activation turn.1.marketDiscoveredTsMs turn.1.marketParametersDetectedTsMs) true turn.2 hb
  exact h.preserves Bot.Rooted (fun _ _ he ht => Bot.rooted_apply ht he) hb

/-- The updates decided on and those put back make up the pass up to its first
cap: all of it, or strictly less. -/
theorem placeEach_counts {turns : List (ActivationUpdate × PlacementAnswers)} {b : Bot}
    (hb : b.Rooted) (h : (s.placeEach nowTs turns).result b = .ok ()) :
    ∃ requeued, ((s.placeEach nowTs turns).after b).activations = b.activations ++ requeued ∧
      (s.CapFree nowTs b turns → (s.decided nowTs b turns ++ requeued).Perm (turns.map Prod.fst)) ∧
      (¬ s.CapFree nowTs b turns →
        (s.decided nowTs b turns ++ requeued).length < turns.length) := by
  induction turns generalizing b with
  | nil =>
    refine ⟨[], by simp [placeEach], fun _ => .nil, fun hcapped => absurd trivial hcapped⟩
  | cons turn rest ih =>
    unfold placeEach at h ⊢
    obtain ⟨goOn, hturn, h⟩ := andThen_returned h
    rw [bind_eq, after_andThen_ok hturn]
    cases goOn with
    | false =>
      obtain ⟨hcapped, hsame⟩ := s.considerMarket_false turn.1.market hturn
      change (s.considerActivated nowTs turn).after b = b at hsame
      refine ⟨[], by simp [hsame], fun hfree => absurd hcapped hfree.1, fun _ => ?_⟩
      simp [decided, hturn]
    | true =>
      have hnotcapped : ¬ s.Capped turn.1.market nowTs turn.2 b := by
        intro hcapped
        have hfalse : (s.considerActivated nowTs turn).result b = .ok false :=
          s.considerMarket_capped turn.1.market hcapped
        rw [hturn] at hfalse
        cases hfalse
      obtain ⟨requeued, hqueue, hall, hshort⟩ := ih (rooted_considerActivated hb turn) h
      simp only [if_true] at hqueue ⊢
      by_cases hdecides : s.Decides nowTs b turn
      · refine ⟨requeued, by rw [hqueue, hdecides.2], fun hfree => ?_, fun hcapped => ?_⟩
        · simp only [decided, hturn, hdecides, if_true, List.cons_append, List.map_cons]
          exact (hall hfree.2).cons turn.1
        · have hrest := hshort fun hfree => hcapped ⟨hnotcapped, hfree⟩
          simp only [decided, hturn, hdecides, if_true, List.cons_append, List.length_cons]
          omega
      · have hback := (considerActivated_true hb hturn).resolve_left hdecides
        refine ⟨turn.1 :: requeued, by rw [hqueue, hback]; simp, fun hfree => ?_, fun hcapped => ?_⟩
        · simp only [decided, hturn, hdecides, if_false, List.map_cons]
          exact List.perm_middle.trans ((hall hfree.2).cons turn.1)
        · have hrest := hshort fun hfree => hcapped ⟨hnotcapped, hfree⟩
          simp only [decided, hturn, hdecides, if_false, List.length_append, List.length_cons]
            at hrest ⊢
          omega

/-- In a state a process lives to, with any updates in the queue: after a pass
each of them was decided on or is back in the queue exactly when no turn of
the pass met a cap. -/
theorem activated_kept (s : Service) (db : Database) (b : Bot)
    (hlife : Run s.Calls (Bot.boot db) b) (updates : List ActivationUpdate) (nowTs : ℤ)
    (answers : ℕ → PlacementAnswers)
    (hreturned : (s.placeActivatedMarkets nowTs answers).result { b with activations := updates }
      = .ok ()) :
    (s.decided nowTs { b with activations := [] } (turnsOf updates answers) ++
        ((s.placeActivatedMarkets nowTs answers).after
          { b with activations := updates }).activations).Perm updates ↔
      s.CapFree nowTs { b with activations := [] } (turnsOf updates answers) := by
  have hlived : b.Rooted := s.rooted_of_lives hlife
  have hb : Bot.Rooted { b with activations := [] } := hlived
  have hupdates : (turnsOf updates answers).map Prod.fst = updates := by
    unfold turnsOf
    rw [List.map_map]
    exact List.zipIdx_map_fst 0 updates
  unfold placeActivatedMarkets at hreturned ⊢
  simp only [bind_eq] at hreturned ⊢
  rw [result_andThen_ok (result_read _ _), after_read] at hreturned
  rw [after_andThen_ok (result_read _ _), after_read]
  obtain ⟨_, htaken, hreturned⟩ := andThen_returned hreturned
  rw [after_andThen_ok htaken]
  rw [after_commit] at hreturned ⊢
  obtain ⟨requeued, hqueue, hall, hshort⟩ := placeEach_counts hb hreturned
  rw [List.nil_append] at hqueue
  change (_ ++ ((s.placeEach nowTs (turnsOf updates answers)).after
    { b with activations := [] }).activations).Perm updates ↔ _
  rw [hqueue]
  constructor
  · intro hperm
    by_contra hcapped
    have hlength := hshort hcapped
    have hturns : (turnsOf updates answers).length = updates.length := by
      rw [← List.length_map (f := Prod.fst), hupdates]
    rw [hperm.length_eq, ← hturns] at hlength
    exact lt_irrefl _ hlength
  · intro hfree
    exact (hall hfree).trans (.of_eq hupdates)

end Service

def nothingKnocked : SoloAnswers := ⟨.ok fun _ => "signed", .ok [], .ok (), .ok [], .ok ()⟩

def pairUpdate : ActivationUpdate := ⟨pairMarket, 0, 0⟩

def laterUpdate (n : ℕ) : ActivationUpdate where
  market := { pairMarket with
    slug := "btc-updown-5m-" ++ toString (300 * n)
    startTs := 300 * n
    endTs := 300 * n + 300 }
  marketDiscoveredTsMs := n
  marketParametersDetectedTsMs := n

def mixedAnswers (k : ℕ) : PlacementAnswers :=
  pairTurn (if k = 1 then bothRegistered "primary" else upUnanswered) []

/-- Without caps no pass meets one. -/
theorem Service.capFree_uncapped {s : Service} (hreserve : s.maxReservedUsd = none)
    (hcost : s.maxDailyFilledCost = none) (nowTs : ℤ) (b : Bot)
    (turns : List (ActivationUpdate × PlacementAnswers)) : s.CapFree nowTs b turns := by
  induction turns generalizing b with
  | nil => trivial
  | cons turn rest ih =>
    refine ⟨fun hcapped => ?_, ih _⟩
    obtain ⟨-, -, -, hreached⟩ := hcapped
    simp [Service.capReached, hreserve, hcost] at hreached

/-- A market past its time and a placed one are decided on; one in doubt goes
back in the queue. -/
theorem activated_kept_mixed :
    let updates := [pairUpdate, laterUpdate 2, laterUpdate 3]
    let pass := pairService.placeActivatedMarkets 400 mixedAnswers
    let later := (pass.after { Bot.boot Database.empty with activations := updates }).activations
    let decided := pairService.decided 400 (Bot.boot Database.empty)
      (Service.turnsOf updates mixedAnswers)
    decided = [pairUpdate, laterUpdate 2] ∧ later = [laterUpdate 3] ∧
      (decided ++ later).Perm updates := by
  refine ⟨by decide +kernel, by decide +kernel, ?_⟩
  exact (Service.activated_kept pairService Database.empty _ .refl _ 400 mixedAnswers
    (by decide +kernel)).mpr (Service.capFree_uncapped rfl rfl 400 _ _)

def cappedService : Service := { pairService with maxReservedUsd := some pairService.marketReserve }

/-- The first market's pair is placed and reserves all there is; the second
meets the cap. It and the market behind it are lost: no decision, no row, and
an empty queue. -/
theorem activated_kept_capped :
    let answers : ℕ → PlacementAnswers := fun _ => pairTurn (bothRegistered "primary") []
    let updates := [pairUpdate, laterUpdate 1, laterUpdate 2]
    let queued : Bot := { Bot.boot Database.empty with activations := updates }
    let pass := cappedService.placeActivatedMarkets 100 answers
    pass.result queued = .ok () ∧ (pass.after queued).activations = [] ∧
      cappedService.decided 100 (Bot.boot Database.empty) (Service.turnsOf updates answers) =
        [pairUpdate] ∧
      (pass.after queued).database.markets.rows.map MarketRow.slug = [pairMarket.slug] := by
  decide +kernel

end EventQuant
