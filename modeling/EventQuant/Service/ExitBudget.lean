import EventQuant.Service.ExitAdoption

/-!
What one entry's ladder submits of its settled inventory. The loop carries
what the rungs placed so far have left of the balance net of the exits already
resting; a rung that failed gives its part back to the rungs after it.
-/
namespace EventQuant

open Program Store Python

def Effect.exit? : Effect → Option (String × ℚ × ℚ)
  | .submitExit tokenId price size => some (tokenId, price, size)
  | _ => none

/-- A rung submitted: its size, and whether it is reported as placed. -/
structure Submission where
  target : ExitTarget
  size : ℚ
  placed : Bool

def placedSizes (submissions : List Submission) : List ℚ :=
  (submissions.filter fun s => s.placed).map Submission.size

@[simp] theorem placedSizes_nil : placedSizes [] = [] := rfl

theorem placedSizes_cons (s : Submission) (submissions : List Submission) :
    placedSizes (s :: submissions) =
      if s.placed then s.size :: placedSizes submissions else placedSizes submissions := by
  unfold placedSizes
  cases hplaced : s.placed <;> simp [hplaced]

namespace Service

/-- These are the rungs submitted for the entry, in turn, each with whether it
was placed. -/
structure Traces (x : Exchange) (row : OrderRow) (answers : LadderAnswers) (sent : List Effect)
    (submissions : List Submission) : Prop where
  sent : sent.filterMap Effect.exit? =
    submissions.map fun s => (row.tokenId, s.target.price, s.size)
  placed : ∀ s ∈ submissions,
    s.placed = (exitOrder x row s.target.price s.size (answers.rung row s.target)).isOk

/-- Each rung submitted is within what those placed before it have left of the
amount, and those placed add up to no more than it, but for the roundings of
what is left. -/
structure Within (d : Decimals) (available : ℚ) (submissions : List Submission) : Prop where
  total : (placedSizes submissions).sum ≤ available + d.drift available (placedSizes submissions)
  each : ∀ before s after, submissions = before ++ s :: after →
    s.size ≤ d.left available (placedSizes before)

variable {d : Decimals}

/-- While each is within what is left, something is left or nothing. -/
theorem left_nonneg {available : ℚ} (h : 0 ≤ available) {submissions : List Submission}
    (heach : ∀ before s after, submissions = before ++ s :: after →
      s.size ≤ d.left available (placedSizes before)) :
    0 ≤ d.left available (placedSizes submissions) := by
  induction submissions generalizing available with
  | nil => exact h
  | cons s submissions ih =>
    have hsize : s.size ≤ available := heach [] s submissions rfl
    have hlater := fun before s' after (hsplit : submissions = before ++ s' :: after) =>
      heach (s :: before) s' after (by rw [hsplit]; rfl)
    simp only [placedSizes_cons] at hlater ⊢
    cases hplaced : s.placed with
    | false =>
      simp only [hplaced, Bool.false_eq_true, if_false] at hlater ⊢
      exact ih h hlater
    | true =>
      simp only [hplaced, if_true, Decimals.left_cons] at hlater ⊢
      exact ih (d.round_nonneg (sub_nonneg.mpr hsize)) hlater

theorem within_of_each {available : ℚ} (h : 0 ≤ available) {submissions : List Submission}
    (heach : ∀ before s after, submissions = before ++ s :: after →
      s.size ≤ d.left available (placedSizes before)) : Within d available submissions := by
  refine ⟨?_, heach⟩
  have hleft := left_nonneg h heach
  have hclose := (abs_le.mp (d.left_close available (placedSizes submissions))).2
  linarith

/-- A rung within what is left, and the others within what it leaves. -/
theorem each_cons {available left : ℚ} {s : Submission} {submissions : List Submission}
    (hsize : s.size ≤ available) (hleft : left = if s.placed then d.sub available s.size else available)
    (h : ∀ before s' after, submissions = before ++ s' :: after →
      s'.size ≤ d.left left (placedSizes before)) :
    ∀ before s' after, s :: submissions = before ++ s' :: after →
      s'.size ≤ d.left available (placedSizes before) := by
  intro before s' after hsplit
  cases before with
  | nil =>
    obtain ⟨rfl, -⟩ := List.cons.inj hsplit
    exact hsize
  | cons first before =>
    obtain ⟨rfl, hrest⟩ := List.cons.inj hsplit
    have hlater := h before s' after hrest
    rw [placedSizes_cons]
    cases hplaced : s.placed with
    | false => simpa [hplaced, hleft] using hlater
    | true => simpa [hplaced, hleft] using hlater

section Rungs

variable {x : Exchange} {row : OrderRow} {answers : LadderAnswers}

variable (x row) in
/-- A rung submits once, and returns whether it was placed. -/
theorem placeExitRung_sent (price size : ℚ) (rung : ExitAnswers) (b : Bot) :
    ((placeExitRung x row price size rung).commits b).filterMap Effect.exit? =
        [(row.tokenId, price, size)] ∧
      ∀ placed, (placeExitRung x row price size rung).result b = .ok placed →
        placed = (exitOrder x row price size rung).isOk := by
  have hadd : ∀ order, Emits (fun e => e.exit? = none) (Action.addOrder rung.now row.slug order) :=
    fun order => addOrder_emits rfl
  have hnone : ∀ {α : Type} {p : Action α}, Emits (fun e => e.exit? = none) p → ∀ t : Bot,
      (p.commits t).filterMap Effect.exit? = [] := by
    intro α p hp t
    rw [List.filterMap_eq_nil_iff]
    exact hp t
  unfold placeExitRung
  simp only [bind_eq]
  rw [commits_andThen_ok (result_commit _ _), result_andThen_ok (result_commit _ _),
    commits_commit, List.filterMap_append]
  cases horder : exitOrder x row price size rung with
  | ok order =>
    refine ⟨?_, fun placed h => ?_⟩
    · rw [hnone (emits_andThen (hadd order) fun _ => emits_return true)]
      rfl
    · obtain ⟨_, -, h⟩ := andThen_returned h
      exact (Except.ok.inj h).symm
  | error error =>
    refine ⟨?_, fun placed h => ?_⟩
    · have hfail : Emits (fun e => e.exit? = none)
          (Action.write (.setMarketState row.slug .exitError (some error))) := emits_commit rfl
      rw [hnone (emits_andThen (hadd _) fun _ => emits_andThen hfail fun _ => emits_return false)]
      rfl
    · obtain ⟨_, -, h⟩ := andThen_returned h
      obtain ⟨_, -, h⟩ := andThen_returned h
      exact (Except.ok.inj h).symm

variable (x row answers) in
theorem placeRungs_traces (s : Service) (minSize available : ℚ) (rungs : List (ExitTarget × ℚ))
    (b : Bot) : ∃ submissions,
      Traces x row answers ((s.placeRungs x row minSize answers available rungs).commits b) submissions ∧
        ∀ before sub after, submissions = before ++ sub :: after →
          sub.size ≤ s.decimals.left available (placedSizes before) := by
  have hnone : ∀ available, ∃ submissions, Traces x row answers [] submissions ∧
      ∀ before sub after, submissions = before ++ sub :: after →
        sub.size ≤ s.decimals.left available (placedSizes before) := fun available =>
    ⟨[], ⟨rfl, fun _ hs => absurd hs List.not_mem_nil⟩,
      fun before sub after hsplit => absurd hsplit (by simp)⟩
  induction rungs generalizing available b with
  | nil => exact hnone available
  | cons rung rungs ih =>
    obtain ⟨target, pending⟩ := rung
    unfold placeRungs
    split
    · exact ih available b
    · have hsize : min pending available ≤ available := min_le_right _ _
      obtain ⟨hsent, hplaced⟩ := placeExitRung_sent x row target.price
        (min pending available) (answers.rung row target) b
      simp only [bind_eq]
      cases hresult : (placeExitRung x row target.price (min pending available)
          (answers.rung row target)).result b with
      | error e =>
        refine ⟨[⟨target, min pending available, (exitOrder x row target.price
          (min pending available) (answers.rung row target)).isOk⟩], ⟨?_, ?_⟩,
          each_cons hsize rfl fun before sub after hsplit => absurd hsplit (by simp)⟩
        · rw [commits_andThen_error hresult, hsent]
          rfl
        · intro sub hsub
          obtain rfl := List.mem_singleton.mp hsub
          rfl
      | ok placed =>
        rw [commits_andThen_ok hresult]
        generalize hrest : (if placed = true then s.decimals.sub available (min pending available)
          else available) = left
        obtain ⟨submissions, htraces, heach⟩ : ∃ submissions,
            Traces x row answers ((if left < minSize then return' ()
              else s.placeRungs x row minSize answers left rungs).commits
                ((placeExitRung x row target.price (min pending available)
                  (answers.rung row target)).after b)) submissions ∧
            ∀ before sub after, submissions = before ++ sub :: after →
              sub.size ≤ s.decimals.left left (placedSizes before) := by
          by_cases hlast : left < minSize
          · rw [if_pos hlast]
            exact hnone left
          · rw [if_neg hlast]
            exact ih left _
        refine ⟨⟨target, min pending available, placed⟩ :: submissions, ⟨?_, ?_⟩,
          each_cons hsize hrest.symm heach⟩
        · rw [List.filterMap_append, hsent, htraces.sent]
          rfl
        · intro sub hsub
          rcases List.mem_cons.mp hsub with rfl | hsub
          · exact hplaced placed hresult
          · exact htraces.placed sub hsub

end Rungs

variable (s : Service) (x : Exchange) (nowTs : ℤ) (answers : LadderAnswers)

/-- What settled inventory is free of the exits already resting. -/
def freeBalance (db : Database) (row : OrderRow) (balance : ℚ) : ℚ :=
  max 0 (s.decimals.sub balance (db.activeExitReservedSize s.decimals row.slug row.outcome))

theorem placeLadder_within (entry : OrderRow × MarketRow) (b : Bot) : ∃ submissions,
    Traces x entry.1 answers ((s.placeLadder x nowTs answers entry).commits b) submissions ∧
      (∀ balance, answers.balance entry.1 = .ok balance →
        Within s.decimals (s.freeBalance b.database entry.1 balance) submissions) ∧
      ∀ e, answers.balance entry.1 = .error e → submissions = [] := by
  have hnothing : ∀ sent, sent = [] → ∃ submissions, Traces x entry.1 answers sent submissions ∧
      (∀ balance, answers.balance entry.1 = .ok balance →
        Within s.decimals (s.freeBalance b.database entry.1 balance) submissions) ∧
      ∀ e, answers.balance entry.1 = .error e → submissions = [] := by
    intro sent hsent
    exact ⟨[], ⟨by rw [hsent]; rfl, fun _ h => absurd h List.not_mem_nil⟩,
      fun _ _ => within_of_each (le_max_left _ _) fun _ _ _ hsplit => absurd hsplit (by simp),
      fun _ _ => rfl⟩
  obtain ⟨row, market⟩ := entry
  unfold placeLadder Action.query
  simp only [bind_eq]
  split
  · exact hnothing _ rfl
  · rw [commits_andThen_ok (result_read _ _), commits_read, after_read, List.nil_append]
    split
    · exact hnothing _ rfl
    · cases hbalance : answers.balance row with
      | error e =>
        rw [commits_andThen_error (e := e) (by rw [result_answer]), commits_answer]
        obtain ⟨submissions, htraces, -, hnone⟩ := hnothing [] rfl
        exact ⟨submissions, htraces, fun _ h => absurd h (by simp), fun _ _ => hnone e hbalance⟩
      | ok balance =>
        rw [commits_andThen_ok (a := balance) (by rw [result_answer]), commits_answer, after_answer,
          commits_andThen_ok (result_read _ _), commits_read, after_read, List.nil_append,
          List.nil_append]
        split
        · obtain ⟨submissions, htraces, hwithin, -⟩ := hnothing [] rfl
          refine ⟨submissions, htraces, fun balance' h => ?_, fun _ h => absurd h (by simp)⟩
          exact hwithin balance' (hbalance.trans h)
        · obtain ⟨submissions, htraces, heach⟩ := placeRungs_traces x row answers s
            market.minSize (s.freeBalance b.database row balance)
            (s.pendingTargets b.database row market.minSize) b
          refine ⟨submissions, htraces, fun balance' h => ?_, fun _ h => absurd h (by simp)⟩
          exact Except.ok.inj h ▸ within_of_each (le_max_left _ _) heach

/-- A pass is its entries' ladders in turn; a plan without rungs submits
nothing. -/
theorem placeMissingExits_commits (b : Bot) :
    (s.placeMissingExits x nowTs answers).commits b =
      (forEach b.database.entryOrdersWithFills (s.placeLadder x nowTs answers)).commits b := by
  unfold placeMissingExits Action.query
  simp only [bind_eq]
  split
  · rename_i hbuyOnly
    have hnone : Emits (fun _ => False)
        (forEach b.database.entryOrdersWithFills (s.placeLadder x nowTs answers)) := by
      refine emits_forEach _ fun entry _ => ?_
      have htargets : s.plan.exitTargets = [] := by
        simpa [TradePlan.buyOnly] using hbuyOnly
      unfold placeLadder Action.query pendingTargets
      simp only [bind_eq, htargets]
      split
      · exact emits_return ()
      · refine emits_andThen_of (emits_read _) fun t pending hpending => ?_
        obtain rfl := Except.ok.inj hpending
        exact emits_return ()
    exact (List.eq_nil_iff_forall_not_mem.mpr (hnone b)).symm
  · rw [commits_andThen_ok (result_read _ _)]
    rfl

/-- A pass does each entry's ladder when its turn comes. What it submits for the
entry is each within what the rungs placed before have left of the settled
balance, net of the exits resting when the turn came; and the rungs placed add
up to no more than that, but for the roundings of what is left. -/
theorem placed_within_balance (s : Service) (x : Exchange) (nowTs : ℤ) (answers : LadderAnswers)
    (b t : Bot) (before after : List (OrderRow × MarketRow)) (entry : OrderRow × MarketRow)
    (hentries : b.database.entryOrdersWithFills = before ++ entry :: after)
    (hreached : (forEach before (s.placeLadder x nowTs answers)).result b = .ok ())
    (hturn : (forEach before (s.placeLadder x nowTs answers)).after b = t) :
    (s.placeMissingExits x nowTs answers).commits b =
        (forEach before (s.placeLadder x nowTs answers)).commits b ++
          (s.placeLadder x nowTs answers entry).commits t ++
          (if ((s.placeLadder x nowTs answers entry).result t).isOk then
            (forEach after (s.placeLadder x nowTs answers)).commits
              ((s.placeLadder x nowTs answers entry).after t)
          else []) ∧
      ∃ submissions,
        Traces x entry.1 answers ((s.placeLadder x nowTs answers entry).commits t) submissions ∧
        (∀ balance, answers.balance entry.1 = .ok balance →
          Within s.decimals (s.freeBalance t.database entry.1 balance) submissions) ∧
        ∀ e, answers.balance entry.1 = .error e → submissions = [] := by
  subst hturn
  refine ⟨?_, s.placeLadder_within x nowTs answers entry _⟩
  have hsplit := commits_forEach_append (entry :: after) hreached
  rw [← hentries, ← s.placeMissingExits_commits x nowTs answers b] at hsplit
  rw [hsplit, forEach_cons, List.append_assoc]
  congr 1
  cases hladder : (s.placeLadder x nowTs answers entry).result
      ((forEach before (s.placeLadder x nowTs answers)).after b) with
  | error e =>
    rw [commits_andThen_error hladder]
    exact (List.append_nil _).symm
  | ok _ =>
    rw [commits_andThen_ok hladder]
    rfl

end Service

def ladderService : Service :=
  { pairService with
    plan := ⟨1 / 10, [⟨1 / 5, 1 / 2⟩, ⟨3 / 10, 1 / 2⟩], 2⟩
    fleetBuyOnly := fun h => nomatch h }

def acceptedSell (orderId : String) : Value :=
  .object [("success", .bool true), ("orderID", .string orderId), ("status", .string "live")]

def ladderAnswers (balance : ℚ) (response : ℚ → Except Exn Value) : LadderAnswers where
  balance _ := .ok balance
  rung _ target := ⟨response target.price, .ok [], 90, 0⟩

/-- Both rungs are placed, and share the balance. -/
theorem placed_within_balance_accepted :
    ∃ submissions, Service.Traces pairExchange filledEntry
        (ladderAnswers 10 fun _ => .ok (acceptedSell "0xe1"))
        ((ladderService.placeMissingExits pairExchange 0
          (ladderAnswers 10 fun _ => .ok (acceptedSell "0xe1"))).commits (ladderBooks []))
        submissions ∧
      Service.Within .context 10 submissions := by
  obtain ⟨hcommits, submissions, htraces, hwithin, -⟩ :=
    Service.placed_within_balance ladderService pairExchange 0
      (ladderAnswers 10 fun _ => .ok (acceptedSell "0xe1")) (ladderBooks []) (ladderBooks []) [] []
      (filledEntry, Database.marketRow 1 pairMarket .active) (by decide +kernel) rfl rfl
  have hfree : ladderService.freeBalance (ladderBooks []).database filledEntry 10 = 10 := by
    decide +kernel
  refine ⟨submissions, ?_, hfree ▸ hwithin 10 rfl⟩
  rw [hcommits]
  simpa using htraces

/-- Both rungs are rejected, and each was submitted with the whole balance. -/
theorem placed_within_balance_rejected :
    let sent := (ladderService.placeMissingExits pairExchange 0
      (ladderAnswers 10 fun _ => .ok .null)).commits (ladderBooks [])
    sent.filterMap Effect.exit? = [("up-token", 1 / 5, 10), ("up-token", 3 / 10, 10)] ∧
      ladderService.freeBalance (ladderBooks []).database filledEntry 10 <
        ((sent.filterMap Effect.exit?).map fun e => e.2.2).sum := by
  intro sent
  have hsent : sent.filterMap Effect.exit? =
      [("up-token", 1 / 5, 10), ("up-token", 3 / 10, 10)] := by
    decide +kernel
  refine ⟨hsent, ?_⟩
  rw [hsent]
  decide +kernel

end EventQuant
