import EventQuant.Service.ExitAdoption

/-!
An entry whose submission stayed ambiguous, looked for among the open orders.
Each leg with exactly one match and an id for it: the set is adopted. A set of
any other shape is cancelled as far as its orders carry ids. A match without
an id among legs that each have one ends it with neither.
-/
namespace EventQuant

open Program Store Python

namespace Exchange

variable (x : Exchange) (market : Market)

def legMatches (found : List Listed) : List ((String × String) × List Listed) :=
  (dict ((x.entrySpecifications market).map Prod.swap)).map fun leg =>
    (leg, found.filter fun row => row.tokenId = leg.1)

def foundIds (found : List Listed) : List String :=
  ((x.legMatches market found).flatMap fun leg => leg.2).filterMap fun row =>
    orderIdOf x.codec row.raw

def legTokens : List String := (x.entrySpecifications market).map Prod.snd

/-- The keys of `expected`. -/
def expectedTokens : List String :=
  (dict ((x.entrySpecifications market).map Prod.swap)).map Prod.fst

theorem mem_expectedTokens {x : Exchange} {market : Market} {token : String} :
    token ∈ x.expectedTokens market ↔ token ∈ x.legTokens market := by
  unfold expectedTokens legTokens
  rw [(dict_keys _).2, List.map_map]
  rfl

variable {x market} {found : List Listed}

theorem legMatches_tokens :
    (x.legMatches market found).map (fun leg => leg.1.1) = x.expectedTokens market := by
  unfold legMatches
  rw [List.map_map]
  rfl

/-- Each token of the legs has its matches, and no other token has any. -/
theorem mem_legMatches {token : String} :
    token ∈ x.legTokens market ↔ ∃ leg ∈ x.legMatches market found,
      leg.1.1 = token ∧ leg.2 = found.filter fun row => row.tokenId = token := by
  have htoken : token ∈ x.legTokens market ↔
      token ∈ (x.legMatches market found).map (fun leg => leg.1.1) := by
    rw [legMatches_tokens, mem_expectedTokens]
  rw [htoken, List.mem_map]
  constructor
  · rintro ⟨leg, hleg, rfl⟩
    obtain ⟨key, -, rfl⟩ := List.mem_map.mp hleg
    exact ⟨_, hleg, rfl, rfl⟩
  · rintro ⟨leg, hleg, htoken, -⟩
    exact ⟨leg, hleg, htoken⟩

theorem mem_foundIds {orderId : String} :
    orderId ∈ x.foundIds market found ↔ ∃ row ∈ found, row.tokenId ∈ x.legTokens market ∧
      orderIdOf x.codec row.raw = some orderId := by
  unfold foundIds
  rw [List.mem_filterMap]
  constructor
  · rintro ⟨row, hrow, hid⟩
    obtain ⟨leg, hleg, hrow⟩ := List.mem_flatMap.mp hrow
    obtain ⟨key, hkey, rfl⟩ := List.mem_map.mp hleg
    obtain ⟨hrow, htoken⟩ := List.mem_filter.mp hrow
    refine ⟨row, hrow, ?_, hid⟩
    rw [mem_legMatches, of_decide_eq_true htoken]
    exact ⟨_, hleg, rfl, rfl⟩
  · rintro ⟨row, hrow, htoken, hid⟩
    obtain ⟨leg, hleg, -, hmatches⟩ := (mem_legMatches).mp htoken
    refine ⟨row, List.mem_flatMap.mpr ⟨leg, hleg, ?_⟩, hid⟩
    rw [hmatches]
    exact List.mem_filter.mpr ⟨hrow, decide_eq_true rfl⟩

def Finds (x : Exchange) (market : Market) (price size : ℚ) (rows : List Value)
    (found : List Listed) : Prop :=
  exactMatches x.codec (x.expectedTokens market) "BUY" price size rows = .ok found

/-- What a reconciliation that returned came to: a match without an id, the
set adopted, whatever else was there cancelled, or nothing to cancel. -/
inductive Reconciled (x : Exchange) (market : Market) (price size : ℚ) (found : List Listed)
    (r : PlacementResult) (sent : List Effect) : Prop
  | nameless (hone : ∀ leg ∈ x.legMatches market found, leg.2.length = 1)
      (hadopt : x.adoptPair price size (x.legMatches market found) = none) (horders : r.orders = [])
      (hsent : sent = [])
  | adopted (hone : ∀ leg ∈ x.legMatches market found, leg.2.length = 1)
      (hadopt : x.adoptPair price size (x.legMatches market found) = some r.orders)
      (herror : r.error = none) (hexpected : r.expected = (x.entrySpecifications market).length)
      (hsent : sent = [.forget x.account (EventQuant.submissionKey market price size)])
  | cancelled (hshape : ¬ ∀ leg ∈ x.legMatches market found, leg.2.length = 1)
      (horders : r.orders = [])
      (hsent : sent = [.cancel x.account (x.foundIds market found),
        .forget x.account (EventQuant.submissionKey market price size)])
  | missing (hshape : ¬ ∀ leg ∈ x.legMatches market found, leg.2.length = 1)
      (hnone : x.foundIds market found = []) (horders : r.orders = [])
      (hsent : ∀ e ∈ sent, e = .forget x.account (EventQuant.submissionKey market price size))

theorem reconcileAmbiguousDual_reconciled {price size : ℚ} {retryableIfMissing : Bool}
    {rows : List Value} {cancel : Except Exn Unit} {b : Bot} {r : PlacementResult}
    (hfound : x.Finds market price size rows found)
    (h : (x.reconcileAmbiguousDual market price size retryableIfMissing (.ok rows) cancel).result b =
      .ok r) :
    Reconciled x market price size found r
      ((x.reconcileAmbiguousDual market price size retryableIfMissing (.ok rows) cancel).commits b) := by
  unfold reconcileAmbiguousDual at h ⊢
  simp only [bind_eq] at h ⊢
  rw [commits_andThen_ok (a := rows) (by rw [result_answer]), commits_answer, after_answer,
    commits_andThen_ok (a := found) (by rw [result_answer]; exact hfound), commits_answer,
    after_answer, List.nil_append, List.nil_append]
  rw [result_andThen_ok (a := rows) (by rw [result_answer]), after_answer,
    result_andThen_ok (a := found) (by rw [result_answer]; exact hfound), after_answer] at h
  change ((if (x.legMatches market found).all (fun leg => leg.2.length = 1) = true then
    _ else _ : Action PlacementResult)).result b = _ at h
  change Reconciled x market price size found r
    ((if (x.legMatches market found).all (fun leg => leg.2.length = 1) = true then
      _ else _ : Action PlacementResult).commits b)
  simp only [List.all_eq_true, decide_eq_true_eq] at h ⊢
  split
  · rename_i hone
    rw [if_pos hone] at h
    cases hadopt : x.adoptPair price size (x.legMatches market found) with
    | none =>
      have hpairs := hadopt
      unfold legMatches at hpairs
      simp only [hpairs] at h ⊢
      obtain rfl := Except.ok.inj h
      exact .nameless hone hadopt rfl rfl
    | some orders =>
      have hpairs := hadopt
      unfold legMatches at hpairs
      simp only [hpairs] at h ⊢
      obtain rfl := Except.ok.inj h
      exact .adopted hone hadopt rfl rfl rfl
  · rename_i hshape
    rw [if_neg hshape] at h
    change (if x.foundIds market found ≠ [] then _ else _ : Action PlacementResult).result b = _ at h
    change Reconciled x market price size found r
      ((if x.foundIds market found ≠ [] then _ else _ : Action PlacementResult).commits b)
    by_cases hids : x.foundIds market found = []
    · rw [if_neg (not_not.mpr hids)] at h ⊢
      cases retryableIfMissing with
      | true =>
        obtain rfl := Except.ok.inj h
        exact .missing hshape hids rfl fun _ he => absurd he List.not_mem_nil
      | false =>
        obtain rfl := Except.ok.inj h
        exact .missing hshape hids rfl fun _ he => List.mem_singleton.mp he
    · rw [if_pos hids] at h ⊢
      cases hcancel : cancel with
      | error e =>
        rw [hcancel] at h
        cases h
      | ok _ =>
        rw [hcancel] at h
        obtain rfl := Except.ok.inj h
        exact .cancelled hshape rfl rfl

def OnLeg (x : Exchange) (market : Market) (price size : ℚ) (raw : Value) : Prop :=
  ∃ token ∈ x.legTokens market, Lists x.codec "BUY" token price size raw

def Cancelled (sent : List Effect) (orderId : String) : Prop :=
  ∃ account orderIds, Effect.cancel account orderIds ∈ sent ∧ orderId ∈ orderIds

def MatchesLeg (x : Exchange) (market : Market) (price size : ℚ) (rows : List Value)
    (orderId : String) : Prop :=
  ∃ raw ∈ rows, OnLeg x market price size raw ∧ orderIdOf x.codec raw = some orderId

/-- A complete result of one matching order for each leg, with nothing
cancelled. -/
structure AdoptsWhole (x : Exchange) (market : Market) (price size : ℚ) (rows : List Value)
    (r : PlacementResult) (sent : List Effect) : Prop where
  complete : r.complete = true
  legs : r.orders.map (fun o => (o.outcome, o.tokenId)) = x.entrySpecifications market
  named : ∀ o ∈ r.orders, ∃ raw ∈ rows, Lists x.codec "BUY" o.tokenId price size raw ∧
    orderIdOf x.codec raw = some o.orderId
  cancelsNone : ∀ orderId, ¬ Cancelled sent orderId

/-- One or the other: the set adopted whole, or no order handed back and each
match cancelled. No match with an id is in neither, and the signed orders are
dropped with either. -/
structure AllOrNothing (x : Exchange) (market : Market) (price size : ℚ) (rows : List Value)
    (r : PlacementResult) (sent : List Effect) : Prop where
  whole : AdoptsWhole x market price size rows r sent ∨
    r.orders = [] ∧ ∀ orderId, MatchesLeg x market price size rows orderId → Cancelled sent orderId
  accounted : ∀ orderId, MatchesLeg x market price size rows orderId →
    (∃ o ∈ r.orders, o.orderId = orderId) ∨ Cancelled sent orderId
  forgotten : (r.orders ≠ [] ∨ ∃ orderId, Cancelled sent orderId) →
    .forget x.account (EventQuant.submissionKey market price size) ∈ sent

/-- Where each leg has exactly one match, none of them carries an id, or all do
and the legs are of different tokens. -/
def Readable (x : Exchange) (market : Market) (found : List Listed) : Prop :=
  (∀ token ∈ x.legTokens market, (found.filter fun row => row.tokenId = token).length = 1) →
    (∀ row ∈ found, row.tokenId ∈ x.legTokens market → orderIdOf x.codec row.raw = none) ∨
      (x.legTokens market).Nodup ∧
        ∀ row ∈ found, row.tokenId ∈ x.legTokens market → (orderIdOf x.codec row.raw).isSome = true

def OneEach (x : Exchange) (market : Market) (price size : ℚ) (rows : List Value) : Prop :=
  ∀ token ∈ x.legTokens market,
    rows.countP (fun raw => Lists x.codec "BUY" token price size raw) = 1

/-- A row whose price and size are decimals, and that can be compared with the
legs where it is a buy of one of their tokens. -/
def Legible (x : Exchange) (market : Market) (price : ℚ) (raw : Value) : Prop :=
  ∃ order, listed x.codec raw = .ok order ∧
    (order.tokenId ∈ x.legTokens market → order.side = "BUY" →
      order.price ≠ .nan true ∧ (order.price = .finite price → order.size ≠ .nan true))

/-- What the reconciliation needs to be all or nothing. -/
structure Reconcilable (x : Exchange) (market : Market) (price size : ℚ) (rows : List Value)
    (cancel : Except Exn Unit) : Prop where
  legible : ∀ raw ∈ rows, Legible x market price raw
  matched : OneEach x market price size rows →
    (∀ raw ∈ rows, OnLeg x market price size raw → orderIdOf x.codec raw = none) ∨
      (x.legTokens market).Nodup ∧
        ∀ raw ∈ rows, OnLeg x market price size raw → (orderIdOf x.codec raw).isSome = true
  cancelled : ¬ OneEach x market price size rows →
    (∃ raw ∈ rows, OnLeg x market price size raw ∧ (orderIdOf x.codec raw).isSome = true) →
      ∃ u, cancel = .ok u

section Reconciled

variable {price size : ℚ} {rows : List Value} {r : PlacementResult} {sent : List Effect}

theorem lists_of_found (hfound : x.Finds market price size rows found) {row : Listed}
    (hrow : row ∈ found) : row.raw ∈ rows ∧ Lists x.codec "BUY" row.tokenId price size row.raw :=
  (exactMatches_lists hfound ((exactMatches_mem hfound row).mp hrow).2.2.1).mpr ⟨row, hrow, rfl, rfl⟩

theorem matchesLeg_iff (hfound : x.Finds market price size rows found)
    {orderId : String} : MatchesLeg x market price size rows orderId ↔
      orderId ∈ x.foundIds market found := by
  rw [mem_foundIds]
  constructor
  · rintro ⟨raw, hraw, ⟨token, htoken, hlists⟩, hid⟩
    obtain ⟨row, hrow, hsame, rfl⟩ :=
      (exactMatches_lists hfound (mem_expectedTokens.mpr htoken)).mp ⟨hraw, hlists⟩
    exact ⟨row, hrow, hsame ▸ htoken, hid⟩
  · rintro ⟨row, hrow, htoken, hid⟩
    obtain ⟨hraw, hlists⟩ := lists_of_found hfound hrow
    exact ⟨row.raw, hraw, ⟨row.tokenId, htoken, hlists⟩, hid⟩

theorem oneEach_iff : (∀ leg ∈ x.legMatches market found, leg.2.length = 1) ↔
    ∀ token ∈ x.legTokens market, (found.filter fun row => row.tokenId = token).length = 1 := by
  constructor
  · intro h token htoken
    obtain ⟨leg, hleg, -, hmatches⟩ := (mem_legMatches).mp htoken
    exact hmatches ▸ h leg hleg
  · intro h leg hleg
    obtain ⟨key, -, rfl⟩ := List.mem_map.mp hleg
    exact h key.1 ((mem_legMatches).mpr ⟨_, hleg, rfl, rfl⟩)

/-- A leg of the market has its one match. -/
theorem exists_match (hone : ∀ leg ∈ x.legMatches market found, leg.2.length = 1)
    {leg : (String × String) × List Listed} (hleg : leg ∈ x.legMatches market found) :
    ∃ row ∈ found, row.tokenId = leg.1.1 ∧ row.tokenId ∈ x.legTokens market ∧ leg.2 = [row] := by
  obtain ⟨row, hrow⟩ := List.length_eq_one_iff.mp (hone leg hleg)
  obtain ⟨key, hkey, rfl⟩ := List.mem_map.mp hleg
  have hmatch : (found.filter fun row => row.tokenId = key.1) = [row] := hrow
  have hmem : row ∈ found.filter fun row => row.tokenId = key.1 := by
    rw [hmatch]
    exact List.mem_singleton_self row
  obtain ⟨hfound, htoken⟩ := List.mem_filter.mp hmem
  have htoken' := of_decide_eq_true htoken
  exact ⟨row, hfound, htoken', htoken' ▸ (mem_legMatches).mpr ⟨_, hleg, rfl, rfl⟩,
    hrow⟩

theorem exists_leg (x : Exchange) (market : Market) (found : List Listed) :
    ∃ leg, leg ∈ x.legMatches market found := by
  have hleg : ∃ token, token ∈ x.legTokens market := by
    unfold legTokens entrySpecifications
    cases x.entrySubmission <;> exact ⟨_, List.mem_cons_self⟩
  obtain ⟨token, htoken⟩ := hleg
  obtain ⟨leg, hleg, -⟩ := (mem_legMatches).mp htoken
  exact ⟨leg, hleg⟩

/-- An adopted order is the one match of its leg. -/
theorem adoptPair_some {orders : List PlacedOrder}
    (hone : ∀ leg ∈ x.legMatches market found, leg.2.length = 1)
    (h : x.adoptPair price size (x.legMatches market found) = some orders) :
    List.Forall₂ (fun leg o => (o.outcome, o.tokenId) = (leg.1.2, leg.1.1) ∧
      ∃ row ∈ found, row.tokenId = leg.1.1 ∧ leg.2 = [row] ∧
        orderIdOf x.codec row.raw = some o.orderId) (x.legMatches market found) orders := by
  have hpairs := Results.forall₂_of_mapM_some h
  have hpairs' := List.forall₂_iff_zip.mp hpairs
  refine List.forall₂_iff_zip.mpr ⟨hpairs'.1, fun {leg o} hmem => ?_⟩
  obtain ⟨row, hrow, hadopted⟩ := Option.bind_eq_some_iff.mp (hpairs'.2 hmem)
  obtain ⟨orderId, hid, rfl⟩ := Option.map_eq_some_iff.mp hadopted
  obtain ⟨row', hfound, htoken, -, hmatches⟩ := exists_match hone (List.of_mem_zip hmem).1
  obtain rfl : row' = row := by
    rw [hmatches, List.head?_cons, Option.some.injEq] at hrow
    exact hrow
  exact ⟨rfl, row', hfound, htoken, hmatches, hid⟩

/-- A match without an id leaves nothing done; that is all or nothing only
where no match carries one. -/
theorem nameless_iff (hfound : x.Finds market price size rows found)
    (hone : ∀ leg ∈ x.legMatches market found, leg.2.length = 1)
    (hadopt : x.adoptPair price size (x.legMatches market found) = none) (horders : r.orders = [])
    (hsent : sent = []) :
    AllOrNothing x market price size rows r sent ↔ Readable x market found := by
  have hnoCancel : ∀ orderId, ¬ Cancelled sent orderId := by
    rintro orderId ⟨account, orderIds, hmem, -⟩
    rw [hsent] at hmem
    exact absurd hmem List.not_mem_nil
  obtain ⟨leg, hleg, hnone⟩ := Results.mapM_eq_none hadopt
  obtain ⟨row, hrow, -, hrowLeg, hmatch⟩ := exists_match hone hleg
  have hid : orderIdOf x.codec row.raw = none := by
    rw [hmatch, List.head?_cons, Option.bind_some, Option.map_eq_none_iff] at hnone
    exact hnone
  constructor
  · refine fun h _ => .inl fun row' hrow' htoken => ?_
    cases hid' : orderIdOf x.codec row'.raw with
    | none => rfl
    | some orderId =>
      have hmatches : MatchesLeg x market price size rows orderId :=
        (matchesLeg_iff hfound).mpr (mem_foundIds.mpr ⟨row', hrow', htoken, hid'⟩)
      rcases h.accounted orderId hmatches with ⟨o, ho, -⟩ | hcancelled
      · rw [horders] at ho
        exact absurd ho List.not_mem_nil
      · exact absurd hcancelled (hnoCancel orderId)
  · intro h
    have hnoMatch : ∀ orderId, ¬ MatchesLeg x market price size rows orderId := by
      intro orderId hmatches
      obtain ⟨row', hrow', htoken, hid'⟩ := mem_foundIds.mp ((matchesLeg_iff hfound).mp hmatches)
      rcases h (oneEach_iff.mp hone) with hall | ⟨-, hall⟩
      · rw [hall row' hrow' htoken] at hid'
        cases hid'
      · have hsome := hall row hrow hrowLeg
        rw [hid] at hsome
        cases hsome
    refine ⟨.inr ⟨horders, fun orderId h => absurd h (hnoMatch orderId)⟩,
      fun orderId h => absurd h (hnoMatch orderId), fun h => ?_⟩
    rcases h with h | ⟨orderId, hcancelled⟩
    · exact absurd horders h
    · exact absurd hcancelled (hnoCancel orderId)

/-- An adopted set is whole exactly where the legs are of different tokens. -/
theorem adopted_iff (hfound : x.Finds market price size rows found)
    (hone : ∀ leg ∈ x.legMatches market found, leg.2.length = 1)
    (hadopt : x.adoptPair price size (x.legMatches market found) = some r.orders)
    (herror : r.error = none) (hexpected : r.expected = (x.entrySpecifications market).length)
    (hsent : sent = [.forget x.account (EventQuant.submissionKey market price size)]) :
    AllOrNothing x market price size rows r sent ↔ Readable x market found := by
  have hpairs := adoptPair_some hone hadopt
  have htokens : ((x.entrySpecifications market).map Prod.swap).map Prod.fst =
      x.legTokens market := by
    rw [List.map_map]
    rfl
  have hlength : r.orders.length = (dict ((x.entrySpecifications market).map Prod.swap)).length := by
    rw [← hpairs.length_eq]
    exact List.length_map _
  have hdistinct : r.orders.length = (x.entrySpecifications market).length ↔
      (x.legTokens market).Nodup := by
    rw [hlength, ← htokens, ← dict_length_iff, List.length_map]
  -- the order of a match is the one adopted for its leg
  have horder : ∀ row ∈ found, row.tokenId ∈ x.legTokens market →
      ∃ o ∈ r.orders, orderIdOf x.codec row.raw = some o.orderId := by
    intro row hrow htoken
    obtain ⟨leg, hleg, htoken', hmatches⟩ := (mem_legMatches).mp htoken
    obtain ⟨o, ho, -, row', hrow', -, hmatch, hid⟩ := Results.exists_right hpairs hleg
    have hmem : row ∈ leg.2 := by
      rw [hmatches]
      exact List.mem_filter.mpr ⟨hrow, decide_eq_true rfl⟩
    rw [hmatch, List.mem_singleton] at hmem
    exact ⟨o, ho, hmem ▸ hid⟩
  obtain ⟨leg, hleg⟩ := exists_leg x market found
  constructor
  · intro h _
    refine .inr ⟨?_, fun row hrow htoken => ?_⟩
    · rcases h.whole with hwhole | ⟨hnone, -⟩
      · rw [← hdistinct, ← hexpected]
        have hcomplete := hwhole.complete
        simp only [PlacementResult.complete, Bool.and_eq_true, beq_iff_eq] at hcomplete
        exact hcomplete.2
      · obtain ⟨o, ho, -⟩ := Results.exists_right hpairs hleg
        rw [hnone] at ho
        exact absurd ho List.not_mem_nil
    · obtain ⟨o, -, hid⟩ := horder row hrow htoken
      rw [hid]
      rfl
  · intro h
    have hnodup : (x.legTokens market).Nodup := by
      rcases h (oneEach_iff.mp hone) with hnone | ⟨hnodup, -⟩
      · obtain ⟨row, hrow, -, htoken, -⟩ := exists_match hone hleg
        obtain ⟨o, -, hid⟩ := horder row hrow htoken
        rw [hnone row hrow htoken] at hid
        cases hid
      · exact hnodup
    have hnoCancel : ∀ orderId, ¬ Cancelled sent orderId := by
      rintro orderId ⟨account, orderIds, hmem, -⟩
      rw [hsent, List.mem_singleton] at hmem
      cases hmem
    have hlegs : r.orders.map (fun o => (o.outcome, o.tokenId)) = x.entrySpecifications market := by
      have hmap : r.orders.map (fun o => (o.outcome, o.tokenId)) =
          (x.legMatches market found).map fun leg => (leg.1.2, leg.1.1) := by
        clear hlength hdistinct horder hexpected herror hadopt hleg
        generalize r.orders = orders at hpairs
        generalize x.legMatches market found = legs at hpairs
        induction hpairs with
        | nil => rfl
        | cons hfirst _ ih => rw [List.map_cons, List.map_cons, ih, hfirst.1]
      rw [hmap]
      unfold legMatches
      rw [dict_of_nodup (htokens ▸ hnodup), List.map_map, List.map_map]
      exact List.map_id _
    refine ⟨.inl ⟨?_, hlegs, fun o ho => ?_, hnoCancel⟩, fun orderId hmatches => .inl ?_, fun _ => ?_⟩
    · simp [PlacementResult.complete, herror, hexpected, hdistinct.mpr hnodup]
    · obtain ⟨leg', hleg', hnamed, row, hrow, htoken, -, hid⟩ := Results.exists_left hpairs ho
      obtain ⟨hraw, hlists⟩ := lists_of_found hfound hrow
      have hsame : o.tokenId = row.tokenId := by
        rw [htoken]
        exact congrArg Prod.snd hnamed
      exact ⟨row.raw, hraw, hsame ▸ hlists, hid⟩
    · obtain ⟨row, hrow, htoken, hid⟩ := mem_foundIds.mp ((matchesLeg_iff hfound).mp hmatches)
      obtain ⟨o, ho, hid'⟩ := horder row hrow htoken
      exact ⟨o, ho, Option.some.inj (hid'.symm.trans hid)⟩
    · rw [hsent]
      exact List.mem_singleton_self _

theorem sameNumber_returns {a : DecimalValue} {c : ℚ} :
    (∃ same, sameNumber a c = .ok same) ↔ a ≠ .nan true := by
  unfold sameNumber DecimalValue.same
  rcases a with q | negative | (_ | _) <;> simp

theorem exactMatch_returns_iff {raw : Value} :
    (∃ kept, exactMatch x.codec (x.expectedTokens market) "BUY" price size raw = .ok kept) ↔
      Legible x market price raw := by
  unfold exactMatch Legible Listed.agrees
  cases listed x.codec raw with
  | error e => exact iff_of_false nofun fun ⟨_, h, _⟩ => nomatch h
  | ok order =>
    simp only [mem_expectedTokens, bind, Except.bind, Except.ok.injEq, exists_eq_left']
    by_cases hours : order.tokenId ∈ x.legTokens market ∧ order.side = "BUY"
    · simp only [hours, and_self, if_true, true_imp_iff]
      have hprice := @sameNumber_returns order.price price
      have hsize := @sameNumber_returns order.size size
      have hequal := @sameNumber_true order.price price
      cases hcompared : sameNumber order.price price with
      | error e =>
        rw [hcompared] at hprice
        exact iff_of_false nofun fun h => nomatch hprice.mpr h.1
      | ok same =>
        rw [hcompared] at hprice hequal
        have hread := hprice.mp ⟨same, rfl⟩
        cases same with
        | false =>
          refine iff_of_true ⟨_, rfl⟩ ⟨hread, fun h => nomatch hequal.mpr h⟩
        | true =>
          have hcond : (order.price ≠ .nan true ∧
              (order.price = .finite price → order.size ≠ .nan true)) ↔ order.size ≠ .nan true :=
            ⟨fun h => h.2 (hequal.mp rfl), fun h => ⟨hread, fun _ => h⟩⟩
          rw [hcond, ← hsize]
          cases sameNumber order.size size with
          | error e => exact iff_of_false nofun nofun
          | ok same => cases same <;> exact iff_of_true ⟨_, rfl⟩ ⟨_, rfl⟩
    · rw [if_neg hours]
      refine iff_of_true ⟨none, rfl⟩ fun htoken hside => absurd ⟨htoken, hside⟩ hours

/-- The matches of a token are as many as the rows that list it. -/
theorem filter_length_eq_countP (hfound : x.Finds market price size rows found) {token : String}
    (htoken : token ∈ x.expectedTokens market) :
    (found.filter fun row => row.tokenId = token).length =
      rows.countP fun raw => Lists x.codec "BUY" token price size raw := by
  unfold Finds exactMatches at hfound
  cases hall : rows.mapM (exactMatch x.codec (x.expectedTokens market) "BUY" price size) with
  | error e => simp [hall, Except.map] at hfound
  | ok all =>
    simp only [hall, Except.map, Except.ok.injEq] at hfound
    subst hfound
    have hpairs := Results.forall₂_of_mapM hall
    clear hall
    induction hpairs with
    | nil => rfl
    | @cons raw kept rows all hfirst _ ih =>
      rw [List.countP_cons, ← ih]
      cases kept with
      | none =>
        have hother : ¬ Lists x.codec "BUY" token price size raw := by
          rintro ⟨order, hlisted, rfl, hterms⟩
          exact nomatch hfirst.symm.trans (exactMatch_some.mpr ⟨hlisted, htoken, hterms⟩)
        simp [hother]
      | some order =>
        obtain ⟨hlisted, -, hterms⟩ := exactMatch_some.mp hfirst
        have hlists : Lists x.codec "BUY" token price size raw ↔ order.tokenId = token := by
          unfold Lists
          simp [hlisted, hterms]
        by_cases hsame : order.tokenId = token
        · simp [hlists, hsame]
        · simp [hlists, hsame]

/-- What a reconciliation that returned came to is all or nothing exactly where
the matches found allow it. -/
theorem allOrNothing_iff {retryableIfMissing : Bool} {cancel : Except Exn Unit} {b : Bot}
    (hfound : x.Finds market price size rows found)
    (h : (x.reconcileAmbiguousDual market price size retryableIfMissing (.ok rows) cancel).result b =
      .ok r) :
    AllOrNothing x market price size rows r
        ((x.reconcileAmbiguousDual market price size retryableIfMissing (.ok rows) cancel).commits b) ↔
      Readable x market found := by
  have hids : ∀ sent, sent = [.cancel x.account (x.foundIds market found),
      .forget x.account (EventQuant.submissionKey market price size)] → r.orders = [] →
      AllOrNothing x market price size rows r sent := by
    intro sent hsent horders
    have hall : ∀ orderId, MatchesLeg x market price size rows orderId → Cancelled sent orderId :=
      fun orderId hmatches => ⟨x.account, x.foundIds market found, hsent ▸ List.mem_cons_self,
        (matchesLeg_iff hfound).mp hmatches⟩
    refine ⟨.inr ⟨horders, hall⟩, fun orderId hmatches => .inr (hall orderId hmatches), fun _ => ?_⟩
    rw [hsent]
    exact List.mem_cons_of_mem _ (List.mem_singleton_self _)
  cases reconcileAmbiguousDual_reconciled hfound h with
  | nameless hone hadopt horders hsent => exact nameless_iff hfound hone hadopt horders hsent
  | adopted hone hadopt herror hexpected hsent =>
    exact adopted_iff hfound hone hadopt herror hexpected hsent
  | cancelled hshape horders hsent =>
    exact iff_of_true (hids _ hsent horders) fun hone => absurd (oneEach_iff.mpr hone) hshape
  | missing hshape hnone horders hsent =>
    refine iff_of_true ?_ fun hone => absurd (oneEach_iff.mpr hone) hshape
    have hnoMatch : ∀ orderId, ¬ MatchesLeg x market price size rows orderId := by
      intro orderId hmatches
      rw [matchesLeg_iff hfound, hnone] at hmatches
      exact absurd hmatches List.not_mem_nil
    refine ⟨.inr ⟨horders, fun orderId h => absurd h (hnoMatch orderId)⟩,
      fun orderId h => absurd h (hnoMatch orderId), fun h => ?_⟩
    rcases h with h | ⟨orderId, account, orderIds, hmem, -⟩
    · exact absurd horders h
    · exact absurd (hsent _ hmem) (by simp)

/-- A reconciliation that found the matches returns, unless there are ids to
cancel and the cancel raises. -/
theorem reconcileAmbiguousDual_returns {retryableIfMissing : Bool} {cancel : Except Exn Unit}
    {b : Bot} (hfound : x.Finds market price size rows found) :
    (∃ r, (x.reconcileAmbiguousDual market price size retryableIfMissing (.ok rows)
        cancel).result b = .ok r) ↔
      ((∀ leg ∈ x.legMatches market found, leg.2.length = 1) ∨ x.foundIds market found = [] ∨
        ∃ u, cancel = .ok u) := by
  unfold reconcileAmbiguousDual
  simp only [bind_eq]
  rw [result_andThen_ok (a := rows) (by rw [result_answer]), after_answer,
    result_andThen_ok (a := found) (by rw [result_answer]; exact hfound), after_answer]
  change (∃ r, ((if (x.legMatches market found).all (fun leg => leg.2.length = 1) = true then
    _ else _ : Action PlacementResult)).result b = .ok r) ↔ _
  simp only [List.all_eq_true, decide_eq_true_eq]
  split
  · rename_i hone
    refine iff_of_true ?_ (.inl hone)
    cases hadopt : x.adoptPair price size (x.legMatches market found) with
    | none | some =>
      have hpairs := hadopt
      unfold legMatches at hpairs
      simp only [hpairs]
      exact ⟨_, rfl⟩
  · rename_i hshape
    change (∃ r, (if x.foundIds market found ≠ [] then _ else _ : Action PlacementResult).result b =
      .ok r) ↔ _
    by_cases hids : x.foundIds market found = []
    · rw [if_neg (not_not.mpr hids)]
      refine iff_of_true ?_ (.inr (.inl hids))
      cases retryableIfMissing <;> exact ⟨_, rfl⟩
    · rw [if_pos hids]
      cases cancel with
      | error e =>
        refine iff_of_false nofun ?_
        rintro (hone | hnone | ⟨u, hu⟩)
        · exact hshape hone
        · exact hids hnone
        · cases hu
      | ok u => exact iff_of_true ⟨_, rfl⟩ (.inr (.inr ⟨u, rfl⟩))

/-- The rows as they are listed say what the matches among them do. -/
theorem oneEach_rows (hfound : x.Finds market price size rows found) :
    (∀ leg ∈ x.legMatches market found, leg.2.length = 1) ↔ OneEach x market price size rows := by
  rw [oneEach_iff]
  unfold OneEach
  refine forall₂_congr fun token htoken => ?_
  rw [filter_length_eq_countP hfound (mem_expectedTokens.mpr htoken)]

theorem readable_rows (hfound : x.Finds market price size rows found) :
    Readable x market found ↔ (OneEach x market price size rows →
      (∀ raw ∈ rows, OnLeg x market price size raw → orderIdOf x.codec raw = none) ∨
        (x.legTokens market).Nodup ∧
          ∀ raw ∈ rows, OnLeg x market price size raw → (orderIdOf x.codec raw).isSome = true) := by
  have hall : ∀ P : Value → Prop, (∀ row ∈ found, row.tokenId ∈ x.legTokens market → P row.raw) ↔
      ∀ raw ∈ rows, OnLeg x market price size raw → P raw := by
    intro P
    constructor
    · rintro h raw hraw ⟨token, htoken, hlists⟩
      obtain ⟨row, hrow, rfl, rfl⟩ :=
        (exactMatches_lists hfound (mem_expectedTokens.mpr htoken)).mp ⟨hraw, hlists⟩
      exact h row hrow htoken
    · intro h row hrow htoken
      obtain ⟨hraw, hlists⟩ := lists_of_found hfound hrow
      exact h row.raw hraw ⟨row.tokenId, htoken, hlists⟩
  unfold Readable
  rw [← oneEach_iff, oneEach_rows hfound, hall fun raw => orderIdOf x.codec raw = none,
    hall fun raw => (orderIdOf x.codec raw).isSome = true]

theorem foundIds_eq_nil_iff (hfound : x.Finds market price size rows found) :
    x.foundIds market found = [] ↔
      ¬ ∃ raw ∈ rows, OnLeg x market price size raw ∧ (orderIdOf x.codec raw).isSome = true := by
  rw [List.eq_nil_iff_forall_not_mem]
  constructor
  · rintro h ⟨raw, hraw, honLeg, hnamed⟩
    obtain ⟨orderId, hid⟩ := Option.isSome_iff_exists.mp hnamed
    exact h orderId ((matchesLeg_iff hfound).mp ⟨raw, hraw, honLeg, hid⟩)
  · intro h orderId hmem
    obtain ⟨raw, hraw, honLeg, hid⟩ := (matchesLeg_iff hfound).mpr hmem
    exact h ⟨raw, hraw, honLeg, Option.isSome_iff_exists.mpr ⟨orderId, hid⟩⟩

/-- The matches are found where each row can be read and compared. -/
theorem finds_iff : (∃ found, x.Finds market price size rows found) ↔
    ∀ raw ∈ rows, Legible x market price raw := by
  unfold Finds exactMatches
  constructor
  · rintro ⟨found, hfound⟩ raw hraw
    cases hall : rows.mapM (exactMatch x.codec (x.expectedTokens market) "BUY" price size) with
    | error e => simp [hall, Except.map] at hfound
    | ok all =>
      obtain ⟨kept, -, hkept⟩ := Results.exists_result hall hraw
      exact exactMatch_returns_iff.mp ⟨kept, hkept⟩
  · intro h
    obtain ⟨all, hall⟩ := Results.mapM_returns fun raw hraw =>
      exactMatch_returns_iff.mpr (h raw hraw)
    exact ⟨_, by rw [hall]; rfl⟩

/-- The reconciliation of an ambiguous entry returns and is all or nothing
exactly when the rows can be read, a set of one match for each leg is nameless
throughout or named throughout over different tokens, and the cancel of any
other set is answered. -/
theorem pair_all_or_nothing_iff (x : Exchange) (market : Market) (price size : ℚ)
    (retryableIfMissing : Bool) (rows : List Value) (cancel : Except Exn Unit) (b : Bot) :
    (∃ r, (x.reconcileAmbiguousDual market price size retryableIfMissing (.ok rows)
        cancel).result b = .ok r ∧
      AllOrNothing x market price size rows r
        ((x.reconcileAmbiguousDual market price size retryableIfMissing (.ok rows)
          cancel).commits b)) ↔
      Reconcilable x market price size rows cancel := by
  constructor
  · rintro ⟨r, hresult, hall⟩
    have hfound : ∃ found, x.Finds market price size rows found := by
      unfold reconcileAmbiguousDual at hresult
      obtain ⟨rows', hrows, hrest⟩ := andThen_returned hresult
      obtain ⟨found, hfound, -⟩ := andThen_returned hrest
      obtain rfl : rows = rows' := Except.ok.inj hrows
      exact ⟨found, hfound⟩
    refine ⟨finds_iff.mp hfound, ?_, ?_⟩
    · obtain ⟨found, hfound⟩ := hfound
      exact (readable_rows hfound).mp ((allOrNothing_iff hfound hresult).mp hall)
    · obtain ⟨found, hfound⟩ := hfound
      intro hshape hnamed
      rcases (reconcileAmbiguousDual_returns hfound).mp ⟨r, hresult⟩ with hone | hnone | hcancel
      · exact absurd ((oneEach_rows hfound).mp hone) hshape
      · exact absurd hnamed ((foundIds_eq_nil_iff hfound).mp hnone)
      · exact hcancel
  · intro h
    obtain ⟨found, hfound⟩ := finds_iff.mpr h.legible
    have hreturns : ∃ r, (x.reconcileAmbiguousDual market price size retryableIfMissing (.ok rows)
        cancel).result b = .ok r := by
      refine (reconcileAmbiguousDual_returns hfound).mpr ?_
      rw [oneEach_rows hfound, foundIds_eq_nil_iff hfound]
      by_cases hshape : OneEach x market price size rows
      · exact .inl hshape
      · exact .inr (or_iff_not_imp_left.mpr fun hnamed => h.cancelled hshape (not_not.mp hnamed))
    obtain ⟨r, hresult⟩ := hreturns
    exact ⟨r, hresult,
      (allOrNothing_iff hfound hresult).mpr ((readable_rows hfound).mpr h.matched)⟩

end Reconciled

end Exchange

def listedEntry (orderId tokenId : String) : Value :=
  .object [("id", .string orderId), ("asset_id", .string tokenId), ("side", .string "BUY"),
    ("price", .string "0.1"), ("original_size", .string "10")]

def reconcilePair (rows : List Value) : Action PlacementResult :=
  pairExchange.reconcileAmbiguousDual pairMarket (1 / 10) 10 true (.ok rows) (.ok ())

/-- The match of the up leg carries no id; the down order stays at the venue,
neither handed back nor cancelled. -/
theorem pair_all_or_nothing_nameless :
    let rows := [listedEntry "" "up-token", listedEntry "0xb2" "down-token"]
    ∃ r, (reconcilePair rows).result (Bot.boot Database.empty) = .ok r ∧
      ¬ Exchange.AllOrNothing pairExchange pairMarket (1 / 10) 10 rows r
        ((reconcilePair rows).commits (Bot.boot Database.empty)) := by
  intro rows
  have horders : ((reconcilePair rows).result (Bot.boot Database.empty)).toOption.map
      (fun r => r.orders) = some [] := by
    decide +kernel
  have hsent : ((reconcilePair rows).commits (Bot.boot Database.empty)).length = 0 := by
    decide +kernel
  have hids : (exactMatches pairExchange.codec (pairExchange.expectedTokens pairMarket) "BUY" (1 / 10)
      10 rows).toOption.map (pairExchange.foundIds pairMarket) = some ["0xb2"] := by
    decide +kernel
  cases hresult : (reconcilePair rows).result (Bot.boot Database.empty) with
  | error e => simp [hresult, Except.toOption] at horders
  | ok r =>
    cases hfound : exactMatches pairExchange.codec (pairExchange.expectedTokens pairMarket) "BUY"
        (1 / 10) 10 rows with
    | error e =>
      rw [hfound] at hids
      simp [Except.toOption] at hids
    | ok found =>
      simp only [hfound, Except.toOption, Option.map_some, Option.some.injEq] at hids
      simp only [hresult, Except.toOption, Option.map_some, Option.some.injEq] at horders
      refine ⟨r, rfl, fun h => ?_⟩
      have hlisted : Exchange.MatchesLeg pairExchange pairMarket (1 / 10) 10 rows "0xb2" := by
        rw [Exchange.matchesLeg_iff hfound, hids]
        exact List.mem_singleton_self _
      rcases h.accounted "0xb2" hlisted with ⟨o, ho, -⟩ | ⟨account, orderIds, hmem, -⟩
      · rw [horders] at ho
        exact absurd ho List.not_mem_nil
      · rw [List.length_eq_zero_iff.mp hsent] at hmem
        exact absurd hmem List.not_mem_nil

end EventQuant
