import EventQuant.Fleet
import EventQuant.Settlement

/-!
What a placement with one member kept leaves at the venue for the others. An
order is pulled when its own account was sent its cancel and it is handed back
as over or about to be; which of a member's orders are is read off what the
knock came to for it.
-/
namespace EventQuant

open Program Python
open Knock (Leg MemberResult AcceptedOrder liveBody)

def Over (status : String) : Prop := status ∈ terminalStates ∨ status = "cancel_requested"

instance (status : String) : Decidable (Over status) := by
  unfold Over
  infer_instance

namespace Fleet

def outcomesOf : List (FleetMember × (Entry ⊕ MemberPlacement)) → List MemberResult →
    List (FleetMember × Entry × MemberResult)
  | (m, .inl entry) :: rest, outcome :: outcomes => (m, entry, outcome) :: outcomesOf rest outcomes
  | (_, .inr _) :: rest, outcomes => outcomesOf rest outcomes
  | (_, .inl _) :: _, [] => []
  | [], _ => []

variable (f : Fleet)

def outcomes (b : Bot) (market : Market) (price : ℚ) (answers : FleetAnswers) :
    List (FleetMember × Entry × MemberResult) :=
  match (collect f.members (prepare market price answers)).result b, answers.knock with
  | .ok prepared, .ok (results, _) => outcomesOf (f.joined answers prepared) results
  | _, _ => []

theorem outcomesOf_mem (joined : List (FleetMember × (Entry ⊕ MemberPlacement)))
    (results : List MemberResult) (x : FleetMember × Entry × MemberResult)
    (hx : x ∈ outcomesOf joined results) : (x.1, .inl x.2.1) ∈ joined := by
  fun_induction outcomesOf joined results with
  | case1 m entry rest outcome outcomes ih =>
    rcases List.mem_cons.mp hx with rfl | hx
    · exact List.mem_cons_self
    · exact List.mem_cons_of_mem _ (ih hx)
  | case2 m placement rest outcomes ih => exact List.mem_cons_of_mem _ (ih hx)
  | case3 => exact absurd hx List.not_mem_nil
  | case4 => exact absurd hx List.not_mem_nil

theorem outcomesOf_none (joined : List (FleetMember × (Entry ⊕ MemberPlacement)))
    (results : List MemberResult) (h : ¬ joined.any (fun p => p.2.isLeft) = true) :
    outcomesOf joined results = [] := by
  rw [List.eq_nil_iff_forall_not_mem]
  intro x hx
  exact h (List.any_eq_true.mpr ⟨_, outcomesOf_mem joined results x hx, rfl⟩)

theorem mem_of_mem_joined {answers : FleetAnswers} {prepared : List (Entry ⊕ MemberPlacement)}
    {p : FleetMember × (Entry ⊕ MemberPlacement)} (hp : p ∈ f.joined answers prepared) :
    p.1 ∈ f.members := (List.of_mem_zip (a := p.1) (b := p.2) hp).1

theorem outcomes_mem {b : Bot} {market : Market} {price : ℚ} {answers : FleetAnswers}
    {x : FleetMember × Entry × MemberResult} (hx : x ∈ f.outcomes b market price answers) :
    x.1 ∈ f.members := by
  unfold outcomes at hx
  split at hx
  · exact f.mem_of_mem_joined (outcomesOf_mem _ _ x hx)
  · exact absurd hx List.not_mem_nil

/-- Two members of one name are one. -/
theorem member_unique {m m' : FleetMember} (hm : m ∈ f.members) (hm' : m' ∈ f.members)
    (hname : m.name = m'.name) : m = m' :=
  List.inj_on_of_nodup_map f.distinct hm hm' hname

theorem member_of_mem {m : FleetMember} (hm : m ∈ f.members) : f.member m.name = .ok m := by
  unfold member
  cases hfind : f.members.find? fun m' => m'.name = m.name with
  | none => exact absurd (List.find?_eq_none.mp hfind m hm) (by simp)
  | some m' =>
    have hname : m'.name = m.name := by simpa using List.find?_some hfind
    rw [f.member_unique (List.mem_of_find?_eq_some hfind) hm hname]

def ordersOf (p : MemberPlacement) : List PlacedOrder := (p.result.map PlacementResult.orders).getD []

theorem prepareEntry_idle {x : Exchange} {market : Market} {price size : ℚ}
    {sign : Except SigningFailure (String × String → String)} {b : Bot} {r : PlacementResult}
    (h : (x.prepareEntry market price size sign).result b = .ok (.inr r)) :
    r.orders = [] ∧ r.complete = false := by
  unfold Exchange.prepareEntry at h
  obtain ⟨signed, -, h⟩ := andThen_returned h
  have hentry : ∀ bodies, (x.entry market price size bodies).map Sum.inl =
      (.ok (.inr r) : Except Exn (Entry ⊕ PlacementResult)) → False := by
    intro bodies hbodies
    cases hx : x.entry market price size bodies <;> simp [hx, Except.map] at hbodies
  split at h
  · exact absurd h (hentry _)
  · split at h
    · simp only [result_return, Except.ok.injEq, Sum.inr.injEq] at h
      rw [← h]
      exact ⟨rfl, rfl⟩
    · simp at h
    · obtain ⟨_, -, h⟩ := andThen_returned h
      exact absurd h (hentry _)

def Idle (p : MemberPlacement) : Prop := ordersOf p = [] ∧ p.registered = false

theorem prepare_idle {market : Market} {price : ℚ} {answers : FleetAnswers} {m : FleetMember}
    {b : Bot} {p : MemberPlacement}
    (h : (prepare market price answers m).result b = .ok (.inr p)) : Idle p := by
  rcases handle_returned h with ⟨h, -⟩ | ⟨e, -, h⟩
  · obtain ⟨prepared, hprepared, h⟩ := andThen_returned h
    split at h
    · simp at h
    · simp only [result_return, Except.ok.injEq, Sum.inr.injEq] at h
      subst h
      exact prepareEntry_idle hprepared
  · simp only [result_return, Except.ok.injEq, Sum.inr.injEq] at h
    subst h
    exact ⟨rfl, rfl⟩

/-- A member that sits the knock out holds no order. -/
theorem joined_idle {b : Bot} {market : Market} {price : ℚ} {answers : FleetAnswers}
    {prepared : List (Entry ⊕ MemberPlacement)}
    (h : (collect f.members (prepare market price answers)).result b = .ok prepared)
    {m : FleetMember} {p : MemberPlacement} (hp : (m, .inr p) ∈ f.joined answers prepared) :
    Idle p := by
  have hpairs := collect_ran h
  clear h
  unfold joined at hp
  generalize (collect f.members (prepare market price answers)).commits b = ws at hpairs
  generalize f.members = members at hp hpairs
  induction hpairs with
  | nil => exact absurd hp List.not_mem_nil
  | @cons m' prepared' ms ps hran _ ih =>
    rcases List.mem_cons.mp hp with hhead | hp
    · obtain ⟨rfl, hjoin⟩ := Prod.mk.inj hhead
      obtain ⟨t, ht, -⟩ := hran
      unfold join at hjoin
      split at hjoin
      · obtain rfl := Sum.inr.inj hjoin
        exact prepare_idle ht
      · split at hjoin
        · obtain rfl := Sum.inr.inj hjoin
          exact ⟨rfl, rfl⟩
        · cases hjoin
    · exact ih hp

/-- Settling the members: each one of the knock settles what it came to for
it, and the others keep what they ended with. -/
theorem settleMembers_ran (answers : FleetAnswers)
    (joined : List (FleetMember × (Entry ⊕ MemberPlacement))) (results : List MemberResult)
    (b : Bot) (placements : List MemberPlacement)
    (h : (settleMembers answers joined results).result b = .ok placements) :
    (∀ x ∈ outcomesOf joined results, ∃ p ∈ placements,
      Ran (settleMember answers x.1 x.2.1 x.2.2) p
        ((settleMembers answers joined results).commits b)) ∧
    (∀ p ∈ placements, (∃ x ∈ outcomesOf joined results,
      Ran (settleMember answers x.1 x.2.1 x.2.2) p
        ((settleMembers answers joined results).commits b)) ∨ ∃ m, (m, .inr p) ∈ joined) := by
  fun_induction settleMembers answers joined results generalizing b placements with
  | case1 =>
    obtain rfl : [] = placements := Except.ok.inj h
    exact ⟨fun _ hx => absurd hx List.not_mem_nil, fun _ hp => absurd hp List.not_mem_nil⟩
  | case2 => simp at h
  | case3 m placement rest results ih =>
    obtain ⟨placements', hrest, hsub, hreturn, -⟩ := ran_andThen h
    obtain rfl : placement :: placements' = placements := Except.ok.inj hreturn
    obtain ⟨hsettled, hcame⟩ := ih b placements' hrest
    refine ⟨fun x hx => ?_, fun p hp => ?_⟩
    · obtain ⟨p, hp, hran⟩ := hsettled x hx
      exact ⟨p, List.mem_cons_of_mem _ hp, hran.mono hsub⟩
    · rcases List.mem_cons.mp hp with rfl | hp
      · exact .inr ⟨m, List.mem_cons_self⟩
      · rcases hcame p hp with ⟨x, hx, hran⟩ | ⟨m', hm'⟩
        · exact .inl ⟨x, hx, hran.mono hsub⟩
        · exact .inr ⟨m', List.mem_cons_of_mem _ hm'⟩
  | case4 => simp at h
  | case5 m entry rest outcome results ih =>
    obtain ⟨placement, hplacement, hown, htail, htailsub⟩ := ran_andThen h
    obtain ⟨placements', hrest, hrestsub, hreturn, -⟩ := ran_andThen htail
    obtain rfl : placement :: placements' = placements := Except.ok.inj hreturn
    obtain ⟨hsettled, hcame⟩ := ih _ placements' hrest
    have hfirst : Ran (settleMember answers m entry outcome) placement _ := ⟨b, hplacement, hown⟩
    have hsub := List.Subset.trans hrestsub htailsub
    refine ⟨fun x hx => ?_, fun p hp => ?_⟩
    · rcases List.mem_cons.mp hx with rfl | hx
      · exact ⟨placement, List.mem_cons_self, hfirst⟩
      · obtain ⟨p, hp, hran⟩ := hsettled x hx
        exact ⟨p, List.mem_cons_of_mem _ hp, hran.mono hsub⟩
    · rcases List.mem_cons.mp hp with rfl | hp
      · exact .inl ⟨_, List.mem_cons_self, hfirst⟩
      · rcases hcame p hp with ⟨x, hx, hran⟩ | ⟨m', hm'⟩
        · exact .inl ⟨x, List.mem_cons_of_mem _ hx, hran.mono hsub⟩
        · exact .inr ⟨m', List.mem_cons_of_mem _ hm'⟩

/-- What the knock of a placement leaves each member with. -/
theorem knockMembers_ran (market : Market) (price : ℚ) (answers : FleetAnswers) (b : Bot)
    (placements : List MemberPlacement) (seen : Option PreviewSeen)
    (h : (f.knockMembers market price answers).result b = .ok (placements, seen)) :
    (∀ x ∈ f.outcomes b market price answers, ∃ p ∈ placements,
      Ran (settleMember answers x.1 x.2.1 x.2.2) p
        ((f.knockMembers market price answers).commits b)) ∧
    (∀ p ∈ placements, (∃ x ∈ f.outcomes b market price answers,
      Ran (settleMember answers x.1 x.2.1 x.2.2) p
        ((f.knockMembers market price answers).commits b)) ∨ ordersOf p = []) := by
  unfold knockMembers at h ⊢
  simp only [bind_eq] at h ⊢
  obtain ⟨prepared, hprepared, -, hrest, hsub⟩ := ran_andThen h
  generalize hws : (andThen _ _).commits b = ws at hsub ⊢
  have houtcomes : f.outcomes b market price answers =
      match answers.knock with
      | .ok (results, _) => outcomesOf (f.joined answers prepared) results
      | .error _ => [] := by
    unfold outcomes
    rw [hprepared]
    cases answers.knock <;> rfl
  rw [houtcomes]
  have hempty : ∀ p, (∃ m, (m, .inr p) ∈ f.joined answers prepared) → ordersOf p = [] :=
    fun p ⟨_, hp⟩ => (f.joined_idle hprepared hp).1
  split at hrest
  · rename_i hany
    simp only [hany, if_true] at hsub
    obtain ⟨_, -, -, hknock, hknocksub⟩ := ran_andThen hrest
    cases hresults : answers.knock with
    | error e =>
      rw [hresults] at hknock
      obtain ⟨rfl, -⟩ := Prod.mk.inj (Except.ok.inj hknock)
      refine ⟨fun _ hx => absurd hx List.not_mem_nil, fun p hp => .inr ?_⟩
      obtain ⟨q, hq, rfl⟩ := List.mem_map.mp hp
      unfold failed
      split
      · rename_i placement hplacement
        exact hempty placement ⟨q.1, hplacement ▸ hq⟩
      · rfl
    | ok p =>
      obtain ⟨results, seen'⟩ := p
      rw [hresults] at hknock hknocksub hsub
      obtain ⟨placements', hplacements, hsettlesub, hreturn, -⟩ := ran_andThen hknock
      obtain ⟨rfl, -⟩ := Prod.mk.inj (Except.ok.inj hreturn)
      obtain ⟨hsettled, hcame⟩ := settleMembers_ran answers _ results _ _ hplacements
      have hall := List.Subset.trans hsettlesub (List.Subset.trans hknocksub hsub)
      refine ⟨fun x hx => ?_, fun p hp => ?_⟩
      · obtain ⟨p, hp, hran⟩ := hsettled x hx
        exact ⟨p, hp, hran.mono hall⟩
      · rcases hcame p hp with ⟨x, hx, hran⟩ | hsat
        · exact .inl ⟨x, hx, hran.mono hall⟩
        · exact .inr (hempty p hsat)
  · rename_i hnone
    obtain ⟨placements', hplacements, -, hreturn, -⟩ := ran_andThen hrest
    obtain ⟨rfl, -⟩ := Prod.mk.inj (Except.ok.inj hreturn)
    obtain ⟨-, hcame⟩ := settleMembers_ran answers _ [] _ _ hplacements
    refine ⟨fun x hx => ?_, fun p hp => .inr ?_⟩
    · split at hx
      · rw [outcomesOf_none _ _ hnone] at hx
        exact absurd hx List.not_mem_nil
      · exact absurd hx List.not_mem_nil
    · rcases hcame p hp with ⟨x, hx, -⟩ | hsat
      · rw [outcomesOf_none _ _ hnone] at hx
        exact absurd hx List.not_mem_nil
      · exact hempty p hsat

def laggardCancel (answers : FleetAnswers) (name : String) : Except Exn (Codec × Value) := do
  let m ← f.member name
  let result ← (answers.member m.name).cancelLaggard
  .ok (m.exchange.codec, result)

def cancelWord (answers : FleetAnswers) (name : String) : List String × List String :=
  match f.laggardCancel answers name with
  | .error _ => ([], [])
  | .ok (codec, result) => (cancelOutcome codec result).toOption.getD ([], [])

/-- A placement's order as it is recorded: under its member, and by what the
cancel made of it if the member lags. -/
def recorded (kept : Option String) (answers : FleetAnswers) (p : MemberPlacement)
    (order : PlacedOrder) : PlacedOrder :=
  let stamped := { order with account := p.member }
  if f.laggard kept p then
    afterCancel (f.cancelWord answers p.member).1 (f.cancelWord answers p.member).2 stamped
  else stamped

theorem afterCancel_over (canceled terminal : List String) (order : PlacedOrder) :
    (afterCancel canceled terminal order).orderId = order.orderId ∧
      (afterCancel canceled terminal order).account = order.account ∧
      Over (afterCancel canceled terminal order).status := by
  unfold afterCancel
  split_ifs
  · exact ⟨rfl, rfl, (by decide : Over "cancelled")⟩
  · exact ⟨rfl, rfl, (by decide : Over "terminal_unknown")⟩
  · exact ⟨rfl, rfl, (by decide : Over "cancel_requested")⟩

theorem recorded_over (kept : Option String) (answers : FleetAnswers) (p : MemberPlacement)
    (order : PlacedOrder) :
    (f.recorded kept answers p order).orderId = order.orderId ∧
      (f.recorded kept answers p order).account = p.member ∧
      if f.laggard kept p then Over (f.recorded kept answers p order).status
      else (f.recorded kept answers p order).status = order.status := by
  unfold recorded
  split
  · exact afterCancel_over _ _ _
  · exact ⟨rfl, rfl, rfl⟩

def laggardCall (answers : FleetAnswers) (name : String) (orderIds : List String) :
    Action (Except Exn (Codec × Value)) :=
  handle
    (do
      let m ← answer (f.member name)
      commit (.cancel m.name orderIds)
      let result ← answer (answers.member m.name).cancelLaggard
      return' (Except.ok (m.exchange.codec, result)))
    fun e => return' (Except.error e)

theorem laggardCall_result (answers : FleetAnswers) (name : String) (orderIds : List String) (t : Bot) :
    (f.laggardCall answers name orderIds).result t = .ok (f.laggardCancel answers name) := by
  unfold laggardCall laggardCancel
  rw [result_handle_return]
  simp only [bind_eq, result_andThen, result_answer]
  cases f.member name with
  | error e => rfl
  | ok m =>
    simp only [Except.bind, bind, result_commit]
    cases (answers.member m.name).cancelLaggard <;> rfl

theorem laggardCall_sends {name : String} {m : FleetMember} (hm : f.member name = .ok m)
    (answers : FleetAnswers) (orderIds : List String) (t : Bot) :
    (f.laggardCall answers name orderIds).commits t = [.cancel m.name orderIds] := by
  unfold laggardCall
  simp only [bind_eq, hm]
  cases hcall : (answers.member m.name).cancelLaggard with
  | error e =>
    have hraised : ((answer (.ok m) : Action FleetMember).andThen fun m =>
        (commit (.cancel m.name orderIds)).andThen fun _ =>
          (answer (answers.member m.name).cancelLaggard).andThen fun result =>
            return' (Except.ok (ε := Exn) (m.exchange.codec, result))).result t = .error e := by
      rw [result_andThen_ok (result_answer _ _), result_andThen_ok (result_commit _ _), hcall,
        result_andThen_error (result_answer _ _)]
    rw [commits_handle_error hraised, commits_andThen_ok (result_answer _ _),
      commits_andThen_ok (result_commit _ _), hcall, commits_andThen_error (result_answer _ _)]
    simp
  | ok result =>
    have hanswered : ((answer (.ok m) : Action FleetMember).andThen fun m =>
        (commit (.cancel m.name orderIds)).andThen fun _ =>
          (answer (answers.member m.name).cancelLaggard).andThen fun result =>
            return' (Except.ok (ε := Exn) (m.exchange.codec, result))).result t =
              .ok (.ok (m.exchange.codec, result)) := by
      rw [result_andThen_ok (result_answer _ _), result_andThen_ok (result_commit _ _), hcall,
        result_andThen_ok (result_answer _ _), result_return]
    rw [commits_handle_ok hanswered, commits_andThen_ok (result_answer _ _),
      commits_andThen_ok (result_commit _ _), hcall, commits_andThen_ok (result_answer _ _)]
    simp

/-- A placement whose orders stay as they are commits nothing. -/
theorem settlePlacement_kept {kept : Option String} {p : MemberPlacement}
    (h : ordersOf p = [] ∨ f.laggard kept p = false) (answers : FleetAnswers) (t : Bot) :
    (f.settlePlacement kept answers p).result t =
        .ok ((ordersOf p).map fun order => { order with account := p.member }, [], []) ∧
      (f.settlePlacement kept answers p).commits t = [] := by
  have hstamped : ((p.result.map PlacementResult.orders).getD []).map
      (fun order => ({ order with account := p.member } : PlacedOrder)) =
        (ordersOf p).map fun order => { order with account := p.member } := rfl
  unfold settlePlacement
  simp only [hstamped]
  by_cases hnone : ordersOf p = []
  · simp [hnone]
  · simp [hnone, h.resolve_left hnone]

def laggardPart (answers : FleetAnswers) (p : MemberPlacement) :
    Except Exn (List PlacedOrder × List String × List String) :=
  let stamped := (ordersOf p).map fun order => { order with account := p.member }
  match f.laggardCancel answers p.member with
  | .error e =>
    .ok (stamped.map fun order => { order with status := "cancel_requested" }, [],
      [p.member ++ ": " ++ e.text])
  | .ok (codec, result) => (cancelOutcome codec result).map fun word =>
    (stamped.map (afterCancel word.1 word.2),
      (stamped.map PlacedOrder.orderId).filter (· ∈ word.1), [])

theorem settlePlacement_pulled {kept : Option String} {p : MemberPlacement} (hsome : ordersOf p ≠ [])
    (hlaggard : f.laggard kept p = true) (answers : FleetAnswers) (t : Bot) :
    (f.settlePlacement kept answers p).result t = f.laggardPart answers p ∧
      (f.settlePlacement kept answers p).commits t =
        (f.laggardCall answers p.member ((ordersOf p).map PlacedOrder.orderId)).commits t := by
  have hstamped : ((p.result.map PlacementResult.orders).getD []).map
      (fun order => ({ order with account := p.member } : PlacedOrder)) =
        (ordersOf p).map fun order => { order with account := p.member } := rfl
  have hids : ((ordersOf p).map fun order => ({ order with account := p.member } : PlacedOrder)).map
      PlacedOrder.orderId = (ordersOf p).map PlacedOrder.orderId := by
    rw [List.map_map]
    rfl
  have hcall := f.laggardCall_result answers p.member ((ordersOf p).map PlacedOrder.orderId) t
  unfold settlePlacement laggardPart
  simp only [hstamped, hlaggard, Bool.not_true, Bool.false_eq_true, if_false, bind_eq, hids,
    List.map_eq_nil_iff, hsome]
  unfold laggardCall at hcall ⊢
  simp only [bind_eq] at hcall
  rw [result_andThen_ok hcall, commits_andThen_ok hcall]
  cases f.laggardCancel answers p.member with
  | error e => exact ⟨rfl, List.append_nil _⟩
  | ok called =>
    obtain ⟨codec, result⟩ := called
    simp only [result_andThen, result_answer]
    cases hword : cancelOutcome codec result with
    | error e =>
      rw [commits_andThen_error (by rw [result_answer])]
      exact ⟨rfl, List.append_nil _⟩
    | ok word =>
      rw [commits_andThen_ok (by rw [result_answer])]
      exact ⟨rfl, List.append_nil _⟩

/-- A placement's orders are recorded, its laggard's orders are sent their
cancel, and what the cancel answered could be read. -/
theorem settlePlacement_ran (kept : Option String) (answers : FleetAnswers) (p : MemberPlacement)
    (part : List PlacedOrder × List String × List String) (ws : List Effect)
    (h : Ran (f.settlePlacement kept answers p) part ws) :
    part.1 = (ordersOf p).map (f.recorded kept answers p) ∧
      (f.laggard kept p = true → ordersOf p ≠ [] →
        (∀ m, f.member p.member = .ok m →
          .cancel m.name ((ordersOf p).map PlacedOrder.orderId) ∈ ws) ∧
        ∀ codec result, f.laggardCancel answers p.member = .ok (codec, result) →
          ∃ word, cancelOutcome codec result = .ok word) := by
  obtain ⟨t, hresult, hsub⟩ := h
  by_cases hkept : ordersOf p = [] ∨ f.laggard kept p = false
  · rw [(f.settlePlacement_kept hkept answers t).1, Except.ok.injEq] at hresult
    subst hresult
    refine ⟨List.map_congr_left fun o ho => ?_, fun hlaggard hsome => ?_⟩
    · have hstays : f.laggard kept p = false :=
        hkept.resolve_left fun hnone => absurd (hnone ▸ ho) List.not_mem_nil
      simp [recorded, hstays]
    · rw [hkept.resolve_left hsome] at hlaggard
      exact nomatch hlaggard
  · rw [not_or, Bool.not_eq_false] at hkept
    obtain ⟨hsome, hlaggard⟩ := hkept
    obtain ⟨hpart, hcommits⟩ := f.settlePlacement_pulled hsome hlaggard answers t
    have hsent : ∀ m, f.member p.member = .ok m →
        Effect.cancel m.name ((ordersOf p).map PlacedOrder.orderId) ∈ ws := by
      intro m hm
      refine hsub (hcommits ▸ ?_)
      rw [f.laggardCall_sends hm]
      exact List.mem_singleton_self _
    have hrecorded : ∀ canceled terminal, f.cancelWord answers p.member = (canceled, terminal) →
        (ordersOf p).map (f.recorded kept answers p) =
          ((ordersOf p).map fun order => { order with account := p.member }).map
            (afterCancel canceled terminal) := by
      intro canceled terminal hword
      rw [List.map_map]
      refine List.map_congr_left fun o _ => ?_
      simp [recorded, hlaggard, hword]
    rw [hpart] at hresult
    unfold laggardPart at hresult
    cases hcall : f.laggardCancel answers p.member with
    | error e =>
      simp only [hcall, Except.ok.injEq] at hresult
      subst hresult
      refine ⟨?_, fun _ _ => ⟨hsent, fun _ _ h => nomatch h⟩⟩
      rw [hrecorded [] [] (by simp [cancelWord, hcall])]
      exact List.map_congr_left fun o _ => by simp [afterCancel]
    | ok called =>
      obtain ⟨codec, result⟩ := called
      simp only [hcall] at hresult
      cases hword : cancelOutcome codec result with
      | error e =>
        rw [hword] at hresult
        exact nomatch hresult
      | ok word =>
        simp only [hword, Except.map, Except.ok.injEq] at hresult
        subst hresult
        refine ⟨?_, fun _ _ => ⟨hsent, fun codec' result' h => ?_⟩⟩
        · rw [hrecorded word.1 word.2 (by simp [cancelWord, hcall, hword, Except.toOption])]
        · obtain ⟨rfl, rfl⟩ := Prod.mk.inj (Except.ok.inj h)
          exact ⟨word, hword⟩

/-- The member's order was sent its cancel by its own account and is handed
back as over or about to be. -/
def Pulled (sent : List Effect) (placement : FleetPlacement) (m : FleetMember) (orderId : String) :
    Prop :=
  (∃ orderIds, Effect.cancel m.name orderIds ∈ sent ∧ orderId ∈ orderIds) ∧
    ∃ o ∈ placement.orders, o.orderId = orderId ∧ o.account = m.name ∧ Over o.status

/-- The knock registered the order for the member, which settled its part:
either the set was complete, or the cancel of the incomplete one returned and
the venue's own word for the order is that it is over. -/
def Settled (knocked : List (FleetMember × Entry × MemberResult)) (answers : FleetAnswers)
    (m : FleetMember) (orderId : String) : Prop :=
  ∃ entry outcome, (m, entry, outcome) ∈ knocked ∧
    (∀ a ∈ outcome.accepted, a.outcome ∈ entry.legs.map Leg.outcome) ∧
    ∃ a ∈ outcome.accepted, a.orderId = orderId ∧
      (outcome.accepted.length = entry.specifications.length ∨
        (answers.member m.name).cancelIncomplete = .ok () ∧
          Over (replyStatus m.exchange.codec (replyValue m.exchange.codec a.status a.body)))

/-- What settling a member's part came to. -/
theorem settleMember_ran {answers : FleetAnswers} {m : FleetMember} {entry : Entry}
    {outcome : MemberResult} {p : MemberPlacement} {ws : List Effect}
    (h : Ran (settleMember answers m entry outcome) p ws) :
    p.member = m.name ∧ ∃ t,
      ((∃ r, p.result = some r ∧
          Ran (m.exchange.settleEntry entry outcome (answers.member m.name).cancelIncomplete) r ws) ∨
        (p.result = none ∧ ∀ r, (m.exchange.settleEntry entry outcome
          (answers.member m.name).cancelIncomplete).result t ≠ .ok r)) := by
  obtain ⟨t, hresult, hsub⟩ := h
  rcases handle_returned hresult with ⟨hran, hcommits⟩ | ⟨e, hraised, hhandled⟩
  · obtain ⟨r, hr, hown, hreturn, -⟩ := ran_andThen hran
    obtain rfl := Except.ok.inj hreturn
    rw [settleMember, hcommits] at hsub
    exact ⟨rfl, t, .inl ⟨r, rfl, t, hr, List.Subset.trans hown hsub⟩⟩
  · obtain rfl := Except.ok.inj hhandled
    refine ⟨rfl, t, .inr ⟨rfl, fun r hr => ?_⟩⟩
    rw [bind_eq, result_andThen, hr] at hraised
    simp [Except.bind] at hraised

/-- A placement that returned: its members' placements, and each one's part of
the orders handed back. -/
theorem place_ran {market : Market} {price : ℚ} {answers : FleetAnswers} {b : Bot}
    {placement : FleetPlacement} (h : (f.place market price answers).result b = .ok placement) :
    (∃ seen, (f.knockMembers market price answers).result b = .ok (placement.placements, seen)) ∧
    (f.knockMembers market price answers).commits b ⊆ (f.place market price answers).commits b ∧
    ∃ parts, placement.orders = (parts.map Prod.fst).flatten ∧
      List.Forall₂ (fun p part => Ran (f.settlePlacement placement.kept answers p) part
        ((f.place market price answers).commits b)) placement.placements parts := by
  obtain ⟨⟨placements, seen⟩, hknock, hknocksub, hrest, hsub⟩ := ran_andThen h
  obtain ⟨⟨orders, cancelled, errors⟩, hsettle, hsettlesub, hreturn, -⟩ := ran_andThen hrest
  obtain rfl := Except.ok.inj hreturn
  obtain ⟨parts, hparts, hpartsub, hparted, -⟩ := ran_andThen hsettle
  obtain ⟨rfl, -⟩ := Prod.mk.inj (Except.ok.inj hparted)
  refine ⟨⟨seen, hknock⟩, hknocksub, parts, rfl, (collect_ran hparts).imp fun _ _ hran => ?_⟩
  exact hran.mono (List.Subset.trans hpartsub (List.Subset.trans hsettlesub hsub))

/-- A member's order is pulled exactly when the knock registered it and the
member settled its part. -/
theorem pulled_iff {market : Market} {price : ℚ} {answers : FleetAnswers} {b : Bot}
    {placement : FleetPlacement} {k : String}
    (hplace : (f.place market price answers).result b = .ok placement)
    (hkept : placement.kept = some k) (hbest : f.keepBest = true) {m : FleetMember}
    (hm : m ∈ f.members) (hother : m.name ≠ k) (orderId : String) :
    Pulled ((f.place market price answers).commits b) placement m orderId ↔
      Settled (f.outcomes b market price answers) answers m orderId := by
  obtain ⟨⟨seen, hknock⟩, hknocksub, parts, horders, hparts⟩ := f.place_ran hplace
  obtain ⟨hsettled, hcame⟩ := f.knockMembers_ran market price answers b _ seen hknock
  have hlaggard : ∀ p : MemberPlacement, p.member = m.name →
      f.laggard placement.kept p = p.registered := by
    intro p hp
    have hneq : some p.member ≠ placement.kept := by
      rw [hkept, hp]
      exact fun h => hother (Option.some.inj h)
    simp [laggard, hbest, hkept, hp, hother]
  constructor
  · rintro ⟨-, o', ho', hid, haccount, hover⟩
    rw [horders, List.mem_flatten] at ho'
    obtain ⟨_, hfirst, ho'⟩ := ho'
    obtain ⟨part, hpart, rfl⟩ := List.mem_map.mp hfirst
    obtain ⟨p, hp, hran⟩ := Results.exists_left hparts hpart
    obtain ⟨hrecorded, -⟩ := f.settlePlacement_ran _ answers p part _ hran
    rw [hrecorded, List.mem_map] at ho'
    obtain ⟨o, ho, rfl⟩ := ho'
    obtain ⟨hgid, hgaccount, hgstatus⟩ := f.recorded_over placement.kept answers p o
    rcases hcame p hp with ⟨⟨m', entry, outcome⟩, hmem, hran'⟩ | hempty
    swap
    · exact absurd ho (hempty ▸ List.not_mem_nil)
    obtain ⟨hname, t, ⟨r, hr, t', hresult, hsub⟩ | ⟨hnone, -⟩⟩ := settleMember_ran hran'
    swap
    · simp [ordersOf, hnone] at ho
    obtain rfl : m' = m := by
      refine f.member_unique (f.outcomes_mem hmem) hm ?_
      rw [← hname, ← hgaccount, haccount]
    have horders' : ordersOf p = r.orders := by simp [ordersOf, hr]
    rw [horders'] at ho
    obtain ⟨hmapM, -⟩ := m'.exchange.settleEntry_returned _ _ _ _ _ hresult
    obtain ⟨hcomplete, hcancel⟩ := m'.exchange.settleEntry_incomplete _ _ _ _ _ hresult
    obtain ⟨a, ha, hplaced⟩ := Results.exists_source hmapM ho
    refine ⟨entry, outcome, hmem, fun a' ha' => ?_, a, ha, ?_, ?_⟩
    · obtain ⟨o', -, hplaced'⟩ := Results.exists_result hmapM ha'
      exact (m'.exchange.acceptedOrder_status _ _ _ hplaced').2
    · rw [← hid, hgid, (m'.exchange.acceptedOrder_ok _ _ _ hplaced).1]
    · by_cases hfull : outcome.accepted.length = entry.specifications.length
      · exact .inl hfull
      · rw [decide_eq_false hfull] at hcomplete
        have hregistered : p.registered = false := by simp [MemberPlacement.registered, hr, hcomplete]
        rw [hlaggard p hname, hregistered] at hgstatus
        refine .inr ⟨(hcancel hcomplete (List.ne_nil_of_mem ho)).1, ?_⟩
        rw [← (m'.exchange.acceptedOrder_status _ _ _ hplaced).1, ← hgstatus]
        exact hover
  · rintro ⟨entry, outcome, hmem, hlegs, a, ha, hid, hsettle⟩
    obtain ⟨p, hp, hran⟩ := hsettled _ hmem
    obtain ⟨part, hpart, hran'⟩ := Results.exists_right hparts hp
    obtain ⟨hrecorded, hsent⟩ := f.settlePlacement_ran _ answers p part _ hran'
    have hback : ∀ t, ∃ r, (m.exchange.settleEntry entry outcome
        (answers.member m.name).cancelIncomplete).result t = .ok r := fun t =>
      m.exchange.settleEntry_handsBack entry outcome _ t hlegs (List.ne_nil_of_mem ha)
        (hsettle.imp_right And.left)
    obtain ⟨hname, t, ⟨r, hr, t', hresult, hsub⟩ | ⟨-, hnone⟩⟩ := settleMember_ran hran
    swap
    · obtain ⟨r, hr⟩ := hback t
      exact absurd hr (hnone r)
    have horders' : ordersOf p = r.orders := by simp [ordersOf, hr]
    obtain ⟨hmapM, -⟩ := m.exchange.settleEntry_returned _ _ _ _ _ hresult
    obtain ⟨hcomplete, hcancel⟩ := m.exchange.settleEntry_incomplete _ _ _ _ _ hresult
    obtain ⟨o, ho, hplaced⟩ := Results.exists_result hmapM ha
    obtain ⟨hgid, hgaccount, hgstatus⟩ := f.recorded_over placement.kept answers p o
    have hoid : o.orderId = orderId := by
      rw [(m.exchange.acceptedOrder_ok _ _ _ hplaced).1, hid]
    have hne : r.orders ≠ [] := List.ne_nil_of_mem ho
    have hregistered : p.registered = r.complete := by simp [MemberPlacement.registered, hr]
    rw [hlaggard p hname, hregistered] at hgstatus hsent
    have hreturned : f.recorded placement.kept answers p o ∈ placement.orders := by
      rw [horders, List.mem_flatten]
      exact ⟨part.1, List.mem_map_of_mem hpart, hrecorded ▸ horders' ▸ List.mem_map_of_mem ho⟩
    have hids : orderId ∈ r.orders.map PlacedOrder.orderId := hoid ▸ List.mem_map_of_mem ho
    cases hfull : r.complete with
    | true =>
      rw [hfull, if_pos rfl] at hgstatus
      refine ⟨⟨_, (hsent hfull (horders' ▸ hne)).1 m (hname ▸ f.member_of_mem hm), horders' ▸ hids⟩,
        _, hreturned, hgid.trans hoid, hgaccount.trans hname, hgstatus⟩
    | false =>
      rw [hfull, if_neg (by decide)] at hgstatus
      have hshort : ¬ outcome.accepted.length = entry.specifications.length :=
        of_decide_eq_false (hcomplete ▸ hfull)
      refine ⟨⟨_, hknocksub (hsub (hcancel hfull hne).2), hids⟩, _, hreturned,
        hgid.trans hoid, hgaccount.trans hname, ?_⟩
      rw [hgstatus, (m.exchange.acceptedOrder_status _ _ _ hplaced).1]
      exact (hsettle.resolve_left hshort).2

/-- With the best kept, every order the venue may hold for another member is
pulled exactly when each of them was registered by the knock and settled. -/
theorem place_exposure (market : Market) (price : ℚ) (answers : FleetAnswers) (b : Bot)
    (placement : FleetPlacement) (k : String) (truth : String → List String)
    (hplace : (f.place market price answers).result b = .ok placement)
    (hkept : placement.kept = some k) (hbest : f.keepBest = true) :
    (∀ m ∈ f.members, m.name ≠ k → ∀ orderId ∈ truth m.name,
      Pulled ((f.place market price answers).commits b) placement m orderId) ↔
    ∀ m ∈ f.members, m.name ≠ k → ∀ orderId ∈ truth m.name,
      Settled (f.outcomes b market price answers) answers m orderId := by
  constructor
  · intro h m hm hother orderId hid
    exact (f.pulled_iff hplace hkept hbest hm hother orderId).mp (h m hm hother orderId hid)
  · intro h m hm hother orderId hid
    exact (f.pulled_iff hplace hkept hbest hm hother orderId).mpr (h m hm hother orderId hid)

end Fleet

def pairFleet : Fleet where
  members :=
    [⟨{ pairExchange with entrySubmission := .soloUp }, 10, 0⟩,
      ⟨{ pairExchange with account := "second", entrySubmission := .soloUp }, 12, 10⟩]
  keepBest := true
  nonempty := by decide
  distinct := by decide

def upRegistered (account orderId : String) (registeredMs : ℤ) : MemberResult :=
  { account := account
    accepted := [⟨"up", orderId, 200, liveBody orderId⟩]
    errors := []
    ambiguous := []
    attempts := 1
    heldBack := 0
    registeredMs := some registeredMs
    gaveUp := false }

def upUnanswered : MemberResult :=
  { account := "second"
    accepted := []
    errors := []
    ambiguous := [.reply 0 ""]
    attempts := 1
    heldBack := 0
    registeredMs := none
    gaveUp := false }

def pairFleetAnswers (first second : MemberResult) : FleetAnswers where
  member _ := ⟨.ok fun _ => "signed", .ok (), .ok (), .ok (.object [])⟩
  knock := .ok ([first, second], none)
  stamps := none

/-- The venue holds what the replies registered, and more only for an account
with a send in doubt. -/
def Consistent (results : List MemberResult) (truth : String → List String) : Prop :=
  ∀ r ∈ results, (∀ a ∈ r.accepted, a.orderId ∈ truth r.account) ∧
    (r.ambiguous = [] → ∀ orderId ∈ truth r.account, ∃ a ∈ r.accepted, a.orderId = orderId)

def eachHoldsOne (account : String) : List String :=
  if account = "second" then ["0xb2"] else ["0xa1"]

def pairPlace (second : MemberResult) : Action FleetPlacement :=
  pairFleet.place pairMarket (1 / 10) (pairFleetAnswers (upRegistered "primary" "0xa1" 100) second)

theorem place_exposure_both : ∃ placement,
    (pairPlace (upRegistered "second" "0xb2" 200)).result (Bot.boot Database.empty) = .ok placement ∧
      ∀ m ∈ pairFleet.members, m.name ≠ "primary" → ∀ orderId ∈ eachHoldsOne m.name,
        Fleet.Pulled ((pairPlace (upRegistered "second" "0xb2" 200)).commits
          (Bot.boot Database.empty)) placement m orderId := by
  have hkept : ((pairPlace (upRegistered "second" "0xb2" 200)).result
      (Bot.boot Database.empty)).toOption.bind FleetPlacement.kept = some "primary" := by
    decide +kernel
  cases hplace : (pairPlace (upRegistered "second" "0xb2" 200)).result (Bot.boot Database.empty) with
  | error e => simp [hplace, Except.toOption] at hkept
  | ok placement =>
    rw [hplace] at hkept
    refine ⟨placement, rfl, ?_⟩
    refine (pairFleet.place_exposure _ _ _ _ placement "primary" eachHoldsOne hplace hkept rfl).mpr ?_
    intro m hm hother orderId hid
    have hsecond : m = pairFleet.members.get ⟨1, by decide⟩ := by
      rcases List.mem_cons.mp hm with rfl | hm
      · exact absurd rfl hother
      · exact List.mem_singleton.mp hm
    subst hsecond
    obtain rfl := List.mem_singleton.mp hid
    exact ⟨_, _, .tail _ (.head _), by decide, _, .head _, rfl, .inl rfl⟩

/-- The account whose send got no answer may hold an order that is neither
cancelled nor handed back. -/
theorem place_exposure_unanswered : ∃ placement,
    Consistent [upRegistered "primary" "0xa1" 100, upUnanswered] eachHoldsOne ∧
    (pairPlace upUnanswered).result (Bot.boot Database.empty) = .ok placement ∧
    placement.kept = some "primary" ∧
      ∃ m ∈ pairFleet.members, m.name ≠ "primary" ∧ ∃ orderId ∈ eachHoldsOne m.name,
        ¬ Fleet.Pulled ((pairPlace upUnanswered).commits (Bot.boot Database.empty)) placement m
          orderId := by
  have hplaced : ((pairPlace upUnanswered).result (Bot.boot Database.empty)).toOption.map
      (fun placement => (placement.kept, placement.orders.map PlacedOrder.account)) =
        some (some "primary", ["primary"]) := by
    decide +kernel
  cases hplace : (pairPlace upUnanswered).result (Bot.boot Database.empty) with
  | error e => simp [hplace, Except.toOption] at hplaced
  | ok placement =>
    rw [hplace] at hplaced
    obtain ⟨hkept, haccounts⟩ := Prod.mk.inj (Option.some.inj hplaced)
    refine ⟨placement, ?_, rfl, hkept, _, .tail _ (.head _), by decide, "0xb2", by decide, ?_⟩
    · unfold Consistent
      decide
    · rintro ⟨-, o, ho, -, haccount, -⟩
      have hmem : o.account ∈ placement.orders.map PlacedOrder.account := List.mem_map_of_mem ho
      rw [haccounts, haccount] at hmem
      exact absurd hmem (by decide)

end EventQuant
