import EventQuant.FleetWiring

/-!
What a fleet's placement hands over to be written down, from what its members
signed and were answered: each member's orders at its own size, a laggard's by
what its cancel's answer names.
-/
namespace EventQuant

open Program Python
open Knock (MemberResult)

namespace Fleet

variable (f : Fleet) {market : Market} {price : ℚ} {answers : FleetAnswers}

def recordedOrders (answers : FleetAnswers) (placements : List MemberPlacement) : List PlacedOrder :=
  (placements.map fun p =>
    (ordersOf p).map (f.recorded (choose placements answers).1 answers p)).flatten

/-- The members in their order, those in the knock with its results in turn;
none where there is not one result for each. -/
def memberParts (answers : FleetAnswers) :
    List (FleetMember × (Entry ⊕ MemberPlacement)) → List MemberResult →
      Option (List MemberPlacement)
  | [], [] => some []
  | [], _ :: _ => none
  | (_, .inr placement) :: rest, results =>
    (memberParts answers rest results).map fun parts => placement :: parts
  | (_, .inl _) :: _, [] => none
  | (m, .inl entry) :: rest, outcome :: results =>
    (memberParts answers rest results).map fun parts => settled answers m entry outcome :: parts

def knocked (b : Bot) (market : Market) (price : ℚ) (answers : FleetAnswers) :
    Option (List MemberPlacement) :=
  let joined := f.joined answers (f.members.map (prepared b market price answers))
  if joined.any fun p => p.2.isLeft then
    match answers.knock with
    | .error e => some (joined.map (failed e))
    | .ok (results, _) => memberParts answers joined results
  else memberParts answers joined []

/-- The placement's orders stay as they are, or what its cancel answered can be
read. -/
def readable (kept : Option String) (answers : FleetAnswers) (p : MemberPlacement) : Bool :=
  decide (ordersOf p = []) || !f.laggard kept p ||
    match f.laggardCancel answers p.member with
    | .error _ => true
    | .ok (codec, result) => (cancelOutcome codec result).isOk

def handedBack (b : Bot) (market : Market) (price : ℚ) (answers : FleetAnswers) :
    Option (List MemberPlacement) :=
  (f.knocked b market price answers).filter fun placements =>
    placements.all (f.readable (choose placements answers).1 answers)

def placedOrders (b : Bot) (market : Market) (price : ℚ) (answers : FleetAnswers) :
    List PlacedOrder :=
  ((f.handedBack b market price answers).map (f.recordedOrders answers)).getD []

def givenUp (b : Bot) (market : Market) (price : ℚ) (answers : FleetAnswers) : List String :=
  ((f.handedBack b market price answers).map fun placements =>
    (placements.filter (f.laggard (choose placements answers).1)).flatMap fun p =>
      (ordersOf p).map PlacedOrder.orderId).getD []

theorem settleMembers_result (joined : List (FleetMember × (Entry ⊕ MemberPlacement)))
    (results : List MemberResult) (t : Bot) :
    ((settleMembers answers joined results).result t).toOption = memberParts answers joined results := by
  fun_induction settleMembers answers joined results generalizing t with
  | case1 => rfl
  | case2 outcome results => rfl
  | case3 m placement rest results ih =>
    simp only [bind_eq, result_andThen, memberParts, ← ih t]
    cases (settleMembers answers rest results).result t <;> rfl
  | case4 => rfl
  | case5 m entry rest outcome results ih =>
    simp only [bind_eq, memberParts]
    rw [result_andThen_ok (settleMember_result m entry outcome t), result_andThen,
      ← ih ((settleMember answers m entry outcome).after t)]
    cases (settleMembers answers rest results).result _ <;> rfl

theorem knockMembers_result (b : Bot) :
    ((f.knockMembers market price answers).result b).toOption.map Prod.fst =
      f.knocked b market price answers := by
  unfold knockMembers knocked
  simp only [bind_eq]
  rw [result_andThen_ok (f.prepare_all b)]
  generalize (collect f.members (prepare market price answers)).after b = t
  split
  · rw [result_andThen_ok (handOver_result _ t)]
    rcases answers.knock with e | ⟨results, seen⟩
    · rfl
    · simp only
      rw [result_andThen, ← settleMembers_result]
      cases (settleMembers answers _ results).result _ <;> rfl
  · rw [result_andThen, ← settleMembers_result]
    cases (settleMembers answers _ []).result t <;> rfl

theorem settlePlacement_isOk (kept : Option String) (answers : FleetAnswers) (p : MemberPlacement)
    (t : Bot) : ((f.settlePlacement kept answers p).result t).isOk = f.readable kept answers p := by
  unfold readable
  by_cases hkept : ordersOf p = [] ∨ f.laggard kept p = false
  · rw [(f.settlePlacement_kept hkept answers t).1]
    rcases hkept with hnone | hstays
    · simp [hnone, Except.isOk, Except.toBool]
    · simp [hstays, Except.isOk, Except.toBool]
  · rw [not_or, Bool.not_eq_false] at hkept
    rw [(f.settlePlacement_pulled hkept.1 hkept.2 answers t).1, decide_eq_false hkept.1, hkept.2]
    unfold laggardPart
    cases f.laggardCancel answers p.member with
    | error e => rfl
    | ok called =>
      obtain ⟨codec, result⟩ := called
      simp only
      cases cancelOutcome codec result <;> rfl

variable (market price answers) in
/-- The fleet's placement is handed back as its members and their answers have
it. -/
theorem place_handsBack (b : Bot) :
    ((f.place market price answers).result b).toOption.map FleetPlacement.placements =
      f.handedBack b market price answers := by
  unfold place handedBack
  rw [← f.knockMembers_result b, bind_eq, result_andThen]
  cases hknocked : (f.knockMembers market price answers).result b with
  | error e => rfl
  | ok knocked =>
    obtain ⟨placements, seen⟩ := knocked
    have hparts := collect_isOk placements
      (f.settlePlacement_isOk (choose placements answers).1 answers)
      ((f.knockMembers market price answers).after b)
    simp only [Except.toOption, Option.map_some, Option.filter_some, ← hparts]
    unfold settle
    simp only [Except.bind, bind_eq, result_andThen]
    cases (collect placements (f.settlePlacement (choose placements answers).1 answers)).result _ with
    | error e => rfl
    | ok parts => rfl

theorem place_handedBack {b : Bot} {placement : FleetPlacement}
    (h : (f.place market price answers).result b = .ok placement) :
    f.handedBack b market price answers = some placement.placements := by
  rw [← f.place_handsBack market price answers b, h]
  rfl

theorem place_kept {f : Fleet} {b : Bot} {placement : FleetPlacement}
    (h : (f.place market price answers).result b = .ok placement) :
    placement.kept = (choose placement.placements answers).1 := by
  obtain ⟨⟨placements, seen⟩, -, hrest⟩ := andThen_returned h
  obtain ⟨settled, -, hreturn⟩ := andThen_returned hrest
  obtain rfl := Except.ok.inj hreturn
  rfl

/-- A fleet's placement hands back its members' orders as they are recorded. -/
theorem place_recorded {b : Bot} {placement : FleetPlacement}
    (h : (f.place market price answers).result b = .ok placement) :
    placement.orders = f.recordedOrders answers placement.placements := by
  obtain ⟨-, -, parts, horders, hparts⟩ := f.place_ran h
  rw [horders]
  unfold recordedOrders
  rw [← place_kept h]
  congr 1
  refine Results.map_of_forall₂ hparts fun p part hran => ?_
  exact (f.settlePlacement_ran _ answers p part _ hran).1

/-- A member's part is under its name. -/
theorem memberParts_member {joined : List (FleetMember × (Entry ⊕ MemberPlacement))}
    {results : List MemberResult} {parts : List MemberPlacement}
    (hnames : ∀ m placement, (m, .inr placement) ∈ joined → placement.member = m.name)
    (h : memberParts answers joined results = some parts) :
    parts.map MemberPlacement.member = joined.map fun p => p.1.name := by
  fun_induction memberParts answers joined results generalizing parts with
  | case1 =>
    obtain rfl := Option.some.inj h
    rfl
  | case2 => exact nomatch h
  | case3 m placement rest results ih =>
    obtain ⟨later, hlater, rfl⟩ := Option.map_eq_some_iff.mp h
    rw [List.map_cons, List.map_cons, hnames m placement List.mem_cons_self,
      ih (fun m' placement' hmem => hnames m' placement' (List.mem_cons_of_mem _ hmem)) hlater]
  | case4 => exact nomatch h
  | case5 m entry rest outcome results ih =>
    obtain ⟨later, hlater, rfl⟩ := Option.map_eq_some_iff.mp h
    rw [List.map_cons, List.map_cons, settled_member m entry outcome,
      ih (fun m' placement' hmem => hnames m' placement' (List.mem_cons_of_mem _ hmem)) hlater]

theorem join_member {b : Bot} {m : FleetMember} {p : MemberPlacement}
    (h : join answers m (prepared b market price answers m) = .inr p) : p.member = m.name := by
  cases hprepared : prepared b market price answers m with
  | inr placement =>
    rw [hprepared] at h
    obtain rfl := Sum.inr.inj h
    exact prepared_member hprepared
  | inl entry =>
    rw [hprepared] at h
    unfold join at h
    simp only at h
    split at h
    · rw [← Sum.inr.inj h]
    · exact nomatch h

/-- A member's part of the fleet's placement is one of its members'. -/
theorem knocked_member {b : Bot} {placements : List MemberPlacement}
    (h : f.knocked b market price answers = some placements) {p : MemberPlacement}
    (hp : p ∈ placements) : ∃ m ∈ f.members, m.name = p.member := by
  have hnames : ∀ m placement,
      (m, .inr placement) ∈ f.joined answers (f.members.map (prepared b market price answers)) →
        placement.member = m.name := by
    intro m placement hmem
    rw [joined_map] at hmem
    obtain ⟨m', -, heq⟩ := List.mem_map.mp hmem
    obtain ⟨rfl, hjoin⟩ := Prod.mk.inj heq
    exact join_member hjoin
  have hjoined : (f.joined answers (f.members.map (prepared b market price answers))).map
      (fun p => p.1.name) = f.members.map FleetMember.name := by
    rw [joined_map, List.map_map]
    rfl
  have hmembers : placements.map MemberPlacement.member = f.members.map FleetMember.name := by
    unfold knocked at h
    simp only at h
    split at h
    · split at h
      · obtain rfl := Option.some.inj h
        rw [← hjoined, List.map_map]
        refine List.map_congr_left fun q hq => ?_
        obtain ⟨m, part⟩ := q
        cases part with
        | inr placement => exact hnames m placement hq
        | inl entry => rfl
      · exact (memberParts_member hnames h).trans hjoined
    · exact (memberParts_member hnames h).trans hjoined
  have hname := hmembers ▸ List.mem_map_of_mem hp
  exact List.mem_map.mp hname

/-- The orders given up are each asked to be cancelled. -/
theorem givenUp_sent {b : Bot} {orderId : String} (h : orderId ∈ f.givenUp b market price answers) :
    ∃ account orderIds, .cancel account orderIds ∈ (f.place market price answers).commits b ∧
      orderId ∈ orderIds := by
  unfold givenUp at h
  cases hback : f.handedBack b market price answers with
  | none => simp [hback] at h
  | some placements =>
    rw [hback, Option.map_some, Option.getD_some] at h
    obtain ⟨p, hp, hid⟩ := List.mem_flatMap.mp h
    obtain ⟨hp, hlaggard⟩ := List.mem_filter.mp hp
    have hplaced := f.place_handsBack market price answers b
    cases hresult : (f.place market price answers).result b with
    | error e => simp [hresult, hback, Except.toOption] at hplaced
    | ok placement =>
      simp only [hresult, hback, Except.toOption, Option.map_some, Option.some.injEq] at hplaced
      obtain ⟨-, -, parts, -, hparts⟩ := f.place_ran hresult
      obtain ⟨part, -, hran⟩ := Results.exists_right hparts (hplaced ▸ hp)
      have hkept : placement.kept = (choose placements answers).1 := hplaced ▸ place_kept hresult
      have hsome : ordersOf p ≠ [] := fun hnone => by simp [hnone] at hid
      obtain ⟨hsent, -⟩ := (f.settlePlacement_ran _ answers p part _ hran).2 (hkept ▸ hlaggard) hsome
      have hknocked : f.knocked b market price answers = some placements :=
        (Option.filter_eq_some_iff.mp hback).1
      obtain ⟨m, hm, hname⟩ := f.knocked_member hknocked hp
      exact ⟨m.name, _, hsent m (hname ▸ f.member_of_mem hm), hid⟩

theorem place_orders {b : Bot} {placement : FleetPlacement}
    (h : (f.place market price answers).result b = .ok placement) :
    placement.orders = f.placedOrders b market price answers := by
  unfold placedOrders
  rw [f.place_handedBack h, Option.map_some, Option.getD_some]
  exact f.place_recorded h

end Fleet

end EventQuant
