import EventQuant.FleetChoice

/-!
Who settles what of a fleet's knock. Members drop out while signing and while
joining, and the library answers for those that are left, one result for each
in their order; every member ends with one placement, and one that was in the
knock with what its own entry and its own result came to.
-/
namespace EventQuant

open Program
open Knock (MemberResult)

/-- A knock answers for the plan's members in the plan's order. -/
theorem Knock.World.Reachable.accounts {plan : Knock.Plan} {w : Knock.World}
    (h : Knock.World.Reachable plan w) :
    w.run.result.map MemberResult.account = plan.members.map Knock.Member.account := by
  rw [← h.plans]
  unfold Knock.World.run Knock.RunState.result
  simp only [List.map_map]
  rfl

namespace Fleet

variable (f : Fleet) {market : Market} {price : ℚ} {answers : FleetAnswers}

def knocking (joined : List (FleetMember × (Entry ⊕ MemberPlacement))) : List String :=
  (joined.filter fun p => p.2.isLeft).map fun p => p.1.name

/-- What a member comes to the knock with: the entry of the bodies it signed
before, or signs now, or the placement it sits the knock out with. -/
def prepared (b : Bot) (market : Market) (price : ℚ) (answers : FleetAnswers) (m : FleetMember) :
    Entry ⊕ MemberPlacement :=
  match m.exchange.prepared market price m.size
      (b.submissions.lookup (m.name, submissionKey market price m.size))
      (answers.member m.name).sign with
  | .ok (.inl entry) => .inl entry
  | .ok (.inr result) => .inr ⟨m.name, some result, none⟩
  | .error e => .inr ⟨m.name, none, some e.text⟩

def settled (answers : FleetAnswers) (m : FleetMember) (entry : Entry) (outcome : MemberResult) :
    MemberPlacement :=
  match m.exchange.settled entry outcome (answers.member m.name).cancelIncomplete with
  | .ok result => ⟨m.name, some result, none⟩
  | .error e => ⟨m.name, none, some e.text⟩

/-- The stages a member's placement comes from: it had no part in the knock, the
knock failed, or it settled the one result under its name. -/
inductive Ended (b : Bot) (market : Market) (price : ℚ) (answers : FleetAnswers) (m : FleetMember) :
    MemberPlacement → Prop
  | unprepared (p : MemberPlacement) (hprepared : prepared b market price answers m = .inr p) :
      Ended b market price answers m p
  | unjoined (entry : Entry) (e : Exn) (hprepared : prepared b market price answers m = .inl entry)
      (hjoin : (answers.member m.name).join = .error e) :
      Ended b market price answers m ⟨m.name, none, some e.text⟩
  | unknocked (entry : Entry) (e : Exn) (hprepared : prepared b market price answers m = .inl entry)
      (hjoin : (answers.member m.name).join = .ok ()) (hknock : answers.knock = .error e) :
      Ended b market price answers m ⟨m.name, none, some e.text⟩
  | settled (entry : Entry) (results : List MemberResult) (seen : Option PreviewSeen)
      (outcome : MemberResult) (hprepared : prepared b market price answers m = .inl entry)
      (hjoin : (answers.member m.name).join = .ok ()) (hknock : answers.knock = .ok (results, seen))
      (hown : (results.filter fun result => result.account = m.name) = [outcome]) :
      Ended b market price answers m (settled answers m entry outcome)

theorem prepare_result (m : FleetMember) (t : Bot) :
    (prepare market price answers m).result t = .ok (prepared t market price answers m) := by
  have hsigned : (m.exchange.prepareEntry market price m.size (answers.member m.name).sign).result t =
      m.exchange.prepared market price m.size
        (t.submissions.lookup (m.name, submissionKey market price m.size))
        (answers.member m.name).sign := m.exchange.prepareEntry_result _ _ _ _ _
  unfold prepare prepared
  rw [result_handle_return, bind_eq, result_andThen, hsigned]
  generalize m.exchange.prepared market price m.size _ (answers.member m.name).sign = signed
  rcases signed with e | (entry | result) <;> rfl

/-- Another member's signing leaves the bodies it is prepared from. -/
theorem prepared_after {m m' : FleetMember} (hname : m.name ≠ m'.name) (t : Bot) :
    prepared ((prepare market price answers m).after t) market price answers m' =
      prepared t market price answers m' := by
  have hsigns : Emits (fun e => ∃ key bodies, e = Effect.sign m.name key bodies)
      (prepare market price answers m) := by
    refine emits_handle (emits_andThen (m.exchange.prepareEntry_emits _ _ _ _) fun prepared => ?_)
      fun _ => emits_return _
    cases prepared <;> exact emits_return _
  have hkept := Store.Each.preserves
      (fun u : Bot => u.submissions.lookup (m'.name, submissionKey market price m'.size) =
        t.submissions.lookup (m'.name, submissionKey market price m'.size))
      (by
        rintro u _ ⟨key, bodies, rfl⟩ hu
        exact (AList.lookup_insert_ne (by simp [Ne.symm hname])).trans hu)
      (hsigns.each (fun _ he _ => he) t) rfl
  unfold prepared after
  rw [hkept]

theorem settleMember_result (m : FleetMember) (entry : Entry) (outcome : MemberResult) (t : Bot) :
    (settleMember answers m entry outcome).result t = .ok (settled answers m entry outcome) := by
  unfold settleMember settled
  rw [result_handle_return, bind_eq, result_andThen, m.exchange.settleEntry_result]
  cases m.exchange.settled entry outcome (answers.member m.name).cancelIncomplete <;> rfl

theorem handOver_result (joined : List (FleetMember × (Entry ⊕ MemberPlacement))) (t : Bot) :
    (handOver market joined).result t = .ok () := by
  refine forEach_returns fun p _ u => ?_
  cases p.2 <;> rfl

/-- Every member comes to the knock with what it signed, however the members
before it fared. -/
theorem prepare_all (b : Bot) : (collect f.members (prepare market price answers)).result b =
    .ok (f.members.map (prepared b market price answers)) := by
  refine collect_result (fun m t => prepared t market price answers m = prepared b market price answers m)
    (fun m t hm => hm ▸ prepare_result m t) ?_ fun _ _ => rfl
  exact (List.pairwise_map.mp f.distinct).imp fun hname t hm => (prepared_after hname t).trans hm

/-- What each member has when the knock begins. -/
theorem joined_map (g : FleetMember → Entry ⊕ MemberPlacement) :
    f.joined answers (f.members.map g) = f.members.map fun m => (m, join answers m (g m)) := by
  unfold joined
  induction f.members with
  | nil => rfl
  | cons m members ih => rw [List.map_cons, List.zipWith_cons_cons, List.zip_cons_cons, ih, List.map_cons]

/-- The result under a name, where the results are under different ones. -/
theorem own_result {results : List MemberResult} (h : (results.map MemberResult.account).Nodup)
    {outcome : MemberResult} (hmem : outcome ∈ results) {name : String} (hown : outcome.account = name) :
    (results.filter fun result => result.account = name) = [outcome] := by
  induction results with
  | nil => exact absurd hmem List.not_mem_nil
  | cons first results ih =>
    obtain ⟨hfirst, hlater⟩ := List.nodup_cons.mp h
    rcases List.mem_cons.mp hmem with rfl | hmem
    · rw [List.filter_cons_of_pos (by simpa using hown), List.filter_eq_nil_iff.mpr]
      intro result hresult hsame
      exact hfirst (List.mem_map.mpr ⟨result, hresult, (of_decide_eq_true hsame).trans hown.symm⟩)
    · rw [List.filter_cons_of_neg, ih hlater hmem]
      intro hsame
      have hsame := (of_decide_eq_true hsame).trans hown.symm
      exact hfirst (List.mem_map.mpr ⟨outcome, hmem, hsame.symm⟩)

/-- A member out of the knock keeps what it ended with; one in it settles its
entry with the one of these results under its name. -/
def Wired (answers : FleetAnswers) (results : List MemberResult)
    (p : FleetMember × (Entry ⊕ MemberPlacement)) (placement : MemberPlacement) : Prop :=
  match p.2 with
  | .inr ended => placement = ended
  | .inl entry => ∃ outcome, outcome ∈ results ∧ outcome.account = p.1.name ∧
      placement = settled answers p.1 entry outcome

theorem Wired.mono {results results' : List MemberResult} {p : FleetMember × (Entry ⊕ MemberPlacement)}
    {placement : MemberPlacement} (h : Wired answers results p placement)
    (hresults : results ⊆ results') : Wired answers results' p placement := by
  obtain ⟨m, prepared⟩ := p
  cases prepared with
  | inr ended => exact h
  | inl entry =>
    obtain ⟨outcome, houtcome, hown, hsettled⟩ := h
    exact ⟨outcome, hresults houtcome, hown, hsettled⟩

variable (answers) in
/-- With one result for each member of the knock, in their order, every member
settles what is its own. -/
theorem settleMembers_wired (joined : List (FleetMember × (Entry ⊕ MemberPlacement)))
    (results : List MemberResult) (h : results.map MemberResult.account = knocking joined) (t : Bot) :
    ∃ placements, (settleMembers answers joined results).result t = .ok placements ∧
      List.Forall₂ (Wired answers results) joined placements := by
  fun_induction settleMembers answers joined results generalizing t with
  | case1 => exact ⟨[], rfl, .nil⟩
  | case2 outcome results => cases h
  | case3 m placement rest results ih =>
    obtain ⟨placements, hrest, hwired⟩ := ih h t
    simp only [bind_eq]
    rw [result_andThen_ok hrest]
    exact ⟨placement :: placements, rfl, .cons rfl hwired⟩
  | case4 => cases h
  | case5 m entry rest outcome results ih =>
    obtain ⟨hown, hlater⟩ := List.cons.inj h
    obtain ⟨placements, hrest, hwired⟩ := ih hlater ((settleMember answers m entry outcome).after t)
    simp only [bind_eq]
    rw [result_andThen_ok (settleMember_result m entry outcome t), result_andThen_ok hrest]
    refine ⟨_ :: placements, rfl, .cons ?_ (hwired.imp fun _ _ hw => ?_)⟩
    · exact ⟨outcome, List.mem_cons_self, hown, rfl⟩
    · exact hw.mono (List.subset_cons_self _ _)

theorem prepared_member {b : Bot} {m : FleetMember} {p : MemberPlacement}
    (h : prepared b market price answers m = .inr p) : p.member = m.name := by
  unfold prepared at h
  split at h
  · cases h
  · rw [← Sum.inr.inj h]
  · rw [← Sum.inr.inj h]

theorem settled_member (m : FleetMember) (entry : Entry) (outcome : MemberResult) :
    (settled answers m entry outcome).member = m.name := by
  unfold settled
  split <;> rfl

/-- Whatever stage it comes from, a member's placement is under its name. -/
theorem Ended.member {b : Bot} {m : FleetMember} {p : MemberPlacement}
    (h : Ended b market price answers m p) : p.member = m.name := by
  cases h with
  | unprepared _ hprepared => exact prepared_member hprepared
  | unjoined entry e => rfl
  | unknocked entry e => rfl
  | settled entry results seen outcome => exact settled_member m entry outcome

theorem ended_of_wired {b : Bot} {results : List MemberResult}
    (hdistinct : (results.map MemberResult.account).Nodup)
    (hknock : ∀ outcome ∈ results, ∃ seen, answers.knock = .ok (results, seen)) {m : FleetMember}
    {p : MemberPlacement}
    (h : Wired answers results (m, join answers m (prepared b market price answers m)) p) :
    Ended b market price answers m p := by
  cases hprepared : prepared b market price answers m with
  | inr ended =>
    rw [hprepared] at h
    obtain rfl : p = ended := h
    exact .unprepared p hprepared
  | inl entry =>
    rw [hprepared] at h
    unfold join at h
    simp only at h
    cases hjoin : (answers.member m.name).join with
    | error e =>
      rw [hjoin] at h
      obtain rfl : p = ⟨m.name, none, some e.text⟩ := h
      exact .unjoined entry e hprepared hjoin
    | ok _ =>
      rw [hjoin] at h
      obtain ⟨outcome, houtcome, hown, rfl⟩ := h
      obtain ⟨seen, hknock⟩ := hknock outcome houtcome
      exact .settled entry results seen outcome hprepared hjoin hknock
        (own_result hdistinct houtcome hown)

theorem ended_of_failed {b : Bot} {e : Exn} (hknock : answers.knock = .error e) (m : FleetMember) :
    Ended b market price answers m
      (failed e (m, join answers m (prepared b market price answers m))) := by
  cases hprepared : prepared b market price answers m with
  | inr ended => exact .unprepared ended hprepared
  | inl entry =>
    unfold join
    cases hjoin : (answers.member m.name).join with
    | error e' => exact .unjoined entry e' hprepared hjoin
    | ok _ => exact .unknocked entry e hprepared hjoin hknock

def Answers (market : Market) (price : ℚ) (answers : FleetAnswers) (b : Bot) : Prop :=
  ∀ results seen, answers.knock = .ok (results, seen) → results.map MemberResult.account =
    knocking (f.joined answers (f.members.map (prepared b market price answers)))

variable (answers) in
theorem knocking_nodup (g : FleetMember → Entry ⊕ MemberPlacement) :
    (knocking (f.joined answers (f.members.map g))).Nodup := by
  refine List.Nodup.sublist ((List.filter_sublist).map _) ?_
  rw [joined_map, List.map_map]
  exact f.distinct

theorem knockMembers_ended (b : Bot) (h : f.Answers market price answers b) :
    ∃ placements seen, (f.knockMembers market price answers).result b = .ok (placements, seen) ∧
      List.Forall₂ (Ended b market price answers) f.members placements := by
  have hended : ∀ results placements, (results.map MemberResult.account).Nodup →
      (∀ outcome ∈ results, ∃ seen, answers.knock = .ok (results, seen)) →
      List.Forall₂ (Wired answers results)
        (f.joined answers (f.members.map (prepared b market price answers))) placements →
      List.Forall₂ (Ended b market price answers) f.members placements := by
    intro results placements hdistinct hknock hwired
    rw [joined_map, List.forall₂_map_left_iff] at hwired
    exact hwired.imp fun _ _ => ended_of_wired hdistinct hknock
  have hdistinct := f.knocking_nodup answers (prepared b market price answers)
  unfold knockMembers
  simp only [bind_eq]
  rw [result_andThen_ok (f.prepare_all b)]
  generalize (collect f.members (prepare market price answers)).after b = t
  split
  · rw [result_andThen_ok (handOver_result _ t)]
    cases hknock : answers.knock with
    | error e =>
      refine ⟨_, none, rfl, ?_⟩
      rw [joined_map, List.map_map, List.forall₂_map_right_iff]
      exact List.forall₂_same.mpr fun m _ => ended_of_failed hknock m
    | ok knocked =>
      obtain ⟨results, seen⟩ := knocked
      have hresults := h results seen hknock
      obtain ⟨placements, hsettled, hwired⟩ := settleMembers_wired answers _ results
        hresults ((handOver market _).after t)
      simp only
      rw [result_andThen_ok hsettled]
      exact ⟨placements, seen, rfl,
        hended results placements (hresults ▸ hdistinct) (fun _ _ => ⟨seen, hknock⟩) hwired⟩
  · rename_i hnone
    have hnobody : knocking (f.joined answers (f.members.map (prepared b market price answers))) = [] := by
      unfold knocking
      rw [List.map_eq_nil_iff, List.filter_eq_nil_iff]
      intro p hp hleft
      exact hnone (List.any_eq_true.mpr ⟨p, hp, hleft⟩)
    obtain ⟨placements, hsettled, hwired⟩ := settleMembers_wired answers _ []
      hnobody.symm t
    rw [result_andThen_ok hsettled]
    exact ⟨placements, none, rfl, hended [] placements List.nodup_nil
      (fun _ houtcome => absurd houtcome List.not_mem_nil) hwired⟩

/-- Whatever becomes of its members on the way, a fleet's placement has one part
for each of them in their order, and each one of the knock settled its own
entry with its own result. The placement itself is handed back where the
laggards' cancels can be read. -/
theorem place_wired (f : Fleet) (market : Market) (price : ℚ) (answers : FleetAnswers) (b : Bot)
    (h : f.Answers market price answers b) :
    ∃ placements seen, (f.knockMembers market price answers).result b = .ok (placements, seen) ∧
      placements.map MemberPlacement.member = f.members.map FleetMember.name ∧
      List.Forall₂ (Ended b market price answers) f.members placements ∧
      (f.Readable answers → ∃ placement, (f.place market price answers).result b = .ok placement ∧
        placement.placements = placements) := by
  obtain ⟨placements, seen, hknocked, hended⟩ := f.knockMembers_ended b h
  have hmembers : placements.map MemberPlacement.member = f.members.map FleetMember.name :=
    Results.map_of_forall₂ hended fun _ _ hp => hp.member
  refine ⟨placements, seen, hknocked, hmembers, hended, fun hread => ?_⟩
  obtain ⟨parts, hparts, -, -⟩ := collect_steady
    (s := (f.knockMembers market price answers).after b) (fun _ _ => True)
    (f.laggardCancels (choose placements answers).1) fun p hp t => by
      have hname : p.member ∈ f.members.map FleetMember.name := hmembers ▸ List.mem_map_of_mem hp
      obtain ⟨m, hm, hname⟩ := List.mem_map.mp hname
      obtain ⟨part, hpart, hcommits, -⟩ := f.settlePlacement_sends
        hm hname hread t
      exact ⟨part, hpart, hcommits, trivial⟩
  unfold place settle
  simp only [bind_eq]
  rw [result_andThen_ok hknocked]
  simp only
  rw [result_andThen_ok (result_andThen_ok hparts)]
  exact ⟨_, rfl, rfl⟩

end Fleet

def unjoinedAnswers : FleetAnswers where
  member name := ⟨.ok fun _ => "signed",
    if name = "primary" then .error (.other "RuntimeError" "no API credentials") else .ok (), .ok (),
    .ok (.object [])⟩
  knock := .ok ([upRegistered "second" "0xb2" 200], none)
  stamps := none

theorem place_wired_unjoined : ∃ placements seen,
    (pairFleet.knockMembers pairMarket (1 / 10) unjoinedAnswers).result (Bot.boot Database.empty) =
      .ok (placements, seen) ∧
    placements.map MemberPlacement.member = ["primary", "second"] ∧
    List.Forall₂ (Fleet.Ended (Bot.boot Database.empty) pairMarket (1 / 10) unjoinedAnswers)
      pairFleet.members placements ∧
    ∃ placement, (pairFleet.place pairMarket (1 / 10) unjoinedAnswers).result
      (Bot.boot Database.empty) = .ok placement ∧ placement.placements = placements := by
  have hknocking : Fleet.knocking (pairFleet.joined unjoinedAnswers (pairFleet.members.map
      (Fleet.prepared (Bot.boot Database.empty) pairMarket (1 / 10) unjoinedAnswers))) = ["second"] := by
    decide +kernel
  have hanswers : pairFleet.Answers pairMarket (1 / 10) unjoinedAnswers (Bot.boot Database.empty) := by
    intro results seen hknock
    obtain ⟨rfl, -⟩ := Prod.mk.inj (Except.ok.inj hknock)
    exact hknocking.symm
  have hreadable : pairFleet.Readable unjoinedAnswers := by
    intro m _ result hresult
    obtain rfl := Except.ok.inj hresult
    exact fun fields hfields canceled hlookup => by
      obtain rfl := Python.Value.object.inj hfields
      cases hlookup
  obtain ⟨placements, seen, hknocked, hmembers, hended, hplaced⟩ :=
    pairFleet.place_wired pairMarket (1 / 10) unjoinedAnswers (Bot.boot Database.empty) hanswers
  exact ⟨placements, seen, hknocked, hmembers, hended, hplaced hreadable⟩

end EventQuant
