import EventQuant.Service.SignedOrders

/-!
What a fleet's placement signs and hands over. Its members prepare one after
the other, and no member's signing touches another's orders; a member that
was in the knock is not to be placed again, so a placement that is to be tried
again dropped nothing.
-/
namespace EventQuant

open Program Store
open Knock (MemberResult)

namespace Service

variable {s : Service} {l : Listing} {market : Market} {f : Fleet}

theorem settleEntry_final {x : Exchange} {entry : Entry} {outcome : MemberResult}
    {cancel : Except Exn Unit} {b : Bot} {r : PlacementResult}
    (h : (x.settleEntry entry outcome cancel).result b = .ok r) : r.retryable = false := by
  obtain ⟨accepted, -, h⟩ := andThen_returned h
  simp only at h
  split_ifs at h
  · simp at h
  · rw [x.finalizeDualResult_returned _ _ _ _ _ h]
    exact entryResult_final x entry outcome accepted

/-- A member of the knock is not to be placed again. -/
theorem settleMember_final {answers : FleetAnswers} {m : FleetMember} {entry : Entry}
    {outcome : MemberResult} {b : Bot} {p : MemberPlacement}
    (h : (Fleet.settleMember answers m entry outcome).result b = .ok p) :
    (p.result.any fun r => r.retryable && r.orders.isEmpty) = false := by
  rcases handle_returned h with ⟨h, -⟩ | ⟨e, -, h⟩
  · obtain ⟨r, hr, h⟩ := andThen_returned h
    obtain rfl : _ = p := Except.ok.inj h
    simp [settleEntry_final hr]
  · obtain rfl : _ = p := Except.ok.inj h
    rfl

theorem settleMembers_final {answers : FleetAnswers}
    {joined : List (FleetMember × (Entry ⊕ MemberPlacement))} {results : List MemberResult}
    {b : Bot} {placements : List MemberPlacement}
    (h : (Fleet.settleMembers answers joined results).result b = .ok placements)
    (hany : (joined.any fun p => p.2.isLeft) = true) :
    (placements.all fun m => m.result.any fun r => r.retryable && r.orders.isEmpty) = false := by
  fun_induction Fleet.settleMembers answers joined results generalizing b placements with
  | case1 => cases hany
  | case2 => cases hany
  | case3 m placement rest results ih =>
    obtain ⟨placements', hrest, h⟩ := andThen_returned h
    obtain rfl : placement :: placements' = placements := Except.ok.inj h
    rw [List.all_cons, ih hrest (by simpa using hany), Bool.and_false]
  | case4 => simp at h
  | case5 m entry rest outcome results ih =>
    obtain ⟨placement, hplacement, h⟩ := andThen_returned h
    obtain ⟨placements', -, h⟩ := andThen_returned h
    obtain rfl : placement :: placements' = placements := Except.ok.inj h
    rw [List.all_cons, settleMember_final hplacement, Bool.false_and]

/-- With nobody in the knock there is nothing to settle. -/
theorem settleMembers_nobody (answers : FleetAnswers)
    (joined : List (FleetMember × (Entry ⊕ MemberPlacement))) (results : List MemberResult)
    (hnone : ¬ (joined.any fun p => p.2.isLeft) = true) :
    Emits Effect.Cancels (Fleet.settleMembers answers joined results) := by
  fun_induction Fleet.settleMembers answers joined results with
  | case1 => exact emits_return _
  | case2 => exact emits_raise _
  | case3 m placement rest results ih =>
    exact emits_andThen (ih (by simpa using hnone)) fun _ => emits_return _
  | case4 => exact emits_raise _
  | case5 => exact absurd rfl hnone

theorem cancels_ready {α : Type} {a : Action α} (h : Emits Effect.Cancels a) {b : Bot}
    (hb : s.Ready l market.slug b) :
    Safe (s.SignedOnce l) a (fun _ => s.Ready l market.slug) (fun _ => s.Ready l market.slug) b :=
  h.safe _ (fun _ he _ ht =>
    ⟨signedOnce_settles (he.settles market) _, ht.cancel he⟩) hb

def Joins (s : Service) (l : Listing) (slug : String) (m : FleetMember)
    (p : Entry ⊕ MemberPlacement) (t : Bot) : Prop :=
  ∀ entry, p = .inl entry → s.Carries l m.name slug entry t

theorem entrySize_member (hfleet : s.fleet = some f) {m : FleetMember} (hm : m ∈ f.members) :
    s.entrySize m.name = m.size := by
  unfold entrySize
  rw [hfleet]
  simp only [f.member_of_mem hm]

theorem prepare_signs (hfleet : s.fleet = some f) (hlisted : l.Lists market)
    (answers : FleetAnswers) {m : FleetMember} (hm : m ∈ f.members) {b : Bot}
    (hb : s.Ready l market.slug b) :
    Safe (s.SignedOnce l) (Fleet.prepare market s.plan.buyPrice answers m)
      (fun p => s.Prepared l market m.name b p.getLeft?) (fun _ _ => True) b := by
  have hmode := s.fleetMode f (by simp [hfleet]) m hm
  have hkey := entryKey_listed (s := s) hlisted (entrySize_member hfleet hm)
  refine safe_handle (safe_andThen (s.prepareEntry_signs l market hmode hkey _ hb)
    fun p t ht => ?_) fun e t ht => safe_return _ ht
  cases p with
  | inl entry => exact safe_return _ ht
  | inr result => exact safe_return _ ht

/-- All members prepared: each with an entry holds its own orders. -/
theorem prepareAll_signs (hfleet : s.fleet = some f) (hlisted : l.Lists market)
    (answers : FleetAnswers) {b : Bot} (hb : s.Ready l market.slug b) :
    Safe (s.SignedOnce l) (collect f.members (Fleet.prepare market s.plan.buyPrice answers))
      (fun ps t => s.Ready l market.slug t ∧
        List.Forall₂ (fun m p => Joins s l market.slug m p t) f.members ps) (fun _ _ => True) b := by
  refine (safe_collect (s.Ready l market.slug) (Joins s l market.slug) ?_ hb).mono
    (fun _ _ h => ⟨h.1, h.2.1⟩) fun _ _ h => h
  intro m hm t ht
  refine (prepare_signs hfleet hlisted answers hm ht).mono (fun p t' h => ⟨h.ready, ?_, ?_⟩)
    fun _ _ h => h
  · rintro entry rfl
    exact h.carries entry rfl
  · intro m' p' hjoins entry hentry
    obtain ⟨hkeyed, hheld⟩ := hjoins entry hentry
    exact ⟨hkeyed, h.held _ hheld⟩

/-- The members of the knock hand over the orders they hold. -/
theorem handOver_signs {joined : List (FleetMember × (Entry ⊕ MemberPlacement))} {b : Bot}
    (hb : s.Ready l market.slug b)
    (hjoined : ∀ m entry, (m, .inl entry) ∈ joined → s.Carries l m.name market.slug entry b) :
    Safe (s.SignedOnce l) (Fleet.handOver market joined) (fun _ => s.Ready l market.slug)
      (fun _ => s.Ready l market.slug) b := by
  have hloop : Safe (s.SignedOnce l) (Fleet.handOver market joined)
      (fun _ t => s.Ready l market.slug t ∧
        ∀ m entry, (m, .inl entry) ∈ joined → s.Carries l m.name market.slug entry t)
      (fun _ t => s.Ready l market.slug t ∧
        ∀ m entry, (m, .inl entry) ∈ joined → s.Carries l m.name market.slug entry t) b := by
    refine safe_forEach _ ?_ ⟨hb, hjoined⟩
    rintro ⟨m, p⟩ hp t ⟨ht, hcarries⟩
    cases p with
    | inr placement => exact safe_return () ⟨ht, hcarries⟩
    | inl entry =>
      obtain ⟨hkeyed, hheld⟩ := hcarries m entry hp
      refine safe_commit _ (ht.signedOnce_knock rfl hkeyed hheld) ⟨ht.knock hkeyed hheld, ?_⟩
      exact fun m' entry' h => hcarries m' entry' h
  exact hloop.mono (fun _ _ h => h.1) fun _ _ h => h.1

/-- The knock of a fleet: where every part of it is to be tried again, nobody
was in it. -/
theorem knockMembers_signs (hfleet : s.fleet = some f) (hlisted : l.Lists market)
    (answers : FleetAnswers) {b : Bot} (hb : s.Ready l market.slug b) :
    Safe (s.SignedOnce l) (f.knockMembers market s.plan.buyPrice answers)
      (fun p t =>
        (p.1.all fun m => m.result.any fun r => r.retryable && r.orders.isEmpty) = true →
          s.Ready l market.slug t) (fun _ _ => True) b := by
  unfold Fleet.knockMembers
  refine safe_andThen (prepareAll_signs hfleet hlisted answers hb) ?_
  rintro prepared t ⟨ht, hprepared⟩
  have hcarries : ∀ m entry, (m, .inl entry) ∈ f.joined answers prepared →
      s.Carries l m.name market.slug entry t := fun m entry hm =>
    Fleet.joined_prepared hprepared hm entry rfl
  have hsettle : ∀ results t', Each (s.SignedOnce l) t'
      ((Fleet.settleMembers answers (f.joined answers prepared) results).commits t') := by
    intro results t'
    refine (Fleet.settleMembers_settles market answers _ results fun m entry hm => ?_).each
      (fun _ he t' => signedOnce_settles he t') t'
    have hkeyed : entry.submissionKey = s.entryKey l m.name market.slug := (hcarries m entry hm).1
    rw [hkeyed]
    exact hlisted.1.symm
  simp only
  split
  · rename_i hany
    refine safe_andThen ((handOver_signs ht hcarries).mono (fun _ _ h => h) fun _ _ _ => trivial)
      fun _ t' ht' => ?_
    split
    · rename_i e _
      refine safe_return _ fun hall => ?_
      exfalso
      obtain ⟨p, hp, hleft⟩ := List.any_eq_true.mp hany
      have hagain := List.all_eq_true.mp hall _ (List.mem_map_of_mem (f := Fleet.failed e) hp)
      obtain ⟨entry, hentry⟩ := Sum.isLeft_iff.mp hleft
      simp [Fleet.failed, hentry] at hagain
    · rename_i results seen _
      refine safe_andThen (q := fun placements _ =>
        (placements.all fun m => m.result.any fun r => r.retryable && r.orders.isEmpty) = false)
        ⟨hsettle results t', fun placements h => settleMembers_final h hany, fun _ _ => trivial⟩
        fun placements t'' hfinal => safe_return _ fun hall => ?_
      rw [hfinal] at hall
      cases hall
  · rename_i hnone
    refine safe_andThen ((cancels_ready (settleMembers_nobody answers _ [] hnone) ht).mono
      (fun _ _ h => h) fun _ _ _ => trivial) fun placements t' ht' => ?_
    exact safe_return _ fun _ => ht'

/-- A fleet signs once, and is left ready where its placement is to be tried
again. -/
theorem place_signs (hfleet : s.fleet = some f) (hlisted : l.Lists market)
    (answers : FleetAnswers) {b : Bot} (hb : s.Ready l market.slug b) :
    Safe (s.SignedOnce l) (f.place market s.plan.buyPrice answers)
      (fun r t => r.retryable = true → s.Ready l market.slug t) (fun _ _ => True) b := by
  unfold Fleet.place
  refine safe_andThen (knockMembers_signs hfleet hlisted answers hb) ?_
  rintro ⟨placements, seen⟩ t ht
  have hcancels := f.settle_cancels placements (Fleet.choose placements answers).1 answers
  by_cases hall :
      (placements.all fun m => m.result.any fun r => r.retryable && r.orders.isEmpty) = true
  · refine safe_andThen ((cancels_ready hcancels (ht hall)).mono (fun _ _ h => h)
      fun _ _ _ => trivial) fun parts t' ht' => ?_
    exact safe_return _ fun _ => ht'
  · refine safe_andThen (q := fun _ _ => True) ⟨?_, fun _ _ => trivial, fun _ _ => trivial⟩
      fun parts t' _ => safe_return _ fun hretryable => ?_
    · exact hcancels.each (fun _ he t' => signedOnce_settles (he.settles market) t') t
    · simp only [FleetPlacement.retryable, Bool.and_eq_true] at hretryable
      exact absurd hretryable.2 hall

end Service

end EventQuant
