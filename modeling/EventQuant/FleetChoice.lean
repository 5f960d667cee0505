import EventQuant.FleetExposure

/-!
Which member a fleet keeps, and what it makes of the others. The member kept is
the first of the registered ones on one clock: the venue's where every order
has its time, the replies' otherwise. Each other registered member is sent one
cancel for all its orders, and only their statuses change.
-/
namespace EventQuant

open Program Python

/-- The earliest of the items by their keys, and of the earliest the first. -/
def First {α β : Type*} [Preorder β] (key : α → β) (items : List α) (a : α) : Prop :=
  ∃ before after, items = before ++ a :: after ∧ (∀ b ∈ before, key a < key b) ∧
    ∀ b ∈ after, key a ≤ key b

theorem first_of_argmin {α β : Type*} [LinearOrder β] {key : α → β} {items : List α} {a : α}
    (h : items.argmin key = some a) : First key items a := by
  induction items generalizing a with
  | nil => simp at h
  | cons b items ih =>
    rw [List.argmin_cons] at h
    cases hrest : items.argmin key with
    | none =>
      rw [hrest] at h
      obtain rfl := Option.some.inj h
      rw [List.argmin_eq_none.mp hrest]
      exact ⟨[], [], rfl, fun b hb => absurd hb List.not_mem_nil, fun b hb => absurd hb List.not_mem_nil⟩
    | some c =>
      rw [hrest] at h
      simp only at h
      split_ifs at h with hlt
      · obtain rfl := Option.some.inj h
        obtain ⟨before, after, rfl, hbefore, hafter⟩ := ih hrest
        refine ⟨b :: before, after, rfl, fun b' hb' => ?_, hafter⟩
        rcases List.mem_cons.mp hb' with rfl | hb'
        · exact hlt
        · exact hbefore b' hb'
      · obtain rfl := Option.some.inj h
        refine ⟨[], items, rfl, fun b' hb' => absurd hb' List.not_mem_nil, fun b' hb' => ?_⟩
        exact (not_lt.mp hlt).trans (List.le_of_mem_argmin hb' hrest)

/-- Only the keys of the items matter. -/
theorem First.congr {α β : Type*} [Preorder β] {key key' : α → β} {items : List α} {a : α}
    (h : First key items a) (hkeys : ∀ b ∈ items, key b = key' b) : First key' items a := by
  obtain ⟨before, after, rfl, hbefore, hafter⟩ := h
  have hown := hkeys a (List.mem_append_right _ List.mem_cons_self)
  refine ⟨before, after, rfl, fun b hb => ?_, fun b hb => ?_⟩
  · rw [← hown, ← hkeys b (List.mem_append_left _ hb)]
    exact hbefore b hb
  · rw [← hown, ← hkeys b (List.mem_append_right _ (List.mem_cons_of_mem _ hb))]
    exact hafter b hb

theorem flatMap_if {α β : Type*} (P : α → Prop) [DecidablePred P] (g : α → β) (items : List α) :
    (items.flatMap fun a => if P a then [g a] else []) = (items.filter fun a => P a).map g := by
  induction items with
  | nil => rfl
  | cons a items ih =>
    rw [List.flatMap_cons, ih, List.filter_cons]
    by_cases ha : P a <;> simp [ha]

namespace Fleet

def Timed (clock : String → Option ℤ) (registered : List MemberPlacement) : Prop :=
  ∀ p ∈ registered, ∀ order ∈ ordersOf p, (clock order.orderId).isSome = true

def venueTime (clock : String → Option ℤ) (p : MemberPlacement) : ℤ :=
  ((ordersOf p).filterMap fun order => clock order.orderId).min?.getD 0

def Gains (reads : List (String → Option ℤ)) : Prop :=
  reads.Pairwise fun clock later => ∀ orderId stamp, clock orderId = some stamp →
    later orderId = some stamp

/-- Two reads that both have every time agree on all of them. -/
theorem Gains.venueTime_eq {reads : List (String → Option ℤ)} (h : Gains reads)
    {registered : List MemberPlacement} {clock clock' : String → Option ℤ} (hclock : clock ∈ reads)
    (hclock' : clock' ∈ reads) (htimed : Timed clock registered) (htimed' : Timed clock' registered)
    {p : MemberPlacement} (hp : p ∈ registered) : venueTime clock p = venueTime clock' p := by
  have hagree : ∀ order ∈ ordersOf p, clock order.orderId = clock' order.orderId := by
    intro order horder
    obtain ⟨stamp, hstamp⟩ := Option.isSome_iff_exists.mp (htimed p hp order horder)
    obtain ⟨stamp', hstamp'⟩ := Option.isSome_iff_exists.mp (htimed' p hp order horder)
    obtain ⟨i, hi, rfl⟩ := List.getElem_of_mem hclock
    obtain ⟨j, hj, rfl⟩ := List.getElem_of_mem hclock'
    rcases lt_trichotomy i j with hij | rfl | hji
    · rw [hstamp, List.pairwise_iff_getElem.mp h i j hi hj hij _ _ hstamp]
    · rfl
    · rw [hstamp', List.pairwise_iff_getElem.mp h j i hj hi hji _ _ hstamp']
  unfold venueTime
  rw [List.filterMap_congr hagree]

theorem stampsAt_timed {registered : List MemberPlacement} {clock : String → Option ℤ}
    (hheld : ∀ p ∈ registered, ordersOf p ≠ []) (h : Timed clock registered) :
    stampsAt registered clock = some (registered.map fun p => (p.member, venueTime clock p)) := by
  unfold stampsAt
  refine Results.mapM_some fun p hp => ?_
  have htimes := Results.mapM_filterMap (h p hp)
  unfold ordersOf at htimes
  rw [htimes, Option.bind_some]
  have hsome : ((ordersOf p).filterMap fun order => clock order.orderId) ≠ [] := by
    obtain ⟨order, horder⟩ := List.exists_mem_of_ne_nil _ (hheld p hp)
    obtain ⟨stamp, hstamp⟩ := Option.isSome_iff_exists.mp (h p hp order horder)
    exact List.ne_nil_of_mem (List.mem_filterMap.mpr ⟨order, horder, hstamp⟩)
  cases hmin : ((ordersOf p).filterMap fun order => clock order.orderId).min? with
  | none => exact absurd (List.min?_eq_none_iff.mp hmin) hsome
  | some stamp =>
    have htime : venueTime clock p = stamp := by
      unfold venueTime
      rw [hmin]
      rfl
    unfold ordersOf at hmin
    rw [hmin, htime]
    rfl

/-- A read that lacks one order's time is none of the members'. -/
theorem stampsAt_some {registered : List MemberPlacement} {clock : String → Option ℤ}
    {stamps : List (String × ℤ)} (h : stampsAt registered clock = some stamps) :
    Timed clock registered := by
  intro p hp order horder
  obtain ⟨pair, -, hpair⟩ := Results.exists_right (Results.forall₂_of_mapM_some h) hp
  obtain ⟨times, htimes, -⟩ := Option.bind_eq_some_iff.mp hpair
  obtain ⟨stamp, -, hstamp⟩ := Results.exists_right (Results.forall₂_of_mapM_some htimes) horder
  exact Option.isSome_iff_exists.mpr ⟨stamp, hstamp⟩

/-- The member kept, on the clock it was chosen by. -/
structure Chosen (placements : List MemberPlacement) (answers : FleetAnswers) (p : MemberPlacement) :
    Prop where
  kept : (choose placements answers).1 = some p.member
  venue : ∀ reads, answers.stamps = some reads → ∀ clock ∈ reads,
    Timed clock (placements.filter MemberPlacement.registered) →
      (choose placements answers).2.1 = some "venue" ∧
        First (venueTime clock) (placements.filter MemberPlacement.registered) p
  reply : (∀ reads, answers.stamps = some reads → ∀ clock ∈ reads,
      ¬ Timed clock (placements.filter MemberPlacement.registered)) →
    (choose placements answers).2.1 = some "reply" ∧
      First replyKey (placements.filter MemberPlacement.registered) p

theorem choose_none {placements : List MemberPlacement} (answers : FleetAnswers)
    (h : ∀ p ∈ placements, p.registered = false) : choose placements answers = (none, none, none) := by
  have hnone : placements.filter MemberPlacement.registered = [] := by
    rw [List.filter_eq_nil_iff]
    intro p hp
    simp [h p hp]
  unfold choose
  rw [if_pos hnone]

/-- The stamps of distinct members are looked up each as its own. -/
theorem lookup_stamps {registered : List MemberPlacement} {time : MemberPlacement → ℤ}
    (hdistinct : (registered.map MemberPlacement.member).Nodup) {p : MemberPlacement}
    (hp : p ∈ registered) :
    ((registered.map fun p => (p.member, time p)).lookup p.member) = some (time p) := by
  induction registered with
  | nil => exact absurd hp List.not_mem_nil
  | cons q registered ih =>
    obtain ⟨hfirst, hlater⟩ := List.nodup_cons.mp hdistinct
    rw [List.map_cons, List.lookup_cons]
    rcases List.mem_cons.mp hp with rfl | hp
    · simp
    · have hother : p.member ≠ q.member := fun hsame => hfirst (hsame ▸ List.mem_map_of_mem hp)
      rw [beq_false_of_ne hother]
      exact ih hlater hp

/-- With a member registered the one kept is the first of them on one clock. -/
theorem choose_chosen {placements : List MemberPlacement} {answers : FleetAnswers}
    (hdistinct : (placements.map MemberPlacement.member).Nodup)
    (hheld : ∀ p ∈ placements, p.registered = true → ordersOf p ≠ [])
    (hgains : ∀ reads, answers.stamps = some reads → Gains reads)
    (hsome : ∃ p ∈ placements, p.registered = true) : ∃ p, Chosen placements answers p := by
  have hregistered : placements.filter MemberPlacement.registered ≠ [] := by
    obtain ⟨p, hp, hregistered⟩ := hsome
    exact List.ne_nil_of_mem (List.mem_filter.mpr ⟨hp, hregistered⟩)
  have hnames : ((placements.filter MemberPlacement.registered).map MemberPlacement.member).Nodup :=
    hdistinct.sublist (List.filter_sublist.map _)
  have hheld' : ∀ p ∈ placements.filter MemberPlacement.registered, ordersOf p ≠ [] := by
    intro p hp
    obtain ⟨hp, hregistered⟩ := List.mem_filter.mp hp
    exact hheld p hp hregistered
  cases hstamps : venueStamps (placements.filter MemberPlacement.registered) answers with
  | none =>
    have hnever : ∀ reads, answers.stamps = some reads → ∀ clock ∈ reads,
        ¬ Timed clock (placements.filter MemberPlacement.registered) := by
      intro reads hreads clock hclock htimed
      unfold venueStamps at hstamps
      rw [hreads, Option.bind_some] at hstamps
      have hread := List.findSome?_eq_none_iff.mp hstamps clock hclock
      rw [stampsAt_timed hheld' htimed] at hread
      cases hread
    cases hmin : (placements.filter MemberPlacement.registered).argmin replyKey with
    | none => exact absurd (List.argmin_eq_none.mp hmin) hregistered
    | some p =>
      have hchoose : choose placements answers = (some p.member, some "reply", none) := by
        unfold choose
        rw [if_neg hregistered, hstamps]
        simp only
        rw [hmin]
        rfl
      refine ⟨p, by rw [hchoose], fun reads hreads clock hclock htimed => ?_, fun _ => ?_⟩
      · exact absurd htimed (hnever reads hreads clock hclock)
      · exact ⟨by rw [hchoose], first_of_argmin hmin⟩
  | some stamps =>
    obtain ⟨reads, hreads, hfound⟩ := Option.bind_eq_some_iff.mp hstamps
    obtain ⟨clock, hclock, hread⟩ := List.exists_of_findSome?_eq_some hfound
    have htimed := stampsAt_some hread
    rw [stampsAt_timed hheld' htimed] at hread
    obtain rfl := Option.some.inj hread
    cases hmin : (placements.filter MemberPlacement.registered).argmin fun p =>
        ((((placements.filter MemberPlacement.registered).map
          fun p => (p.member, venueTime clock p)).lookup p.member).getD 0) with
    | none => exact absurd (List.argmin_eq_none.mp hmin) hregistered
    | some p =>
      have hchoose : choose placements answers = (some p.member, some "venue",
          some ((placements.filter MemberPlacement.registered).map
            fun p => (p.member, venueTime clock p))) := by
        unfold choose
        rw [if_neg hregistered, hstamps]
        simp only
        rw [show List.argmin _ (placements.filter MemberPlacement.registered) = some p from hmin]
        rfl
      have hfirst : First (venueTime clock) (placements.filter MemberPlacement.registered) p := by
        refine (first_of_argmin hmin).congr fun q hq => ?_
        rw [lookup_stamps hnames hq]
        rfl
      refine ⟨p, by rw [hchoose], fun reads' hreads' clock' hclock' htimed' => ?_, fun hnever => ?_⟩
      · obtain rfl := Option.some.inj (hreads.symm.trans hreads')
        refine ⟨by rw [hchoose], hfirst.congr fun q hq => ?_⟩
        exact (hgains reads hreads).venueTime_eq hclock hclock' htimed htimed' hq
      · exact absurd htimed (hnever reads hreads clock hclock)

variable (f : Fleet)

def listsCancelled (codec : Codec) (result : Value) (orderId : String) : Bool :=
  match (result.get "canceled").iterate with
  | .ok ids => ids.any fun id => id.str codec = orderId
  | .error _ => false

def saysOver (codec : Codec) (result : Value) (orderId : String) : Bool :=
  match result.get "not_canceled" with
  | .object reasons => reasons.any fun reason =>
    reason.1 = orderId && contains "already canceled or matched" (lower (reason.2.str codec))
  | _ => false

/-- What a cancel's answer names as cancelled can be gone through. -/
def Legible (result : Value) : Prop :=
  ∀ fields, result = .object fields → ∀ canceled, fields.lookup "canceled" = some canceled →
    ∃ ids, canceled.iterate = .ok ids

def Readable (answers : FleetAnswers) : Prop :=
  ∀ m ∈ f.members, ∀ result, (answers.member m.name).cancelLaggard = .ok result → Legible result

theorem cancelOutcome_reads (codec : Codec) {result : Value} (h : Legible result) :
    ∃ word, cancelOutcome codec result = .ok word ∧
      ∀ orderId, (orderId ∈ word.1 ↔ listsCancelled codec result orderId = true) ∧
        (orderId ∈ word.2 ↔ saysOver codec result orderId = true) := by
  cases result with
  | object fields =>
    have hcanceled : ∃ ids, ((fields.lookup "canceled").getD (.array [])).iterate = .ok ids ∧
        ∀ orderId, orderId ∈ ids.map (Value.str codec) ↔
          listsCancelled codec (.object fields) orderId = true := by
      cases hlookup : fields.lookup "canceled" with
      | none => exact ⟨[], rfl, by simp [listsCancelled, Value.get, hlookup, Value.iterate]⟩
      | some canceled =>
        obtain ⟨ids, hids⟩ := h fields rfl canceled hlookup
        exact ⟨ids, hids, by simp [listsCancelled, Value.get, hlookup, hids]⟩
    obtain ⟨ids, hids, hlists⟩ := hcanceled
    unfold cancelOutcome classifyCancelResult
    simp only [hids]
    split
    · rename_i reasons hreasons
      refine ⟨_, rfl, fun orderId => ⟨hlists orderId, ?_⟩⟩
      simp [saysOver, hreasons, and_comm]
    · rename_i hreasons
      refine ⟨_, rfl, fun orderId => ⟨hlists orderId, ?_⟩⟩
      have hnot : saysOver codec (.object fields) orderId = false := by
        unfold saysOver
        split
        · rename_i reasons heq
          exact absurd heq (hreasons reasons)
        · rfl
      simp [hnot]
  | _ => exact ⟨([], []), rfl, by simp [listsCancelled, saysOver, Value.get, Value.iterate]⟩

def laggardCancels (kept : Option String) (p : MemberPlacement) : List Effect :=
  if f.laggard kept p ∧ ordersOf p ≠ [] then
    [.cancel p.member ((ordersOf p).map PlacedOrder.orderId)]
  else []

theorem laggardCancel_legible {answers : FleetAnswers} (hread : f.Readable answers) {name : String}
    {codec : Codec} {result : Value} (h : f.laggardCancel answers name = .ok (codec, result)) :
    Legible result := by
  unfold laggardCancel member at h
  cases hfind : f.members.find? fun m => m.name = name with
  | none => simp [hfind, bind, Except.bind] at h
  | some m =>
    cases hcall : (answers.member m.name).cancelLaggard with
    | error e => simp [hfind, hcall, bind, Except.bind] at h
    | ok answered =>
      simp only [hfind, hcall, bind, Except.bind, Except.ok.injEq, Prod.mk.injEq] at h
      exact h.2 ▸ hread m (List.mem_of_find?_eq_some hfind) answered hcall

theorem settlePlacement_sends {kept : Option String} {answers : FleetAnswers} {p : MemberPlacement}
    {m : FleetMember} (hm : m ∈ f.members) (hname : m.name = p.member) (hread : f.Readable answers)
    (t : Bot) : ∃ part, (f.settlePlacement kept answers p).result t = .ok part ∧
      (f.settlePlacement kept answers p).commits t = f.laggardCancels kept p ∧
      part.1 = (ordersOf p).map (f.recorded kept answers p) := by
  have hmember : f.member p.member = .ok m := hname ▸ f.member_of_mem hm
  have hreturns : ∃ part, (f.settlePlacement kept answers p).result t = .ok part ∧
      (f.settlePlacement kept answers p).commits t = f.laggardCancels kept p := by
    unfold laggardCancels
    by_cases hkept : ordersOf p = [] ∨ f.laggard kept p = false
    · obtain ⟨hresult, hcommits⟩ := f.settlePlacement_kept hkept answers t
      rw [hresult, hcommits, if_neg]
      · exact ⟨_, rfl, rfl⟩
      · rintro ⟨hlaggard, hsome⟩
        rw [hkept.resolve_left hsome] at hlaggard
        exact nomatch hlaggard
    · rw [not_or, Bool.not_eq_false] at hkept
      obtain ⟨hsome, hlaggard⟩ := hkept
      obtain ⟨hpart, hcommits⟩ := f.settlePlacement_pulled hsome hlaggard answers t
      rw [hpart, hcommits, f.laggardCall_sends hmember, hname, if_pos ⟨hlaggard, hsome⟩]
      unfold laggardPart
      cases hcall : f.laggardCancel answers p.member with
      | error e => exact ⟨_, rfl, rfl⟩
      | ok called =>
        obtain ⟨codec, result⟩ := called
        obtain ⟨word, hword, -⟩ := cancelOutcome_reads codec (f.laggardCancel_legible hread hcall)
        simp only [hword]
        exact ⟨_, rfl, trivial⟩
  obtain ⟨part, hresult, hcommits⟩ := hreturns
  exact ⟨part, hresult, hcommits, (f.settlePlacement_ran kept answers p part _
    ⟨t, hresult, List.Subset.refl _⟩).1⟩

def Lags (kept : Option String) (p : MemberPlacement) : Prop :=
  p.registered = true ∧ some p.member ≠ kept

instance (kept : Option String) (p : MemberPlacement) : Decidable (Lags kept p) :=
  inferInstanceAs (Decidable (_ ∧ _))

/-- What an order's status becomes: a laggard's by what its cancel answered,
and any other's stays. -/
def statusAfter (kept : Option String) (answers : FleetAnswers) (p : MemberPlacement)
    (order : PlacedOrder) : String :=
  if Lags kept p then
    match f.laggardCancel answers p.member with
    | .error _ => "cancel_requested"
    | .ok (codec, result) =>
      if listsCancelled codec result order.orderId then "cancelled"
      else if saysOver codec result order.orderId then "terminal_unknown"
      else "cancel_requested"
  else order.status

/-- With one member kept where any registered, the laggards are the others. -/
theorem laggard_iff {placements : List MemberPlacement} {answers : FleetAnswers}
    (hbest : f.keepBest = true)
    (hkept : (∃ p ∈ placements, p.registered = true) → (choose placements answers).1.isSome = true)
    {p : MemberPlacement} (hp : p ∈ placements) :
    f.laggard (choose placements answers).1 p = true ↔ Lags (choose placements answers).1 p := by
  unfold laggard Lags
  constructor
  · intro h
    simp only [Bool.and_eq_true, decide_eq_true_eq] at h
    exact ⟨h.2, h.1.2⟩
  · intro h
    simp only [Bool.and_eq_true, decide_eq_true_eq]
    exact ⟨⟨⟨hbest, hkept ⟨p, hp, h.1⟩⟩, h.2⟩, h.1⟩

theorem recorded_eq {kept : Option String} {answers : FleetAnswers} {p : MemberPlacement}
    (hread : f.Readable answers) (h : f.laggard kept p = true ↔ Lags kept p) (order : PlacedOrder) :
    f.recorded kept answers p order =
      { order with account := p.member, status := f.statusAfter kept answers p order } := by
  unfold recorded statusAfter
  by_cases hlags : Lags kept p
  · rw [if_pos (h.mpr hlags), if_pos hlags]
    unfold cancelWord
    cases hcall : f.laggardCancel answers p.member with
    | error e => simp [afterCancel]
    | ok answered =>
      obtain ⟨codec, result⟩ := answered
      obtain ⟨word, hword, hmeans⟩ := cancelOutcome_reads codec (f.laggardCancel_legible hread hcall)
      obtain ⟨hcancelled, hover⟩ := hmeans order.orderId
      simp only [hword, Except.toOption, Option.getD_some, afterCancel, hcancelled, hover]
      split_ifs <;> rfl
  · rw [if_neg fun hlaggard => hlags (h.mp hlaggard), if_neg hlags]

/-- A fleet that keeps one member keeps the first of the registered ones on one
clock, and none where none registered. Every order of every placement is handed
back once under its account, each other registered member is sent one cancel
for all its orders, and only theirs change their status. -/
theorem keep_one (hbest : f.keepBest = true) (placements : List MemberPlacement)
    (hmembers : placements.map MemberPlacement.member = f.members.map FleetMember.name)
    (hheld : ∀ p ∈ placements, p.registered = true → ordersOf p ≠ []) (answers : FleetAnswers)
    (hgains : ∀ reads, answers.stamps = some reads → Gains reads) (hread : f.Readable answers)
    (b : Bot) :
    ((∀ p ∈ placements, p.registered = false) → (choose placements answers).1 = none) ∧
    ((∃ p ∈ placements, p.registered = true) → ∃ p, Chosen placements answers p) ∧
    (f.settle placements (choose placements answers).1 answers).commits b =
      (placements.filter fun p => Lags (choose placements answers).1 p).map
        (fun p => .cancel p.member ((ordersOf p).map PlacedOrder.orderId)) ∧
    ∃ cancelled errors, (f.settle placements (choose placements answers).1 answers).result b =
      .ok (placements.flatMap fun p => (ordersOf p).map fun order =>
        { order with
          account := p.member
          status := f.statusAfter (choose placements answers).1 answers p order },
        cancelled, errors) := by
  have hdistinct : (placements.map MemberPlacement.member).Nodup := hmembers ▸ f.distinct
  have hchosen : (∃ p ∈ placements, p.registered = true) → ∃ p, Chosen placements answers p :=
    choose_chosen hdistinct hheld hgains
  have hlaggard : ∀ p ∈ placements, (f.laggard (choose placements answers).1 p = true ↔
      Lags (choose placements answers).1 p) := by
    refine fun p hp => f.laggard_iff hbest (fun hsome => ?_) hp
    obtain ⟨q, hq⟩ := hchosen hsome
    rw [hq.kept]
    rfl
  have hmember : ∀ p ∈ placements, ∃ m ∈ f.members, m.name = p.member := by
    intro p hp
    have hname : p.member ∈ f.members.map FleetMember.name := hmembers ▸ List.mem_map_of_mem hp
    exact List.mem_map.mp hname
  obtain ⟨parts, hparts, hcommits, hrecorded⟩ := collect_steady (s := b)
    (fun p (part : List PlacedOrder × List String × List String) =>
      part.1 = (ordersOf p).map (f.recorded (choose placements answers).1 answers p))
    (f.laggardCancels (choose placements answers).1) fun p hp t => by
      obtain ⟨m, hm, hname⟩ := hmember p hp
      exact f.settlePlacement_sends hm hname hread t
  refine ⟨fun hnone => by rw [choose_none answers hnone], hchosen, ?_, ?_⟩
  · unfold settle
    rw [bind_eq, commits_andThen_ok hparts, commits_return, List.append_nil, hcommits]
    have hsends : ∀ p ∈ placements, f.laggardCancels (choose placements answers).1 p =
        if Lags (choose placements answers).1 p then
          [.cancel p.member ((ordersOf p).map PlacedOrder.orderId)] else [] := by
      intro p hp
      unfold laggardCancels
      by_cases hlags : Lags (choose placements answers).1 p
      · rw [if_pos ⟨(hlaggard p hp).mpr hlags, hheld p hp hlags.1⟩, if_pos hlags]
      · rw [if_neg fun h => hlags ((hlaggard p hp).mp h.1), if_neg hlags]
    rw [List.flatMap_congr hsends]
    exact flatMap_if _ _ _
  · unfold settle
    rw [bind_eq, result_andThen_ok hparts, result_return]
    have horders : (parts.map fun part => part.1).flatten =
        placements.flatMap fun p => (ordersOf p).map fun order =>
          { order with
            account := p.member
            status := f.statusAfter (choose placements answers).1 answers p order } := by
      have hall : ∀ p ∈ placements, (ordersOf p).map (f.recorded (choose placements answers).1 answers p) =
          (ordersOf p).map fun order =>
            { order with
              account := p.member
              status := f.statusAfter (choose placements answers).1 answers p order } :=
        fun p hp => List.map_congr_left fun order _ => f.recorded_eq hread (hlaggard p hp) order
      rw [← List.flatMap_congr hall, List.flatMap_def,
        Results.map_of_forall₂ hrecorded fun _ _ hpart => hpart]
    rw [horders]
    exact ⟨_, _, rfl⟩

end Fleet

def upPlacement (account orderId : String) (registeredMs : ℤ) : MemberPlacement where
  member := account
  result := some
    { orders := [⟨orderId, "up", "up-token", 1 / 10, 10, "live", .buy, .entry, ""⟩]
      expected := 1
      registeredTsMs := some registeredMs }

def bothPlacements : List MemberPlacement :=
  [upPlacement "primary" "0xa1" 100, upPlacement "second" "0xb2" 200]

/-- The user streams report the second account's order later, and as the one
registered first. -/
def lateStamps : List (String → Option ℤ) :=
  [fun orderId => if orderId = "0xa1" then some 90 else none,
    fun orderId => if orderId = "0xa1" then some 90 else if orderId = "0xb2" then some 80 else none]

def stampedAnswers : FleetAnswers :=
  { pairFleetAnswers upUnanswered upUnanswered with stamps := some lateStamps }

theorem lateStamps_gains : Fleet.Gains lateStamps := by
  refine .cons (fun later hlater orderId stamp hstamp => ?_) (List.pairwise_singleton _ _)
  obtain rfl := List.mem_singleton.mp hlater
  simp only at hstamp ⊢
  split_ifs at hstamp ⊢ with h
  exact hstamp

theorem keep_one_stamped :
    (Fleet.choose bothPlacements stampedAnswers).1 = some "second" ∧
    (∃ p, Fleet.Chosen bothPlacements stampedAnswers p) ∧
    (pairFleet.settle bothPlacements (some "second") stampedAnswers).commits (Bot.boot Database.empty) =
      [.cancel "primary" ["0xa1"]] := by
  have hkept : (Fleet.choose bothPlacements stampedAnswers).1 = some "second" := by decide +kernel
  have hread : pairFleet.Readable stampedAnswers := by
    intro m _ result hresult
    obtain rfl := Except.ok.inj hresult
    exact fun fields hfields canceled hlookup => by
      obtain rfl := Value.object.inj hfields
      cases hlookup
  obtain ⟨-, hchosen, hcommits, -⟩ := pairFleet.keep_one rfl bothPlacements rfl (by decide) stampedAnswers
    (fun reads hreads => Option.some.inj hreads ▸ lateStamps_gains) hread (Bot.boot Database.empty)
  rw [hkept] at hcommits
  refine ⟨hkept, hchosen ⟨_, List.mem_cons_self, by decide⟩, hcommits.trans ?_⟩
  have hlags : (bothPlacements.filter fun p => Fleet.Lags (some "second") p) =
      [upPlacement "primary" "0xa1" 100] := by
    decide +kernel
  rw [hlags]
  rfl

end EventQuant
