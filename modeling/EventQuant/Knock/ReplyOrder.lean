import EventQuant.Knock.MemberSpec
import EventQuant.Library.Observations

/-!
Replies race. Each leg is out on many connections at once and the coordinator
takes the replies as they come, so what a member comes to must not depend on
their order: which legs registered under which ids and when, which errors the
venue gave, which statuses came without a verdict, and how many requests are
still out. The texts of the replies kept may differ with the order.
-/
namespace EventQuant.Knock

open Runs

/-- What a reply has to say. -/
inductive Effect
  | nothing
  | noVerdict (status : ℤ)
  | order (outcome orderId : String) (returned : ℤ)
  | error (item : Item)

/-- What a member came to, whatever order its replies came in. -/
@[ext] structure Tally where
  orderIds : String → Option String
  registered : ℤ
  errors : Set Item
  noVerdicts : Set ℤ
  inFlight : ℤ

def earliest (registered returned : ℤ) : ℤ :=
  if registered = 0 ∨ returned < registered then returned else registered

namespace Tally

def Takes (t : Tally) (outcome orderId : String) : Prop :=
  ∀ earlier, t.orderIds outcome = some earlier → earlier = orderId

open Classical in
noncomputable def take (t : Tally) : Effect → Tally
  | .nothing => { t with inFlight := t.inFlight - 1 }
  | .noVerdict status =>
    { t with noVerdicts := insert status t.noVerdicts, inFlight := t.inFlight - 1 }
  | .order outcome orderId returned =>
    if t.Takes outcome orderId then
      { t with
        orderIds := Function.update t.orderIds outcome (some orderId)
        registered := earliest t.registered returned
        inFlight := t.inFlight - 1 }
    else { t with inFlight := t.inFlight - 1 }
  | .error item => { t with errors := insert item t.errors, inFlight := t.inFlight - 1 }

def Agree : Effect → Effect → Prop
  | .order o id r, .order o' id' r' => (o = o' → id = id') ∧ r ≠ 0 ∧ r' ≠ 0
  | _, _ => True

theorem earliest_comm {r r' : ℤ} (hr : r ≠ 0) (hr' : r' ≠ 0) (x : ℤ) :
    earliest (earliest x r) r' = earliest (earliest x r') r := by
  unfold earliest
  split_ifs <;> omega

/-- Taking a leg's order leaves what the others may take. -/
theorem takes_update {t : Tally} {outcome orderId o id : String} (h : t.Takes outcome orderId)
    (hsame : outcome = o → orderId = id) (registered inFlight : ℤ) :
    ({ t with
      orderIds := Function.update t.orderIds outcome (some orderId)
      registered := registered
      inFlight := inFlight } : Tally).Takes o id ↔ t.Takes o id := by
  unfold Takes at *
  by_cases ho : outcome = o
  · subst ho
    obtain rfl := hsame rfl
    simp only [Function.update_self, Option.some.injEq]
    exact ⟨fun _ => h, fun _ _ heq => heq.symm⟩
  · simp only [Function.update_of_ne (Ne.symm ho)]

theorem take_order {t : Tally} {outcome orderId : String} (h : t.Takes outcome orderId)
    (returned : ℤ) : t.take (.order outcome orderId returned) =
      { t with
        orderIds := Function.update t.orderIds outcome (some orderId)
        registered := earliest t.registered returned
        inFlight := t.inFlight - 1 } :=
  if_pos h

theorem take_other {t : Tally} {outcome orderId : String} (h : ¬ t.Takes outcome orderId)
    (returned : ℤ) : t.take (.order outcome orderId returned) = { t with inFlight := t.inFlight - 1 } :=
  if_neg h

theorem take_order_comm (t : Tally) {o id o' id' : String} {r r' : ℤ} (hids : o = o' → id = id')
    (hr : r ≠ 0) (hr' : r' ≠ 0) :
    (t.take (.order o id r)).take (.order o' id' r') =
      (t.take (.order o' id' r')).take (.order o id r) := by
  by_cases h : t.Takes o id
  · by_cases h' : t.Takes o' id'
    · have hboth := (takes_update h hids (earliest t.registered r) (t.inFlight - 1)).mpr h'
      have hboth' := (takes_update h' (fun heq => (hids heq.symm).symm)
        (earliest t.registered r') (t.inFlight - 1)).mpr h
      rw [take_order h, take_order h', take_order hboth, take_order hboth']
      simp only [earliest_comm hr hr']
      by_cases ho : o = o'
      · subst ho
        rw [hids rfl]
      · rw [Function.update_comm ho]
    · have hnone := fun heq => h' ((takes_update h hids (earliest t.registered r)
        (t.inFlight - 1)).mp heq)
      rw [take_order h, take_other h', take_other hnone, take_order (by exact h)]
  · by_cases h' : t.Takes o' id'
    · have hnone := fun heq => h ((takes_update h' (fun heq => (hids heq.symm).symm)
        (earliest t.registered r') (t.inFlight - 1)).mp heq)
      rw [take_other h, take_order h', take_other hnone, take_order (by exact h')]
    · rw [take_other h, take_other h', take_other (by exact h'), take_other (by exact h)]

/-- What an order adds and what any other reply adds do not meet. -/
theorem take_order_apart (t : Tally) (o id : String) (r : ℤ) {b : Effect}
    (hb : ∀ o' id' r', b ≠ .order o' id' r') :
    (t.take (.order o id r)).take b = (t.take b).take (.order o id r) := by
  by_cases h : t.Takes o id
  · cases b with
    | order o' id' r' => exact absurd rfl (hb o' id' r')
    | _ =>
      rw [take_order h, take_order (by exact h)]
      rfl
  · cases b with
    | order o' id' r' => exact absurd rfl (hb o' id' r')
    | _ =>
      rw [take_other h, take_other (by exact h)]
      rfl

theorem take_comm (t : Tally) {a b : Effect} (h : Agree a b) :
    (t.take a).take b = (t.take b).take a := by
  cases a with
  | order o id r =>
    cases b with
    | order o' id' r' => exact take_order_comm t h.1 h.2.1 h.2.2
    | _ => exact take_order_apart t o id r (fun _ _ _ => nofun)
  | nothing =>
    cases b with
    | order o' id' r' => exact (take_order_apart t o' id' r' (by simp)).symm
    | _ => rfl
  | noVerdict status =>
    cases b with
    | order o' id' r' => exact (take_order_apart t o' id' r' (by simp)).symm
    | noVerdict status' => simp only [take, Set.insert_comm status status']
    | _ => rfl
  | error item =>
    cases b with
    | order o' id' r' => exact (take_order_apart t o' id' r' (by simp)).symm
    | error item' => simp only [take, Set.insert_comm item item']
    | _ => rfl

def Moments (t : Tally) (replies : List Effect) (moment : ℤ) : Prop :=
  moment = t.registered ∧ moment ≠ 0 ∨
    ∃ o id, Effect.order o id moment ∈ replies ∧ t.Takes o id

/-- A reply leaves the ones that agree with it what they may take. -/
theorem takes_take (t : Tally) {a : Effect} {o id : String} {r : ℤ} (h : Agree a (.order o id r)) :
    (t.take a).Takes o id ↔ t.Takes o id := by
  cases a with
  | order o' id' r' =>
    by_cases htakes : t.Takes o' id'
    · rw [take_order htakes]
      exact takes_update htakes h.1 _ _
    · rw [take_other htakes]
      exact Iff.rfl
  | _ => exact Iff.rfl

/-- A reply that registers nothing adds no moment. -/
theorem moments_cons_of_eq {t : Tally} {a : Effect} {replies : List Effect}
    (hregistered : (t.take a).registered = t.registered)
    (hnone : ∀ o id r, a = .order o id r → ¬ t.Takes o id)
    (hagree : ∀ b ∈ replies, Agree a b) (moment : ℤ) :
    (t.take a).Moments replies moment ↔ t.Moments (a :: replies) moment := by
  unfold Moments
  rw [hregistered]
  constructor
  · intro h
    obtain h | ⟨o, id, hmem, htakes⟩ := h
    · exact Or.inl h
    · exact Or.inr ⟨o, id, List.mem_cons_of_mem _ hmem,
        (takes_take t (hagree _ hmem)).mp htakes⟩
  · intro h
    obtain h | ⟨o, id, hmem, htakes⟩ := h
    · exact Or.inl h
    · rcases List.mem_cons.mp hmem with ha | hmem
      · exact absurd htakes (hnone o id moment ha.symm)
      · exact Or.inr ⟨o, id, hmem, (takes_take t (hagree _ hmem)).mpr htakes⟩

/-- The registration time is the earliest of them, 0 where there is none. -/
theorem registered_earliest (t : Tally) (replies : List Effect)
    (hagree : ∀ a ∈ replies, ∀ b ∈ replies, Agree a b) :
    (∀ moment, t.Moments replies moment → (replies.foldl take t).registered ≤ moment) ∧
      (t.Moments replies (replies.foldl take t).registered ∨
        (replies.foldl take t).registered = 0 ∧ ∀ moment, ¬ t.Moments replies moment) := by
  induction replies generalizing t with
  | nil =>
    refine ⟨fun moment hmoment => ?_, ?_⟩
    · obtain ⟨rfl, -⟩ | ⟨_, _, hmem, -⟩ := hmoment
      · exact le_refl _
      · exact absurd hmem List.not_mem_nil
    · by_cases h0 : t.registered = 0
      · refine Or.inr ⟨h0, fun moment hmoment => ?_⟩
        obtain ⟨rfl, hne⟩ | ⟨_, _, hmem, -⟩ := hmoment
        · exact hne h0
        · exact absurd hmem List.not_mem_nil
      · exact Or.inl (Or.inl ⟨rfl, h0⟩)
  | cons a replies ih =>
    have hrest : ∀ b ∈ replies, Agree a b := fun b hb =>
      hagree a List.mem_cons_self b (List.mem_cons_of_mem _ hb)
    obtain ⟨hle, hmem⟩ := ih (t.take a)
      fun b hb c hc => hagree b (List.mem_cons_of_mem _ hb) c (List.mem_cons_of_mem _ hc)
    rw [List.foldl_cons]
    by_cases htaken : ∃ o id r, a = .order o id r ∧ t.Takes o id
    · obtain ⟨o, id, r, rfl, htakes⟩ := htaken
      have hr : r ≠ 0 := (hagree _ List.mem_cons_self _ List.mem_cons_self).2.1
      have hnow : (t.take (.order o id r)).registered = earliest t.registered r := by
        rw [take_order htakes]
      have hne : earliest t.registered r ≠ 0 := by
        unfold earliest
        split_ifs <;> omega
      have hfirst := hle (earliest t.registered r) (Or.inl ⟨hnow.symm, hne⟩)
      refine ⟨fun moment hmoment => ?_, ?_⟩
      · obtain ⟨rfl, hmoment⟩ | ⟨o', id', hmem', htakes'⟩ := hmoment
        · refine hfirst.trans ?_
          unfold earliest
          split_ifs <;> omega
        · rcases List.mem_cons.mp hmem' with heq | hmem'
          · obtain ⟨-, -, rfl⟩ := Effect.order.inj heq
            refine hfirst.trans ?_
            unfold earliest
            split_ifs <;> omega
          · exact hle moment (Or.inr ⟨o', id', hmem', (takes_take t (hrest _ hmem')).mpr htakes'⟩)
      · obtain (⟨hlast, -⟩ | ⟨o', id', hmem', htakes'⟩) | ⟨-, hnone⟩ := hmem
        · rw [hlast, hnow]
          by_cases hold : t.registered = 0 ∨ r < t.registered
          · rw [show earliest t.registered r = r from if_pos hold]
            exact Or.inl (Or.inr ⟨o, id, List.mem_cons_self, htakes⟩)
          · rw [show earliest t.registered r = t.registered from if_neg hold]
            exact Or.inl (Or.inl ⟨rfl, fun h0 => hold (Or.inl h0)⟩)
        · exact Or.inl (Or.inr ⟨o', id', List.mem_cons_of_mem _ hmem',
            (takes_take t (hrest _ hmem')).mp htakes'⟩)
        · exact absurd (Or.inl ⟨hnow.symm, hne⟩) (hnone (earliest t.registered r))
    · have hnone : ∀ o id r, a = .order o id r → ¬ t.Takes o id := fun o id r ha htakes =>
        htaken ⟨o, id, r, ha, htakes⟩
      have hregistered : (t.take a).registered = t.registered := by
        cases a with
        | order o id r => rw [take_other (hnone o id r rfl)]
        | _ => rfl
      have hsame := moments_cons_of_eq hregistered hnone hrest
      refine ⟨fun moment hmoment => hle moment ((hsame moment).mpr hmoment), ?_⟩
      obtain hmem | ⟨h0, hempty⟩ := hmem
      · exact Or.inl ((hsame _).mp hmem)
      · exact Or.inr ⟨h0, fun moment hmoment => hempty moment ((hsame moment).mpr hmoment)⟩

end Tally

/-! ### What is collected -/

namespace Items

variable (l : Items) (key : ItemKey) (item : Item) (hnames : key.Names item)

/-- Noting an item adds it, unless one its key names is there. -/
theorem mem_note (i : Item) :
    i ∈ (l.note key item hnames).list ↔ i ∈ l.list ∨ key ∉ l.seen ∧ i = item := by
  unfold note
  split
  · rename_i hseen
    simp [hseen]
  · rename_i hnew
    simp [hnew]

theorem mem_reply (status : ℤ) (body : String) (i : Item) :
    i ∈ (l.reply status body).list ↔ i = .reply status body ∨ i ∈ l.list := by
  refine (l.mem_note _ _ _ i).trans ⟨fun h => ?_, fun h => ?_⟩
  · obtain h | ⟨-, h⟩ := h
    · exact Or.inr h
    · exact Or.inl h
  · obtain rfl | h := h
    · by_cases hseen : ItemKey.reply status body ∈ l.seen
      · obtain ⟨j, hj, hnamed⟩ := l.exists_named _ hseen
        exact Or.inl (hnamed ▸ hj)
      · exact Or.inr ⟨hseen, rfl⟩
    · exact Or.inl h

theorem status_firstOf (status : ℤ) (body : String) (st : ℤ) :
    (∃ b, Item.reply st b ∈ (l.firstOf status body).list) ↔
      st = status ∨ ∃ b, Item.reply st b ∈ l.list := by
  constructor
  · intro ⟨b, hb⟩
    obtain hb | ⟨-, hb⟩ := (l.mem_note _ _ _ _).mp hb
    · exact Or.inr ⟨b, hb⟩
    · exact Or.inl (Item.reply.inj hb).1
  · intro h
    obtain rfl | ⟨b, hb⟩ := h
    · obtain ⟨j, hj, b, hnamed⟩ := l.note_named (.firstOf st) (.reply st body) ⟨body, rfl⟩
      exact ⟨b, hnamed ▸ hj⟩
    · exact ⟨b, l.mem_note_list _ _ _ _ hb⟩

theorem status_text (text : String) (st : ℤ) :
    (∃ b, Item.reply st b ∈ (l.text text).list) ↔ ∃ b, Item.reply st b ∈ l.list := by
  constructor
  · intro ⟨b, hb⟩
    obtain hb | ⟨-, hb⟩ := (l.mem_note _ _ _ _).mp hb
    · exact ⟨b, hb⟩
    · cases hb
  · intro ⟨b, hb⟩
    exact ⟨b, l.mem_note_list _ _ _ _ hb⟩

end Items

/-! ### The coordinator's replies -/

def Reply.effect (rep : Reply) : Effect :=
  match rep.failure with
  | some _ => .nothing
  | none =>
    if rep.verdict.transient then .noVerdict rep.status
    else if rep.verdict.accepted then .order rep.outcome rep.verdict.orderId rep.returned
    else .error (.reply rep.status rep.body)

namespace MemberState

def tally (m : MemberState) : Tally where
  orderIds outcome := (m.accepted.lookup outcome).map AcceptedOrder.orderId
  registered := m.registered
  errors := {item | item ∈ m.errors.list}
  noVerdicts := {status | ∃ body, Item.reply status body ∈ m.ambiguous.list}
  inFlight := m.inFlight

theorem tally_stop (now : ℤ) (m : MemberState) : (stop now m).tally = m.tally := by
  unfold stop
  split <;> rfl

theorem tally_conclude (now : ℤ) (rep : Reply) (m : MemberState) :
    (m.conclude now rep).tally = m.tally := by
  unfold conclude
  split
  · exact tally_stop now m
  · split
    · exact tally_stop now m
    · rfl

theorem tally_text (text : String) (m : MemberState) :
    ({ m with ambiguous := m.ambiguous.text text } : MemberState).tally = m.tally := by
  have hset : {status | ∃ body, Item.reply status body ∈ (m.ambiguous.text text).list} =
      {status | ∃ body, Item.reply status body ∈ m.ambiguous.list} :=
    Set.ext fun status => m.ambiguous.status_text text status
  unfold tally
  rw [hset]

theorem tally_keep (rep : Reply) (m : MemberState) :
    (m.keep rep).tally = { m.tally with
      orderIds := Function.update m.tally.orderIds rep.outcome (some rep.verdict.orderId)
      registered := earliest m.registered rep.returned } := by
  have hids : (fun outcome => ((m.accepted.insert rep.outcome
      ⟨rep.outcome, rep.verdict.orderId, rep.status, rep.body⟩).lookup outcome).map
        AcceptedOrder.orderId) =
      Function.update m.tally.orderIds rep.outcome (some rep.verdict.orderId) := by
    funext outcome
    by_cases ho : outcome = rep.outcome
    · subst ho
      simp
    · rw [Function.update_of_ne ho, AList.lookup_insert_ne ho]
      rfl
  unfold keep tally
  rw [hids]
  rfl

/-- An accepting reply counts where no other id was taken for its leg. -/
theorem tally_accept (now : ℤ) (rep : Reply) (m : MemberState) :
    (m.counted.accept now rep).tally =
      m.tally.take (.order rep.outcome rep.verdict.orderId rep.returned) := by
  unfold accept
  split
  · rename_i earlier hearlier
    have hid : m.tally.orderIds rep.outcome = some earlier.orderId := by
      show (m.accepted.lookup rep.outcome).map _ = _
      rw [show m.accepted.lookup rep.outcome = some earlier from hearlier]
      rfl
    split
    · rename_i hsame
      have htakes : m.tally.Takes rep.outcome rep.verdict.orderId := by
        intro e he
        rw [hid, Option.some.injEq] at he
        exact he ▸ hsame
      rw [tally_keep, Tally.take_order htakes]
      rfl
    · rename_i hother
      have htakes : ¬ m.tally.Takes rep.outcome rep.verdict.orderId := fun h => hother (h _ hid)
      rw [tally_stop, tally_text, Tally.take_other htakes]
      rfl
  · rename_i hnone
    have htakes : m.tally.Takes rep.outcome rep.verdict.orderId := by
      intro e he
      have hid : m.tally.orderIds rep.outcome = none := by
        show (m.accepted.lookup rep.outcome).map _ = _
        rw [show m.accepted.lookup rep.outcome = none from hnone]
        rfl
      rw [hid] at he
      cases he
    rw [tally_keep, Tally.take_order htakes]
    rfl

/-- A reply handled in time adds what it has to say. -/
theorem tally_onReply {now : ℤ} {m : MemberState} (h : InTime now m) (rep : Reply) :
    (m.onReply now rep).tally = m.tally.take rep.effect := by
  unfold onReply Reply.effect
  rw [if_neg (by rw [h]; exact Bool.false_ne_true)]
  cases hfailure : rep.failure with
  | some failure =>
    simp only
    rw [tally_stop]
    exact tally_text failure m.counted
  | none =>
    simp only
    by_cases htransient : rep.verdict.transient = true
    · rw [if_pos htransient, if_pos htransient]
      have hset : {status | ∃ body, Item.reply status body ∈
          (m.ambiguous.firstOf rep.status rep.body).list} =
            insert rep.status m.tally.noVerdicts :=
        Set.ext fun status => m.ambiguous.status_firstOf rep.status rep.body status
      show Tally.mk _ _ _ {status | ∃ body, Item.reply status body ∈
          (m.ambiguous.firstOf rep.status rep.body).list} _ = _
      rw [hset]
      rfl
    · rw [if_neg htransient, if_neg htransient, tally_conclude]
      unfold record
      by_cases haccepted : rep.verdict.accepted = true
      · rw [if_pos haccepted, if_pos haccepted]
        exact tally_accept now rep m
      · rw [if_neg haccepted, if_neg haccepted]
        have hset : {item | item ∈ (m.errors.reply rep.status rep.body).list} =
            insert (Item.reply rep.status rep.body) m.tally.errors :=
          Set.ext fun item => m.errors.mem_reply rep.status rep.body item
        show Tally.mk _ _ {item | item ∈ (m.errors.reply rep.status rep.body).list} _ _ = _
        rw [hset]
        rfl

def handled (m : MemberState) (replies : List (ℤ × Reply)) : MemberState :=
  replies.foldl (fun m e => m.onReply e.1 e.2) m

def AllInTime (m : MemberState) (replies : List (ℤ × Reply)) : Prop :=
  Meets (fun m e => InTime e.1 m) (fun m e => m.onReply e.1 e.2) m replies

instance (m : MemberState) (replies : List (ℤ × Reply)) : Decidable (m.AllInTime replies) :=
  have (m : MemberState) (e : ℤ × Reply) : Decidable (InTime e.1 m) :=
    inferInstanceAs (Decidable ((m.stopped && decide (m.drainUntil < e.1)) = false))
  inferInstanceAs (Decidable (Meets _ _ m replies))

/-- The moments an order of the member registered at: the one it knew, and
those of the replies that register a leg. -/
def RegisteredAt (m : MemberState) (replies : List (ℤ × Reply)) (moment : ℤ) : Prop :=
  moment = m.registered ∧ moment ≠ 0 ∨ ∃ e ∈ replies, m.Registers e.2 ∧ moment = e.2.returned

end MemberState

theorem Reply.effect_order {rep : Reply} {o id : String} {r : ℤ} (h : rep.effect = .order o id r) :
    rep.Accepts ∧ o = rep.outcome ∧ id = rep.verdict.orderId ∧ r = rep.returned := by
  unfold Reply.effect at h
  cases hfailure : rep.failure with
  | some failure => simp [hfailure] at h
  | none =>
    simp only [hfailure] at h
    split_ifs at h with htransient haccepted
    obtain ⟨rfl, rfl, rfl⟩ := Effect.order.inj h
    exact ⟨⟨hfailure, by simpa using htransient, haccepted⟩, rfl, rfl, rfl⟩

theorem Reply.Accepts.effect {rep : Reply} (h : rep.Accepts) :
    rep.effect = .order rep.outcome rep.verdict.orderId rep.returned := by
  simp [Reply.effect, h.1, h.2.1, h.2.2]

namespace MemberState

/-- The tally takes a leg's order where the member registers it. -/
theorem takes_tally (m : MemberState) (outcome orderId : String) :
    m.tally.Takes outcome orderId ↔
      ∀ earlier, m.accepted.lookup outcome = some earlier → earlier.orderId = orderId := by
  constructor
  · intro h earlier hearlier
    refine h earlier.orderId ?_
    show (m.accepted.lookup outcome).map _ = _
    rw [hearlier]
    rfl
  · intro h id hid
    obtain ⟨earlier, hearlier, rfl⟩ := Option.map_eq_some_iff.mp hid
    exact h earlier hearlier

theorem moments_tally (m : MemberState) (replies : List (ℤ × Reply)) (moment : ℤ) :
    m.tally.Moments ((replies.map Prod.snd).map Reply.effect) moment ↔
      m.RegisteredAt replies moment := by
  refine or_congr Iff.rfl ⟨fun h => ?_, fun h => ?_⟩
  · obtain ⟨o, id, hmem, htakes⟩ := h
    obtain ⟨rep, hrep, heffect⟩ := List.mem_map.mp hmem
    obtain ⟨e, he, rfl⟩ := List.mem_map.mp hrep
    obtain ⟨haccepts, rfl, rfl, rfl⟩ := Reply.effect_order heffect
    exact ⟨e, he, ⟨haccepts.1, haccepts.2.1, haccepts.2.2, (takes_tally m _ _).mp htakes⟩, rfl⟩
  · obtain ⟨e, he, ⟨hfailure, htransient, haccepted, hids⟩, rfl⟩ := h
    have haccepts : e.2.Accepts := ⟨hfailure, htransient, haccepted⟩
    refine ⟨e.2.outcome, e.2.verdict.orderId, ?_, (takes_tally m _ _).mpr hids⟩
    rw [← haccepts.effect]
    exact List.mem_map_of_mem (List.mem_map_of_mem he)

/-- Replies handled in time, none naming a leg's order differently, come to the
same in any order: the legs registered and their ids, the registration time, the
earliest there is, the errors, the statuses without a verdict and the requests
still out. The clock reads no reply at moment 0. -/
theorem handled_any_order {m : MemberState} {first second : List (ℤ × Reply)}
    (hperm : (first.map Prod.snd).Perm (second.map Prod.snd))
    (hfirst : m.AllInTime first) (hsecond : m.AllInTime second)
    (hagree : ∀ a ∈ first, ∀ b ∈ first, a.2.Accepts → b.2.Accepts →
      a.2.outcome = b.2.outcome → a.2.verdict.orderId = b.2.verdict.orderId)
    (hreturned : ∀ a ∈ first, a.2.Accepts → a.2.returned ≠ 0) :
    (m.handled first).tally = (m.handled second).tally ∧
      (∀ moment, m.RegisteredAt first moment → (m.handled first).registered ≤ moment) ∧
      (m.RegisteredAt first (m.handled first).registered ∨
        (m.handled first).registered = 0 ∧ ∀ moment, ¬ m.RegisteredAt first moment) := by
  have hstep : ∀ (m : MemberState) (e : ℤ × Reply), InTime e.1 m →
      (m.onReply e.1 e.2).tally = m.tally.take e.2.effect := fun m e h => tally_onReply h e.2
  have hagrees : ∀ a ∈ first.map Prod.snd, ∀ b ∈ first.map Prod.snd,
      Tally.Agree a.effect b.effect := by
    intro a ha b hb
    obtain ⟨x, hx, rfl⟩ := List.mem_map.mp ha
    obtain ⟨y, hy, rfl⟩ := List.mem_map.mp hb
    unfold Tally.Agree
    split
    · rename_i o id r o' id' r' hxe hye
      obtain ⟨hax, rfl, rfl, rfl⟩ := Reply.effect_order hxe
      obtain ⟨hay, rfl, rfl, rfl⟩ := Reply.effect_order hye
      exact ⟨hagree x hx y hy hax hay, hreturned x hx hax, hreturned y hy hay⟩
    · trivial
  have hrun : (m.handled first).tally =
      ((first.map Prod.snd).map Reply.effect).foldl Tally.take m.tally := by
    rw [List.foldl_map]
    exact observed_run tally (fun t rep => t.take rep.effect) hstep hfirst
  refine ⟨observed_perm tally (fun t rep => t.take rep.effect) hstep
    (fun a ha b hb t => Tally.take_comm t (hagrees a ha b hb)) hperm hfirst hsecond, ?_⟩
  have hagreed : ∀ a ∈ (first.map Prod.snd).map Reply.effect,
      ∀ b ∈ (first.map Prod.snd).map Reply.effect, Tally.Agree a b :=
    List.forall_mem_map.mpr fun a ha => List.forall_mem_map.mpr fun b hb => hagrees a ha b hb
  have hregistered : (m.handled first).registered =
      (((first.map Prod.snd).map Reply.effect).foldl Tally.take m.tally).registered :=
    congrArg Tally.registered hrun
  obtain ⟨hle, hmem⟩ := Tally.registered_earliest m.tally _ hagreed
  rw [hregistered]
  simp only [moments_tally] at hle hmem
  exact ⟨hle, hmem⟩

def twoLegs : MemberState := start ⟨"a", 0, [⟨"up", ""⟩, ⟨"down", ""⟩]⟩

def acceptedAt (outcome orderId : String) (returned : ℤ) : Reply :=
  ⟨0, outcome, returned, 200, "", ⟨"accepted", false, true, orderId, "", false⟩, none⟩

theorem handled_any_order_twoLegs :
    (twoLegs.handled [(1, acceptedAt "up" "A" 7), (2, acceptedAt "down" "B" 5)]).tally =
      (twoLegs.handled [(1, acceptedAt "down" "B" 5), (2, acceptedAt "up" "A" 7)]).tally := by
  have hperm : ([((1 : ℤ), acceptedAt "up" "A" 7), (2, acceptedAt "down" "B" 5)].map Prod.snd).Perm
      ([((1 : ℤ), acceptedAt "down" "B" 5), (2, acceptedAt "up" "A" 7)].map Prod.snd) :=
    .swap _ _ _
  refine (handled_any_order hperm (by decide) (by decide) ?_ ?_).1
  · intro a ha b hb _ _ houtcome
    simp only [List.mem_cons, List.not_mem_nil, or_false] at ha hb
    obtain rfl | rfl := ha <;> obtain rfl | rfl := hb <;> simp_all [acceptedAt]
  · intro a ha _
    simp only [List.mem_cons, List.not_mem_nil, or_false] at ha
    obtain rfl | rfl := ha <;> simp [acceptedAt]

/-- A leg known under one id, and an accepting reply that came back before it
and names another: that reply's moment is not the registration's. -/
theorem handled_conflicting :
    let m := twoLegs.handled [(1, acceptedAt "up" "A" 5)]
    m.AllInTime [(2, acceptedAt "up" "B" 3)] ∧ (acceptedAt "up" "B" 3).Accepts ∧
      (m.handled [(2, acceptedAt "up" "B" 3)]).registered = 5 := by
  refine ⟨by decide, ⟨rfl, rfl, rfl⟩, by decide⟩

end MemberState

end EventQuant.Knock
