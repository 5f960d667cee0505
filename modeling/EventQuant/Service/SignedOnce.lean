import EventQuant.Service.FleetSigning
import EventQuant.Service.Lives

/-!
Signed once in a process. Between the calls every hand-over to a knock is
either still held in the signed orders or of a market that is closed for good;
so a market that can be placed again is placed with the orders of its first
knock, and nothing is signed for a key that was handed over.
-/
namespace EventQuant

open Program Store Runs
open Knock (Leg MemberResult)

def Knocked.Sends (k : Knocked) (leg : Leg) : Prop :=
  ∃ (plan : Knock.Plan) (w : Knock.World) (i : ℕ) (t : Knock.Track) (send : Knock.Send),
    Knock.World.Reachable plan w ∧ w.tracks[i]? = some t ∧ t.state.plan.legs = k.legs ∧
      send ∈ t.sent ∧ send.leg = leg

/-- A knock sends only what was handed over. -/
theorem Knocked.Sends.mem {k : Knocked} {leg : Leg} (h : k.Sends leg) : leg ∈ k.legs := by
  obtain ⟨plan, w, i, t, send, hw, ht, hlegs, hsend, rfl⟩ := h
  obtain ⟨m, -, -, hrun⟩ := hw.track ht
  rw [← hlegs]
  exact (Knock.Track.run_books hrun).sends send hsend

def Effect.Unsigned : Effect → Prop
  | .sign _ _ _ => False
  | .forget _ _ => False
  | .knock _ => False
  | _ => True

def Effect.KeepsClosed : Effect → Prop
  | .write w => ∀ slug, ¬ Database.Reopens slug w
  | _ => True

theorem Effect.Unsigned.apply {e : Effect} (h : e.Unsigned) (b : Bot) :
    (Store.apply b e).submissions = b.submissions ∧ (Store.apply b e).knocked = b.knocked := by
  cases e with
  | sign account key bodies => exact absurd h id
  | forget account key => exact absurd h id
  | knock k => exact absurd h id
  | _ => exact ⟨rfl, rfl⟩

theorem Effect.KeepsClosed.apply {e : Effect} (h : e.KeepsClosed) {b : Bot} {slug : String}
    (hb : b.Closed slug) : (Store.apply b e).Closed slug := by
  cases e with
  | write w => exact Database.Closed.apply hb (h slug)
  | _ => exact hb

theorem Effect.Quiet.unsigned {e : Effect} (h : e.Quiet) : e.Unsigned := by
  cases e with
  | sign account key bodies => exact absurd h id
  | forget account key => exact absurd h id
  | knock k => exact absurd h id
  | _ => trivial

theorem Effect.Quiet.keepsClosed {e : Effect} (h : e.Quiet) : e.KeepsClosed := by
  cases e with
  | write w =>
    cases w with
    | prepareMarket runId m state => exact absurd h id
    | setMarketState slug state error => exact fun _ hreopens => h hreopens.2
    | _ => exact fun _ hreopens => hreopens
  | _ => trivial

namespace Service

variable {s : Service} {l : Listing}

theorem signedOnce_unsigned {e : Effect} (h : e.Unsigned) (b : Bot) : s.SignedOnce l b e := by
  cases e with
  | sign account key bodies => exact absurd h id
  | knock k => exact absurd h id
  | _ => trivial

theorem Holds.unsigned {e : Effect} (he : e.Unsigned) {b : Bot} {k : Knocked} (h : s.Holds b k) :
    s.Holds (Store.apply b e) k := by
  unfold Holds
  rw [(he.apply b).1]
  exact h

section Invariant

variable (s l)

/-- Every hand-over is keyed as its account's, and those of one account and
market are alike. -/
structure HandedAlike (b : Bot) : Prop where
  keyed : ∀ k ∈ b.knocked, s.Keyed l k
  alike : ∀ k ∈ b.knocked, ∀ k' ∈ b.knocked, k'.account = k.account → k'.slug = k.slug →
    k'.legs = k.legs
  outcomes : ∀ k ∈ b.knocked, ∃ bodies, k.legs = s.entrySubmission.legs bodies

/-- Between the calls each hand-over is held, or its market is closed. -/
structure Accounted (b : Bot) : Prop extends HandedAlike s l b where
  kept : ∀ k ∈ b.knocked, s.Holds b k ∨ b.Closed k.slug

variable {s l}

theorem HandedAlike.apply {b : Bot} (h : s.HandedAlike l b) {e : Effect}
    (he : s.SignedOnce l b e) : s.HandedAlike l (Store.apply b e) := by
  cases e with
  | knock k =>
    obtain ⟨hkeyed, ⟨bodies, -, hlegs⟩, halike⟩ := he
    have hmem : ∀ k' ∈ (Store.apply b (.knock k)).knocked, k' ∈ b.knocked ∨ k' = k := fun k' hk' =>
      (List.mem_append.mp hk').imp_right List.mem_singleton.mp
    refine ⟨fun k' hk' => ?_, fun k₁ h₁ k₂ h₂ haccount hslug => ?_, fun k' hk' => ?_⟩
    · rcases hmem k' hk' with hold | rfl
      · exact h.keyed k' hold
      · exact hkeyed
    · rcases hmem k₁ h₁ with hold₁ | rfl <;> rcases hmem k₂ h₂ with hold₂ | rfl
      · exact h.alike k₁ hold₁ k₂ hold₂ haccount hslug
      · exact (halike k₁ hold₁ haccount.symm hslug.symm).symm
      · exact halike k₂ hold₂ haccount hslug
      · rfl
    · rcases hmem k' hk' with hold | rfl
      · exact h.outcomes k' hold
      · exact ⟨bodies, hlegs⟩
  | _ => exact ⟨h.keyed, h.alike, h.outcomes⟩

/-- A market that can be placed is ready. -/
theorem Accounted.ready {b : Bot} (h : s.Accounted l b) {slug : String}
    (hfree : b.database.canStartEntryPlan slug = true) : s.Ready l slug b where
  keyed := h.keyed
  held k hk hslug := by
    refine (h.kept k hk).resolve_right fun hclosed => ?_
    rw [hslug] at hclosed
    rw [hclosed.cannotStart] at hfree
    cases hfree

/-- Calls and turns that sign nothing and reopen nothing keep the account. -/
theorem Accounted.settle {b : Bot} (h : s.Accounted l b) {effects : List Effect}
    (hunsigned : ∀ e ∈ effects, e.Unsigned) (hclosed : ∀ e ∈ effects, e.KeepsClosed) :
    s.Accounted l (settle b effects) := by
  induction effects generalizing b with
  | nil => exact h
  | cons e effects ih =>
    have hfirst := hunsigned e List.mem_cons_self
    refine ih ⟨h.toHandedAlike.apply (signedOnce_unsigned hfirst b), fun k hk => ?_⟩
      (fun e' he' => hunsigned e' (List.mem_cons_of_mem _ he'))
      fun e' he' => hclosed e' (List.mem_cons_of_mem _ he')
    rw [(hfirst.apply b).2] at hk
    exact (h.kept k hk).imp (fun hheld => hheld.unsigned hfirst) (hclosed e List.mem_cons_self).apply

theorem accounted_boot (db : Database) : s.Accounted l (Bot.boot db) where
  keyed _ hk := absurd hk List.not_mem_nil
  alike _ hk := absurd hk List.not_mem_nil
  outcomes _ hk := absurd hk List.not_mem_nil
  kept _ hk := absurd hk List.not_mem_nil

end Invariant

section Turn

variable {market : Market}

theorem close_unsigned (state : MarketState) (error : Option String) :
    Emits Effect.Unsigned (do
      commit (.popRetry market.slug)
      Action.write (.setMarketState market.slug state error)) :=
  emits_andThen (emits_commit trivial) fun _ => emits_commit trivial

theorem skipMarket_unsigned (reason : String) :
    Emits Effect.Unsigned (s.skipMarket market reason) := by
  unfold skipMarket
  refine emits_andThen (emits_commit trivial) fun _ => ?_
  exact emits_andThen (emits_commit trivial) fun _ => emits_commit trivial

theorem recordOrders_unsigned (orders : List PlacedOrder) (now : ℤ) :
    Emits Effect.Unsigned (recordOrders market orders now) :=
  emits_forEach _ fun _ _ => addOrder_emits trivial

theorem concludePlacement_unsigned (trigger : Trigger) (retry : Option Retry)
    (answers : PlacementAnswers) (orders : List PlacedOrder) (kept gaveUp : Prop) [Decidable kept]
    [Decidable gaveUp] (reason : String) (result : PlacementResult) :
    Emits Effect.Unsigned
      (s.concludePlacement market trigger retry answers orders kept gaveUp reason result) := by
  have hrequeue : Emits Effect.Unsigned
      (requeuePlacement market result retry trigger answers) := by
    unfold requeuePlacement
    split
    · exact emits_return _
    · refine emits_andThen ?_ fun _ => emits_andThen (emits_commit trivial) fun _ => emits_return _
      unfold keepRetry
      split
      · exact emits_andThen (emits_commit trivial) fun _ => emits_commit trivial
      · exact emits_commit trivial
  refine emits_andThen (recordOrders_unsigned orders _) fun _ => ?_
  split
  · exact close_unsigned .active none
  · split
    · exact skipMarket_unsigned _
    · refine emits_andThen hrequeue fun requeued => ?_
      split
      · exact emits_return _
      · exact close_unsigned .error _

theorem placeSolo_signs {x : Exchange} (hfleet : s.fleet = none) (hexchange : s.exchange = some x)
    (hlisted : l.Lists market) (trigger : Trigger) (retry : Option Retry)
    (answers : PlacementAnswers) {b : Bot} (hb : s.Ready l market.slug b) :
    Each (s.SignedOnce l) b ((s.placeSolo x market trigger retry answers).commits b) := by
  refine each_andThen (soloResult_signs hfleet hexchange hlisted answers.solo hb).each
    fun result _ => ?_
  exact (concludePlacement_unsigned trigger retry answers result.orders (result.complete = true)
    (result.gaveUp = true ∧ result.orders = []) _ result).each
      (fun _ he t => signedOnce_unsigned he t) _

theorem placeWithFleet_signs {f : Fleet} (hfleet : s.fleet = some f) (hlisted : l.Lists market)
    (trigger : Trigger) (retry : Option Retry) (knockUntilTs : ℚ) (answers : PlacementAnswers)
    {b : Bot} (hb : s.Ready l market.slug b) :
    Each (s.SignedOnce l) b
      ((s.placeWithFleet f market trigger retry knockUntilTs answers).commits b) := by
  have hplace := (place_signs hfleet hlisted answers.fleet hb).each
  refine each_andThen (each_handle (each_andThen hplace fun _ _ => trivial)
    fun _ _ => trivial) fun placed _ => ?_
  cases placed with
  | error error => exact (close_unsigned .error _).each (fun _ he t => signedOnce_unsigned he t) _
  | ok placement =>
    exact (concludePlacement_unsigned trigger retry answers placement.orders
      (placement.kept.isSome = true) (placement.gaveUp = true) _
      { orders := []
        error := placement.error
        retryable := placement.retryable
        attempts := placement.attempts }).each (fun _ he t => signedOnce_unsigned he t) _

theorem place_signsTurn (hlisted : l.Lists market) (trigger : Trigger) (answers : PlacementAnswers)
    {b : Bot} (hb : s.Ready l market.slug b) :
    Each (s.SignedOnce l) b ((s.place market trigger answers).commits b) := by
  have hskip : ∀ reason t, Each (s.SignedOnce l) t ((s.skipMarket market reason).commits t) :=
    fun reason => (skipMarket_unsigned reason).each fun _ he t => signedOnce_unsigned he t
  unfold place
  simp only [bind_eq]
  refine each_andThen trivial fun retry _ => ?_
  rw [after_read]
  split
  · exact hskip _ b
  · split
    · exact hskip _ b
    · have hfirst : Emits Effect.Unsigned (s.prepareFirst market retry) := by
        unfold prepareFirst
        split
        · exact emits_return _
        · exact emits_commit trivial
      refine each_andThen (hfirst.each (fun _ he t => signedOnce_unsigned he t) b) fun _ _ => ?_
      have hready : s.Ready l market.slug ((s.prepareFirst market retry).after b) := by
        unfold prepareFirst
        split <;> exact ⟨hb.keyed, hb.held⟩
      split
      · have hdry : Emits Effect.Unsigned
            ((recordOrders market (s.simulatedOrders market) answers.recordTs).andThen fun _ =>
              Action.write (.setMarketState market.slug .active none)) :=
          emits_andThen (recordOrders_unsigned _ _) fun _ => emits_commit trivial
        exact hdry.each (fun _ he t => signedOnce_unsigned he t) _
      · rename_i hfleet
        exact placeWithFleet_signs hfleet hlisted trigger retry _ answers hready
      · rename_i hexchange hfleet
        exact placeSolo_signs hfleet hexchange hlisted trigger retry answers hready

theorem considerMarket_signs (hlisted : l.Lists market) (nowTs : ℤ) (trigger : Trigger)
    (orderbookReady : Bool) (answers : PlacementAnswers) {b : Bot} (hb : s.Accounted l b) :
    Each (s.SignedOnce l) b
      ((s.considerMarket market nowTs trigger orderbookReady answers).commits b) := by
  have hunsigned : ∀ {a : Action Unit}, Emits Effect.Unsigned a →
      Each (s.SignedOnce l) b (a.commits b) := fun ha =>
    ha.each (fun _ he t => signedOnce_unsigned he t) b
  obtain ⟨effects, result, hcommits, -, hgoes⟩ :=
    s.considerMarket_goes market nowTs trigger orderbookReady answers b
  rw [hcommits]
  cases hgoes with
  | expired hpast => exact hunsigned (expireMarket_emits market (close_unsigned .expired))
  | skipped reason hfree hmisfit => exact hunsigned (skipMarket_unsigned reason)
  | placed heligible hfree hfits huncapped hbooks =>
    exact place_signsTurn hlisted trigger answers (hb.ready hfree)
  | _ => trivial

variable (s l market)

def OthersKept (b : Bot) : Prop :=
  ∀ k ∈ b.knocked, k.slug ≠ market.slug → s.Keyed l k ∧ (s.Holds b k ∨ b.Closed k.slug)

variable {s l market}

/-- Another market's orders are held under another condition. -/
theorem key_ne (hlisted : l.Lists market) {k : Knocked} (hkeyed : s.Keyed l k)
    (hslug : k.slug ≠ market.slug) {key : SubmissionKey}
    (hkey : key.conditionId = market.conditionId) : k.key ≠ key := by
  rintro rfl
  apply hslug
  apply l.distinct
  rw [← hlisted.1, ← hkey, hkeyed]
  rfl

theorem OthersKept.apply (hlisted : l.Lists market) {b : Bot} (h : s.OthersKept l market b)
    {e : Effect} (he : e.OfTurn market) : s.OthersKept l market (Store.apply b e) := by
  cases e with
  | sign account key bodies =>
    intro k hk hslug
    obtain ⟨hkeyed, hkept⟩ := h k hk hslug
    refine ⟨hkeyed, hkept.imp_left fun ⟨held, hlookup, hlegs⟩ => ⟨held, ?_, hlegs⟩⟩
    have hne : (k.account, k.key) ≠ (account, key) := fun hsame =>
      key_ne hlisted hkeyed hslug he (Prod.mk.inj hsame).2
    exact (AList.lookup_insert_ne hne).trans hlookup
  | forget account key =>
    intro k hk hslug
    obtain ⟨hkeyed, hkept⟩ := h k hk hslug
    refine ⟨hkeyed, hkept.imp_left fun ⟨held, hlookup, hlegs⟩ => ⟨held, ?_, hlegs⟩⟩
    have hne : (k.account, k.key) ≠ (account, key) := fun hsame =>
      key_ne hlisted hkeyed hslug he (Prod.mk.inj hsame).2
    exact (AList.lookup_erase_ne hne).trans hlookup
  | knock k' =>
    intro k hk hslug
    rcases List.mem_append.mp hk with hold | hnew
    · exact h k hold hslug
    · rw [List.mem_singleton.mp hnew] at hslug
      exact absurd he.1 hslug
  | write w =>
    intro k hk hslug
    obtain ⟨hkeyed, hkept⟩ := h k hk hslug
    refine ⟨hkeyed, hkept.imp_right fun hclosed => Database.Closed.apply hclosed ?_⟩
    cases w with
    | prepareMarket runId m state => exact fun hreopens => hslug (hreopens.1.symm.trans (by rw [he.1]))
    | setMarketState slug state error => exact fun hreopens => hslug (hreopens.1.symm.trans he)
    | _ => exact id
  | _ => exact h

theorem considerMarket_others (hlisted : l.Lists market) (nowTs : ℤ) (trigger : Trigger)
    (orderbookReady : Bool) (answers : PlacementAnswers) {b : Bot} (hb : s.Accounted l b) :
    s.OthersKept l market
      ((s.considerMarket market nowTs trigger orderbookReady answers).after b) := by
  have heach : Each (fun _ e => e.OfTurn market) b
      ((s.considerMarket market nowTs trigger orderbookReady answers).commits b) :=
    (s.considerMarket_ofTurn market nowTs trigger orderbookReady answers).each (fun _ he _ => he) b
  exact heach.preserves (s.OthersKept l market) (fun _ _ he ht => ht.apply hlisted he)
    fun k hk _ => ⟨hb.keyed k hk, hb.kept k hk⟩

theorem expireMarket_keepsClosed : Emits Effect.KeepsClosed (expireMarket market) :=
  expireMarket_emits market fun _ => emits_andThen (emits_commit trivial) fun _ =>
    emits_commit fun _ hreopens => absurd hreopens.2 (by decide)

/-- A submission that is to be tried again leaves the market ready. -/
theorem Retryable.ready (hlisted : l.Lists market) {answers : PlacementAnswers} {start mid : Bot}
    (h : s.Retryable market answers start mid) (hstart : s.Ready l market.slug start) :
    s.Ready l market.slug mid := by
  cases h with
  | solo x start r hexchange hfleet hresult hretryable =>
    exact (soloResult_signs hfleet hexchange hlisted answers.solo hstart).returned r hresult hretryable
  | fleet f start r hfleet hresult hretryable =>
    exact (place_signs hfleet hlisted answers.fleet hstart).returned r hresult hretryable

/-- A turn that returned accounts for every hand-over: its own market is
closed, or put back ready. -/
theorem considerMarket_accounted (hlisted : l.Lists market) {nowTs : ℤ} {trigger : Trigger}
    {orderbookReady : Bool} {answers : PlacementAnswers} {b : Bot} (hrooted : b.Rooted)
    (hb : s.Accounted l b) {goOn : Bool}
    (h : (s.considerMarket market nowTs trigger orderbookReady answers).result b = .ok goOn) :
    s.Accounted l ((s.considerMarket market nowTs trigger orderbookReady answers).after b) := by
  have halike : s.HandedAlike l
      ((s.considerMarket market nowTs trigger orderbookReady answers).after b) :=
    (considerMarket_signs hlisted nowTs trigger orderbookReady answers hb).preserves
      (s.HandedAlike l) (fun _ _ he ht => ht.apply he) hb.toHandedAlike
  have hothers := considerMarket_others hlisted nowTs trigger orderbookReady answers hb
  have hown : ∀ t, (∀ k ∈ t.knocked, k.slug = market.slug → s.Holds t k ∨ t.Closed k.slug) →
      t = (s.considerMarket market nowTs trigger orderbookReady answers).after b →
      s.Accounted l t := by
    rintro t hkept rfl
    refine ⟨halike, fun k hk => ?_⟩
    by_cases hslug : k.slug = market.slug
    · exact hkept k hk hslug
    · exact (hothers k hk hslug).2
  cases goOn with
  | false =>
    obtain ⟨-, hsame⟩ := s.considerMarket_false market h
    rw [hsame]
    exact hb
  | true =>
    have hends := s.considerMarket_true market hrooted h
    cases hends with
    | expired hpast hafter =>
      rw [hafter]
      exact hb.settle (expireMarket_emits market (close_unsigned .expired) b) (expireMarket_keepsClosed b)
    | idle hidle hafter =>
      rw [hafter]
      exact hb
    | placed start hfree hbegins hends =>
      refine hown _ (fun k hk hslug => ?_) rfl
      rcases hends with ⟨hclosed, -⟩ | ⟨mid, hretryable, hback⟩
      · exact .inr (hslug ▸ hclosed)
      · have hstart : s.Ready l market.slug start := by
          have hready := hb.ready hfree
          refine ⟨?_, ?_⟩
          · rw [hbegins.knocked]
            exact hready.keyed
          · rw [hbegins.knocked]
            unfold Holds
            rw [hbegins.submissions]
            exact hready.held
        have hmid := hretryable.ready hlisted hstart
        refine .inl ?_
        rw [hback.knocked] at hk
        unfold Holds
        rw [hback.submissions]
        exact hmid.held k hk hslug

end Turn

end Service

namespace ServiceCall

def Listed (l : Listing) : ServiceCall → Prop
  | considerMarket market _ _ _ _ => l.Lists market
  | _ => True

def upTo (s : Service) (b : Bot) (c : ServiceCall) (done : ℕ) : Bot :=
  settle b ((c.effects s b).take done)

variable {s : Service} {l : Listing} {b : Bot} {c : ServiceCall}

theorem signedOnce (hc : c.Listed l) (hb : s.Accounted l b) :
    Each (s.SignedOnce l) b (c.effects s b) := by
  rcases c.effects_cases s b with ⟨market, nowTs, trigger, orderbookReady, answers, rfl⟩ | hquiet
  · exact Service.considerMarket_signs hc nowTs trigger orderbookReady answers hb
  · exact each_of_forall hquiet fun e he t => Service.signedOnce_unsigned he.unsigned t

theorem accounted (hc : c.Listed l) (hreturns : c.Returns s b) (hrooted : b.Rooted)
    (hb : s.Accounted l b) : s.Accounted l (c.after s b) := by
  rcases c.effects_cases s b with ⟨market, nowTs, trigger, orderbookReady, answers, rfl⟩ | hquiet
  · obtain ⟨goOn, hreturned⟩ := hreturns
    exact Service.considerMarket_accounted hc hrooted hb hreturned
  · exact hb.settle (fun e he => (hquiet e he).unsigned) fun e he => (hquiet e he).keepsClosed

end ServiceCall

namespace Service

def ListedCalls (s : Service) (l : Listing) (b b' : Bot) : Prop :=
  ∃ c : ServiceCall, c.Listed l ∧ c.Returns s b ∧ c.after s b = b'

/-- In every state a process lives to. -/
theorem accounted_of_lives {s : Service} {l : Listing} {db : Database} {b : Bot}
    (hlife : Run (s.ListedCalls l) (Bot.boot db) b) : s.Accounted l b := by
  have hboth : b.Rooted ∧ s.Accounted l b := by
    refine run_preserves (fun t => t.Rooted ∧ s.Accounted l t) ?_ hlife
      ⟨Bot.rooted_boot db, accounted_boot db⟩
    rintro t t' ⟨c, hlisted, hreturns, rfl⟩ ⟨hrooted, ht⟩
    have hafter := c.rooted_take s hrooted (c.effects s t).length
    rw [List.take_length] at hafter
    exact ⟨hafter, ServiceCall.accounted hlisted hreturns hrooted ht⟩
  exact hboth.2

/-- In every life of a process, cut short anywhere: all orders its knocks sent
for one account, market and leg are the same, and nothing is signed for a key
after an order of that key was handed to a knock. -/
theorem signed_once (s : Service) (l : Listing) (db : Database) (b : Bot)
    (hlife : Run (s.ListedCalls l) (Bot.boot db) b) (c : ServiceCall) (hc : c.Listed l) (done : ℕ) :
    (∀ k ∈ (c.upTo s b done).knocked, ∀ k' ∈ (c.upTo s b done).knocked,
      k'.account = k.account → k'.slug = k.slug →
        ∀ leg leg', k.Sends leg → k'.Sends leg' → leg'.outcome = leg.outcome →
          leg'.body = leg.body) ∧
    ∀ account key bodies, (c.effects s b)[done]? = some (.sign account key bodies) →
      ∀ k ∈ (c.upTo s b done).knocked, ¬ (k.account = account ∧ k.key = key) := by
  have hb := accounted_of_lives hlife
  have heach := ServiceCall.signedOnce hc hb
  have halike : s.HandedAlike l (c.upTo s b done) :=
    (heach.take done).preserves (s.HandedAlike l) (fun _ _ he ht => ht.apply he) hb.toHandedAlike
  constructor
  · intro k hk k' hk' haccount hslug leg leg' hleg hleg' houtcome
    have hmem : leg' ∈ k.legs := halike.alike k hk k' hk' haccount hslug ▸ hleg'.mem
    obtain ⟨bodies, hlegs⟩ := halike.outcomes k hk
    have hnodup : (k.legs.map Leg.outcome).Nodup := by
      rw [hlegs]
      exact s.entrySubmission.legs_nodup bodies
    rw [List.inj_on_of_nodup_map hnodup hmem hleg.mem houtcome]
  · exact fun account key bodies hsign => heach.at hsign

end Service

def pairListing : Listing where
  conditionId := Equiv.swap "btc-updown-5m-0" "0xc0"
  upTokenId _ := "up-token"
  downTokenId _ := "down-token"
  distinct := Equiv.injective _

def unansweredTurn : ServiceCall :=
  .considerMarket pairMarket 100 (.activation 0 0) true
    (turnAnswers ⟨.ok fun leg => leg.1 ++ "-order", .ok [upUnanswered], .ok (), .ok [], .ok ()⟩)

/-- The market is placed again, and both knocks send the same orders. -/
theorem signed_once_retried :
    let b := unansweredTurn.after pairService (Bot.boot Database.empty)
    let k : Knocked := ⟨"primary", "btc-updown-5m-0", submissionKey pairMarket (1 / 10) 10,
      [⟨"up", "up-order"⟩, ⟨"down", "down-order"⟩]⟩
    (unansweredTurn.upTo pairService b 1).knocked = [k, k] ∧
      ∀ leg leg', k.Sends leg → k.Sends leg' → leg'.outcome = leg.outcome →
        leg'.body = leg.body := by
  intro b k
  have hlisted : unansweredTurn.Listed pairListing := by
    refine ⟨?_, rfl, rfl⟩
    exact (Equiv.swap_apply_left _ _).symm
  have hknocked : (unansweredTurn.upTo pairService b 1).knocked = [k, k] := by
    decide +kernel
  have hlife : Run (pairService.ListedCalls pairListing) (Bot.boot Database.empty) b :=
    .single ⟨unansweredTurn, hlisted, ⟨true, by decide +kernel⟩, rfl⟩
  have hsame := (Service.signed_once pairService pairListing Database.empty b hlife
    unansweredTurn hlisted 1).1 k (by rw [hknocked]; simp) k (by rw [hknocked]; simp) rfl rfl
  exact ⟨hknocked, hsame⟩

end EventQuant
