import EventQuant.Service.HealthGate
import EventQuant.Service.PairPlacement

/-!
No naked leg out of a pending pair. A market that waits for a retry keeps its
update in the queue and its books empty over any run of the loop, and ends the
retry with the pair or with every leg sent its cancel, where no drain adopts an
order for a waiting market and no cap meets a pass that holds its only update.
-/
namespace EventQuant

open Program Store Runs Python

def ServiceCall.listed : ServiceCall → List Value
  | drainReconciliationUpdates updates _ _ =>
    (updates.filter fun update => update.batchError.isNone).flatMap ReconciliationUpdate.openRows
  | _ => []

def Pass.activated (pass : Pass) : List String :=
  (pass.turns.filter fun turn => turn.2.isActivation).map fun turn => turn.1.slug

theorem Pass.activated_cons (market : Market) (trigger : Trigger) (rest : Pass) :
    Pass.activated { rest with turns := (market, trigger) :: rest.turns } =
      if trigger.isActivation then market.slug :: rest.activated else rest.activated := by
  unfold activated
  rw [List.filter_cons]
  split
  · rfl
  · rfl

namespace Bot

def queued (b : Bot) : List String := b.activations.map fun update => update.market.slug

theorem Kept.queued {slug : String} {b b' : Bot} (h : Kept slug b b') : b.queued ⊆ b'.queued :=
  List.map_subset _ h.queue

end Bot

namespace Loop

variable (s : Service) (gammaNeeded : Bool)

def queued (l : Loop) : List String :=
  l.bot.queued ++
    match l.phase with
    | .passing pass => pass.activated
    | .starting market trigger _ rest =>
      Pass.activated { rest with turns := (market, trigger) :: rest.turns }
    | _ => []

/-- The step adopts no order for a waiting market, meets no cap with the only
update of one behind it, and places a market of two tokens. -/
def KeepsPairs (l : Loop) (e : LoopEvent) : Prop :=
  match e, l.phase with
  | .drain c, _ => ∀ raw ∈ c.listed, ∀ slug ∈ s.adoptsInto l.bot.database raw, ¬ l.bot.Waits slug
  | .take answers, .passing pass =>
    ∀ turn ∈ pass.turns.head?, s.Capped turn.1 pass.nowTs answers l.bot →
      ∀ slug ∈ pass.activated, l.bot.Waits slug → slug ∈ l.bot.queued
  | .start _, .starting market _ answers _ =>
    market.upTokenId ≠ market.downTokenId ∧ answers.Sound s.codec
  | _, _ => True

instance (market : Market) (nowTs : ℤ) (answers : PlacementAnswers) (b : Bot) :
    Decidable (s.Capped market nowTs answers b) := by
  unfold Service.Capped
  infer_instance

instance (l : Loop) (e : LoopEvent) : Decidable (l.KeepsPairs s e) := by
  unfold KeepsPairs
  split <;> infer_instance

def Places (l : Loop) : Prop :=
  match l.phase with
  | .starting market trigger answers rest =>
    s.places market rest.nowTs trigger.isActivation answers l.bot.database = true
  | _ => True

instance (phase : Phase) : Decidable (phase = .stopped) :=
  match phase with
  | .stopped => .isTrue rfl
  | .draining => .isFalse nofun
  | .swept => .isFalse nofun
  | .passing _ => .isFalse nofun
  | .starting _ _ _ _ => .isFalse nofun

/-- Every waiting market is pending in the books and still to have its turn. -/
structure Pairs (l : Loop) : Prop where
  linked : l.bot.database.Linked
  places : l.Places s
  pending : ∀ slug, l.bot.Waits slug → l.bot.Pending slug
  queued : ∀ slug, l.bot.Waits slug → slug ∈ l.queued

/-- What a step did to one market. -/
inductive Carried (l l' : Loop) (slug : String) : Prop
  | kept (hkept : Bot.Kept slug l.bot l'.bot)
      (hqueued : l.bot.Waits slug → slug ∈ l.queued → slug ∈ l'.queued)
  | aside (hbefore : ¬ l.bot.Waits slug) (hafter : ¬ l'.bot.Waits slug)
  | again (hpending : l'.bot.Pending slug) (hqueued : slug ∈ l'.queued)
  | ended (hretry : ¬ l'.bot.Waits slug) (hsettled : l'.bot.Settled slug)

def Ends (l l' : Loop) : Prop :=
  ∀ slug, l.bot.Waits slug → ¬ l'.bot.Waits slug → l'.bot.Settled slug

variable {s gammaNeeded}

theorem Pairs.carry {l l' : Loop} (h : l.Pairs s) (hlinked : l'.bot.database.Linked)
    (hplaces : l'.Places s) (hcarried : ∀ slug, Carried l l' slug) : l'.Pairs s ∧ l.Ends l' := by
  refine ⟨⟨hlinked, hplaces, fun slug hwaits => ?_, fun slug hwaits => ?_⟩, fun slug hwaits hover => ?_⟩
  · cases hcarried slug with
    | kept hkept hqueued => exact hkept.pending (h.pending slug (hkept.waits_iff.mp hwaits))
    | aside hbefore hafter => exact absurd hwaits hafter
    | again hpending hqueued => exact hpending
    | ended hretry hsettled => exact absurd hwaits hretry
  · cases hcarried slug with
    | kept hkept hqueued =>
      have hbefore := hkept.waits_iff.mp hwaits
      exact hqueued hbefore (h.queued slug hbefore)
    | aside hbefore hafter => exact absurd hwaits hafter
    | again hpending hqueued => exact hqueued
    | ended hretry hsettled => exact absurd hwaits hretry
  · cases hcarried slug with
    | kept hkept hqueued => exact absurd (hkept.waits_iff.mpr hwaits) hover
    | aside hbefore hafter => exact absurd hwaits hbefore
    | again hpending hqueued => exact Bot.settled_of_noOrders hpending.empty
    | ended hretry hsettled => exact hsettled

/-- A step that leaves the bot as it is and the queue with its markets. -/
theorem Pairs.idle {l l' : Loop} (h : l.Pairs s) (hbot : l'.bot = l.bot) (hplaces : l'.Places s)
    (hqueued : ∀ slug, l.bot.Waits slug → slug ∈ l.queued → slug ∈ l'.queued) :
    l'.Pairs s ∧ l.Ends l' :=
  h.carry (hbot ▸ h.linked) hplaces fun slug => .kept (hbot ▸ .refl _) (hqueued slug)

end Loop

namespace Service

variable (s : Service)

/-- What a turn that does not come to its placement comes to: the market's end
without an order written, nothing, or a cap. -/
inductive Unplaced (market : Market) (nowTs : ℤ) (orderbookReady : Bool) (answers : PlacementAnswers)
    (b b' : Bot) : Bool → Prop
  | ended (hretry : ¬ b'.Waits market.slug) (horders : b'.database.orders = b.database.orders) :
      Unplaced market nowTs orderbookReady answers b b' true
  | idle (hsame : b' = b)
      (hnot : b.database.canStartEntryPlan market.slug = false ∨ orderbookReady = false) :
      Unplaced market nowTs orderbookReady answers b b' true
  | capped (hsame : b' = b) (hcapped : s.Capped market nowTs answers b) :
      Unplaced market nowTs orderbookReady answers b b' false

theorem considerMarket_unplaced {market : Market} {nowTs : ℤ} {trigger : Trigger}
    {orderbookReady : Bool} {answers : PlacementAnswers} {b : Bot} {goOn : Bool}
    (hplaces : s.places market nowTs orderbookReady answers b.database = false)
    (h : (s.considerMarket market nowTs trigger orderbookReady answers).result b = .ok goOn) :
    s.Unplaced market nowTs orderbookReady answers b
      ((s.considerMarket market nowTs trigger orderbookReady answers).after b) goOn := by
  obtain ⟨effects, result, hcommits, hresult, hgoes⟩ :=
    s.considerMarket_goes market nowTs trigger orderbookReady answers b
  rw [hresult] at h
  rw [after, hcommits]
  cases hgoes with
  | expired hpast =>
    obtain rfl := Except.ok.inj h
    change s.Unplaced market nowTs orderbookReady answers b ((expireMarket market).after b) true
    unfold expireMarket
    simp only [bind_eq]
    rw [after_andThen_ok (result_read b _), after_read]
    cases hretry : b.retries.lookup market.slug with
    | none =>
      refine .ended (fun hwaits => ?_) rfl
      change (b.retries.lookup market.slug).isSome = true at hwaits
      rw [hretry] at hwaits
      cases hwaits
    | some retry => exact .ended (not_waits_popRetry b market.slug) rfl
  | shut hshut =>
    obtain rfl := Except.ok.inj h
    exact .idle rfl (.inl hshut)
  | unread e hmisfit => cases h
  | skipped reason hfree hmisfit =>
    obtain rfl := Except.ok.inj h
    refine .ended (not_waits_popRetry b market.slug) ?_
    show ((b.database.apply (.prepareMarket s.runId market .skipped)).apply
      (.setMarketState market.slug .skipped (some reason))).orders = _
    simp only [Database.apply]
    split
    · rfl
    · rfl
  | capped heligible hfree hfits hcapped =>
    obtain rfl := Except.ok.inj h
    exact .capped rfl ⟨heligible, hfree, hfits, hcapped⟩
  | closed hclosed =>
    obtain rfl := Except.ok.inj h
    simp only [Bool.and_eq_true, Bool.not_eq_true'] at hclosed
    exact .idle rfl (.inr hclosed.1.2)
  | placed heligible hfree hfits huncapped hbooks =>
    -- every test was passed, which is what `places` asks
    simp only [places, heligible, hfree, hfits, huncapped, hbooks] at hplaces
    cases hplaces

end Service

/-- Markets that stay and no order for a market that has no row: the rows still
refer to each other. -/
theorem Database.Linked.of_noOrders {db db' : Database} (h : db.Linked)
    (hgrow : ∀ slug, db.hasMarket slug = true → db'.hasMarket slug = true)
    (hnone : ∀ slug, db'.hasMarket slug = false → db.NoOrders slug → db'.NoOrders slug) :
    db'.Linked := by
  intro orderId row hrow
  by_contra hmarket
  rw [Bool.not_eq_true] at hmarket
  have hbefore : db.NoOrders row.slug := by
    intro r hr hslug
    have hold := h r.orderId r (Table.get?_of_mem hr)
    rw [hslug] at hold
    rw [hgrow row.slug hold] at hmarket
    cases hmarket
  exact hnone row.slug hmarket hbefore row (Table.get?_mem hrow) rfl

/-- A drain takes no order for a market that is not in the books. -/
theorem Service.adoptsInto_market (s : Service) {db : Database} {raw : Value} {slug : String}
    (h : s.adoptsInto db raw = some slug) : db.hasMarket slug = true := by
  unfold adoptsInto at h
  split at h
  · rename_i slug' o hadoptable
    obtain rfl := Option.some.inj h
    obtain ⟨market, rfl, hadopted⟩ := adoptable_some hadoptable
    rw [Database.hasMarket, Table.get?_of_mem (List.mem_of_find?_eq_some hadopted.onMarket)]
    rfl
  · cases h

namespace ServiceCall

variable {s : Service} {b : Bot} {c : ServiceCall}

/-- A drain keeps a market without orders that it adopts none for. -/
theorem drain_kept (hdrain : c.isDrain = true) {slug : String} (hempty : b.database.NoOrders slug)
    (hnone : ∀ raw ∈ c.listed, s.adoptsInto b.database raw ≠ some slug) :
    Bot.Kept slug b (c.after s b) := by
  cases c with
  | drainReconciliationUpdates updates nowTs answers =>
    refine s.drainReconciliationUpdates_kept nowTs answers hempty fun update hupdate hbatch raw hraw => ?_
    refine hnone raw (List.mem_flatMap.mpr ⟨update, List.mem_filter.mpr ⟨hupdate, ?_⟩, hraw⟩)
    rw [hbatch]
    rfl
  | drainUserStreamUpdates updates nowTs answers =>
    exact s.drainUserStreamUpdates_kept updates nowTs answers hempty
  | _ => cases hdrain

theorem drain_linked (hdrain : c.isDrain = true) (h : b.database.Linked) :
    (c.after s b).database.Linked := by
  refine h.of_noOrders (fun slug hmarket => Bot.hasMarket_settle hmarket _) fun slug hnone hempty => ?_
  refine (drain_kept hdrain hempty fun raw _ hadopts => ?_).empty hempty
  have hmarket := Bot.hasMarket_settle (s.adoptsInto_market hadopts) (c.effects s b)
  change (c.after s b).database.hasMarket slug = true at hmarket
  rw [hmarket] at hnone
  cases hnone

/-- A drain keeps every retry as it is. -/
theorem drain_retries (hdrain : c.isDrain = true) : (c.after s b).retries = b.retries := by
  have hquiet : ∀ e ∈ c.effects s b, e.Quiet := by
    cases c with
    | drainReconciliationUpdates updates nowTs answers =>
      exact s.drainReconciliationUpdates_quiet updates nowTs answers b
    | drainUserStreamUpdates updates nowTs answers =>
      exact s.drainUserStreamUpdates_quiet updates nowTs answers b
    | _ => cases hdrain
  have heach : Each (fun _ e => Effect.Quiet e) b (c.effects s b) :=
    each_of_forall hquiet fun _ he _ => he
  refine heach.preserves (fun t => t.retries = b.retries) (fun t e he ht => ?_) rfl
  cases e with
  | setRetry slug retry => exact absurd he id
  | popRetry slug => exact absurd he id
  | _ => exact ht

end ServiceCall

namespace Loop

variable {s : Service} {gammaNeeded : Bool}

/-- What another market's turn does to a market, and to its place in the pass. -/
theorem carried_other {l l' : Loop} {market : Market} {trigger : Trigger} {rest : Pass} {slug : String}
    (hother : market.slug ≠ slug) (hkept : Bot.Kept slug l.bot l'.bot)
    (hbefore : l.queued = l.bot.queued ++
      Pass.activated { rest with turns := (market, trigger) :: rest.turns })
    (hafter : l'.queued = l'.bot.queued ++ rest.activated) : Carried l l' slug := by
  refine .kept hkept fun _ hmem => ?_
  rw [hbefore, Pass.activated_cons] at hmem
  rw [hafter]
  refine List.mem_append.mpr ((List.mem_append.mp hmem).imp (fun h => hkept.queued h) fun h => ?_)
  split at h
  · exact (List.mem_cons.mp h).resolve_left (Ne.symm hother)
  · exact h

/-- A turn taken up to its placement, or to where it ends without one. -/
theorem Pairs.take {l : Loop} (h : l.Pairs s) {market : Market} {trigger : Trigger} {rest : Pass}
    (hphase : l.phase = .passing { rest with turns := (market, trigger) :: rest.turns })
    {answers : PlacementAnswers}
    (hcap : s.Capped market rest.nowTs answers l.bot →
      ∀ slug ∈ Pass.activated { rest with turns := (market, trigger) :: rest.turns },
        l.bot.Waits slug → slug ∈ l.bot.queued)
    (hruns : (l.takeTurn s answers market trigger rest).phase ≠ .stopped) :
    (l.takeTurn s answers market trigger rest).Pairs s ∧
      l.Ends (l.takeTurn s answers market trigger rest) := by
  have hqueued : l.queued = l.bot.queued ++
      Pass.activated { rest with turns := (market, trigger) :: rest.turns } := by
    simp only [Loop.queued, hphase]
  by_cases hplaces : s.places market rest.nowTs trigger.isActivation answers l.bot.database = true
  · have hnext : l.takeTurn s answers market trigger rest =
        { l with phase := .starting market trigger answers rest } := if_pos hplaces
    rw [hnext]
    refine h.idle rfl hplaces fun slug _ hmem => ?_
    rw [hqueued] at hmem
    exact hmem
  · rw [Bool.not_eq_true] at hplaces
    set turn := s.considerMarket market rest.nowTs trigger trigger.isActivation answers with hturn
    cases hresult : turn.result l.bot with
    | error e =>
      simp [takeTurn, hplaces, ← hturn, hresult] at hruns
    | ok goOn =>
      have hended := s.considerMarket_unplaced hplaces hresult
      rw [← hturn] at hended
      have hkept : ∀ slug, market.slug ≠ slug → Bot.Kept slug l.bot (turn.after l.bot) :=
        fun slug hother => s.considerMarket_kept rest.nowTs trigger _ answers hother l.bot
      cases hended with
      | ended hretry horders =>
        have hnext : l.takeTurn s answers market trigger rest =
            { l with bot := turn.after l.bot, phase := .passing rest } := by
          simp [takeTurn, hplaces, ← hturn, hresult]
        rw [hnext]
        have hlinked : (turn.after l.bot).database.Linked := by
          refine h.linked.of_noOrders (fun slug hmarket => Bot.hasMarket_settle hmarket _)
            fun slug _ hempty => ?_
          unfold Database.NoOrders
          rw [horders]
          exact hempty
        refine h.carry hlinked trivial fun slug => ?_
        by_cases hown : market.slug = slug
        · subst hown
          by_cases hwaits : l.bot.Waits market.slug
          · refine .ended hretry (Bot.settled_of_noOrders ?_)
            unfold Database.NoOrders
            rw [horders]
            exact (h.pending market.slug hwaits).empty
          · exact .aside hwaits hretry
        · exact carried_other hown (hkept slug hown) hqueued rfl
      | idle hsame hnot =>
        have hnext : l.takeTurn s answers market trigger rest = { l with phase := .passing rest } := by
          simp [takeTurn, hplaces, ← hturn, hresult, hsame]
        rw [hnext]
        refine h.idle rfl trivial fun slug hwaits hmem => ?_
        rw [hqueued, Pass.activated_cons] at hmem
        refine List.mem_append.mpr ((List.mem_append.mp hmem).imp_right fun hmem => ?_)
        split at hmem
        · rename_i htrigger
          rcases List.mem_cons.mp hmem with rfl | hmem
          · -- the turn of a waiting market is not idle
            rw [(h.pending market.slug hwaits).canStart, htrigger] at hnot
            simp at hnot
          · exact hmem
        · exact hmem
      | capped hsame hcapped =>
        have hnext : l.takeTurn s answers market trigger rest =
            { l with phase := .passing { rest with turns := [] } } := by
          simp [takeTurn, hplaces, ← hturn, hresult, hsame]
        rw [hnext]
        refine h.idle rfl trivial fun slug hwaits hmem => List.mem_append_left _ ?_
        rw [hqueued] at hmem
        rcases List.mem_append.mp hmem with hmem | hmem
        · exact hmem
        · exact hcap hcapped slug hmem hwaits

/-- A placement ends its market's retry, or puts the market back. -/
theorem Pairs.start {l : Loop} (hlive : s.live = true) (hpaired : s.entrySubmission = .single)
    (h : l.Pairs s) {market : Market} {trigger : Trigger} {answers : PlacementAnswers} {rest : Pass}
    (hphase : l.phase = .starting market trigger answers rest)
    (htokens : market.upTokenId ≠ market.downTokenId) (hsound : answers.Sound s.codec) {l' : Loop}
    (hreturned : (s.place market trigger answers).result l.bot = .ok ())
    (hbot : l'.bot = (s.place market trigger answers).after l.bot) (hafter : l'.phase = .passing rest) :
    l'.Pairs s ∧ l.Ends l' := by
  have hplaces := h.places
  simp only [Places, hphase] at hplaces
  have hempty : l.bot.database.NoOrders market.slug := by
    refine Database.noOrders_of_canStart h.linked ?_
    simp only [Service.places, Bool.and_eq_true] at hplaces
    exact hplaces.1.1.1.2
  have hconcluded := s.place_concluded hlive hpaired htokens hsound hempty (h.pending market.slug)
    hreturned
  rw [← hbot] at hconcluded
  have hkept : ∀ slug, market.slug ≠ slug → Bot.Kept slug l.bot l'.bot := by
    intro slug hother
    rw [hbot]
    exact Bot.kept_settle fun e he => (s.place_ofTurn market trigger answers l.bot e he).spares hother
  have hrow : l'.bot.database.hasMarket market.slug = true := by
    cases hconcluded with
    | ended hretry hrow hsettled => exact hrow
    | again hpending hqueued =>
      obtain ⟨row, hrow, -⟩ := hpending.state
      simp [Database.hasMarket, hrow]
  have hlinked : l'.bot.database.Linked := by
    refine h.linked.of_noOrders (fun slug hmarket => ?_) fun slug hnone hempty => ?_
    · rw [hbot]
      exact Bot.hasMarket_settle hmarket _
    · by_cases hown : market.slug = slug
      · subst hown
        rw [hrow] at hnone
        cases hnone
      · exact (hkept slug hown).empty hempty
  have hqueued : l'.queued = l'.bot.queued ++ rest.activated := by simp only [Loop.queued, hafter]
  have hplaces' : l'.Places s := by
    simp only [Places, hafter]
  refine h.carry hlinked hplaces' fun slug => ?_
  by_cases hown : market.slug = slug
  · subst hown
    cases hconcluded with
    | ended hretry hrow hsettled => exact .ended hretry hsettled
    | again hpending hback =>
      obtain ⟨update, hupdate, hslug⟩ := hback
      refine .again hpending ?_
      rw [hqueued]
      exact List.mem_append_left _ (List.mem_map.mpr ⟨update, hupdate, hslug⟩)
  · have hbefore : l.queued = l.bot.queued ++
        Pass.activated { rest with turns := (market, trigger) :: rest.turns } := by
      simp only [Loop.queued, hphase]
    exact carried_other hown (hkept slug hown) hbefore hqueued

/-- Where a step leaves the loop running, every waiting market keeps its place,
and every retry it ends leaves its market settled. -/
theorem Pairs.next {l : Loop} (hlive : s.live = true) (hpaired : s.entrySubmission = .single)
    (h : l.Pairs s) {e : LoopEvent} (he : l.KeepsPairs s e)
    (hruns : (l.next s gammaNeeded e).phase ≠ .stopped) :
    (l.next s gammaNeeded e).Pairs s ∧ l.Ends (l.next s gammaNeeded e) := by
  have hsame : l.Pairs s ∧ l.Ends l := h.idle rfl h.places fun _ _ hmem => hmem
  cases e with
  | elapse seconds => exact h.idle rfl h.places fun _ _ hmem => hmem
  | geoblockRunOnce answer => exact h.idle rfl h.places fun _ _ hmem => hmem
  | streamSetHealth healthy => exact h.idle rfl h.places fun _ _ hmem => hmem
  | streamStopped => exact h.idle rfl h.places fun _ _ hmem => hmem
  | activate update =>
    cases hphase : l.phase with
    | draining =>
      simp only [Loop.next, hphase]
      have hspares : ∀ slug, Effect.Spares slug (.enqueue update) := fun _ => trivial
      refine h.carry h.linked trivial fun slug => .kept ((hspares slug).kept l.bot) fun _ hmem => ?_
      simp only [Loop.queued, hphase, List.append_nil] at hmem ⊢
      exact ((hspares slug).kept l.bot).queued hmem
    | _ => simpa only [Loop.next, hphase] using hsame
  | drain c =>
    cases hphase : l.phase with
    | draining =>
      by_cases hdrain : c.isDrain = true
      · simp only [Loop.next, hphase, if_pos hdrain]
        have hretries : (c.after s l.bot).retries = l.bot.retries := ServiceCall.drain_retries hdrain
        refine h.carry (ServiceCall.drain_linked hdrain h.linked) trivial fun slug => ?_
        by_cases hwaits : l.bot.Waits slug
        · have hkept : Bot.Kept slug l.bot (c.after s l.bot) := by
            refine ServiceCall.drain_kept hdrain (h.pending slug hwaits).empty fun raw hraw hadopts => ?_
            exact he raw hraw slug hadopts hwaits
          refine .kept hkept fun _ hmem => ?_
          simp only [Loop.queued, hphase, List.append_nil] at hmem ⊢
          exact hkept.queued hmem
        · refine .aside hwaits fun hafter => hwaits ?_
          unfold Bot.Waits at hafter ⊢
          rwa [hretries] at hafter
      · simpa only [Loop.next, hphase, if_neg hdrain] using hsame
    | _ => simpa only [Loop.next, hphase] using hsame
  | drainGeoblock =>
    cases hphase : l.phase with
    | draining =>
      by_cases hblocked : l.geoblock.updates.any GeoblockUpdate.blocked = true
      · simp only [Loop.next, hphase, if_pos hblocked, ne_eq, not_true_eq_false] at hruns
      · simp only [Loop.next, hphase, if_neg hblocked]
        refine h.idle rfl trivial fun slug _ hmem => ?_
        simp only [Loop.queued, hphase] at hmem ⊢
        exact hmem
    | _ => simpa only [Loop.next, hphase] using hsame
  | sweep answers =>
    cases hphase : l.phase with
    | draining =>
      simp only [Loop.next, hphase]
      have hkept : ∀ slug, Bot.Kept slug l.bot ((s.cancelDueOrders l.clock answers).after l.bot) :=
        fun slug => s.cancelDueOrders_kept l.clock answers slug l.bot
      have hlinked : ((s.cancelDueOrders l.clock answers).after l.bot).database.Linked :=
        h.linked.of_noOrders (fun slug hmarket => Bot.hasMarket_settle hmarket _)
          fun slug _ hempty => (hkept slug).empty hempty
      refine h.carry hlinked trivial fun slug => .kept (hkept slug) fun _ hmem => ?_
      simp only [Loop.queued, hphase, List.append_nil] at hmem ⊢
      exact (hkept slug).queued hmem
    | _ => simpa only [Loop.next, hphase] using hsame
  | check =>
    cases hphase : l.phase with
    | swept =>
      by_cases hhealthy : s.healthyWith l.geoblock.healthy l.stream.healthy = true
      · simp only [Loop.next, hphase, if_pos hhealthy]
        -- the queue is taken whole: its markets are those of the pass
        have hpending : ∀ slug, l.bot.Waits slug → (l.bot.apply .takeActivations).Pending slug :=
          fun slug hwaits => ⟨(h.pending slug hwaits).state, (h.pending slug hwaits).empty⟩
        refine ⟨⟨h.linked, trivial, hpending, fun slug hwaits => ?_⟩,
          fun slug hwaits hended => absurd hwaits hended⟩
        have hmem := h.queued slug hwaits
        simp only [Loop.queued, hphase, List.append_nil] at hmem ⊢
        refine List.mem_append_right _ ?_
        obtain ⟨update, hupdate, rfl⟩ := List.mem_map.mp hmem
        refine List.mem_map.mpr ⟨_, List.mem_filter.mpr ⟨List.mem_map.mpr ⟨update, hupdate, rfl⟩, rfl⟩, rfl⟩
      · simp only [Loop.next, hphase, if_neg hhealthy]
        refine h.idle rfl trivial fun slug _ hmem => ?_
        simp only [Loop.queued, hphase] at hmem ⊢
        exact hmem
    | _ => simpa only [Loop.next, hphase] using hsame
  | take answers =>
    cases hphase : l.phase with
    | passing pass =>
      obtain ⟨turns, nowTs, discovery⟩ := pass
      cases turns with
      | nil => simpa only [Loop.next, hphase] using hsame
      | cons turn turns =>
        obtain ⟨market, trigger⟩ := turn
        simp only [KeepsPairs, hphase] at he
        simp only [Loop.next, hphase] at hruns ⊢
        exact h.take hphase (he (market, trigger) rfl) hruns
    | _ => simpa only [Loop.next, hphase] using hsame
  | start held =>
    cases hphase : l.phase with
    | starting market trigger answers rest =>
      simp only [KeepsPairs, hphase] at he
      simp only [Loop.next, hphase] at hruns ⊢
      cases hreturned : (s.place market trigger answers).result l.bot with
      | error e => simp [hreturned] at hruns
      | ok done => exact h.start hlive hpaired hphase he.1 he.2 hreturned rfl rfl
    | _ => simpa only [Loop.next, hphase] using hsame
  | discover markets =>
    cases hphase : l.phase with
    | passing pass =>
      obtain ⟨turns, nowTs, discovery⟩ := pass
      cases turns with
      | nil =>
        cases discovery with
        | true =>
          simp only [Loop.next, hphase]
          refine h.idle rfl trivial fun slug _ hmem => ?_
          simp only [Loop.queued, hphase] at hmem ⊢
          exact List.mem_append.mpr ((List.mem_append.mp hmem).imp_right fun hmem =>
            absurd hmem List.not_mem_nil)
        | false => simpa only [Loop.next, hphase] using hsame
      | cons turn turns => simpa only [Loop.next, hphase] using hsame
    | _ => simpa only [Loop.next, hphase] using hsame
  | endTick =>
    cases hphase : l.phase with
    | passing pass =>
      obtain ⟨turns, nowTs, discovery⟩ := pass
      cases turns with
      | nil =>
        simp only [Loop.next, hphase]
        refine h.idle rfl trivial fun slug _ hmem => ?_
        simp only [Loop.queued, hphase] at hmem ⊢
        exact hmem
      | cons turn turns => simpa only [Loop.next, hphase] using hsame
    | _ => simpa only [Loop.next, hphase] using hsame

/-- A loop that has stopped stays so. -/
theorem next_stopped {l : Loop} (h : l.phase = .stopped) (e : LoopEvent) :
    (l.next s gammaNeeded e).phase = .stopped := by
  cases e <;> simp only [Loop.next, h]

/-- A dry run keeps no retry. -/
theorem Commits.dry (hdry : s.live = false) {b : Bot} {commits : List Effect} (h : Commits s b commits) :
    ∀ e ∈ commits, ∀ slug retry, e ≠ .setRetry slug retry := by
  have hexchange : s.exchange = none := by
    unfold Service.exchange
    rw [hdry]
    rfl
  have hquiet : ∀ e : Effect, e.Quiet → ∀ slug retry, e ≠ .setRetry slug retry := by
    rintro e he slug retry rfl
    exact he
  have hwrite : ∀ w, Emits (fun e => ∀ slug retry, e ≠ .setRetry slug retry) (Action.write w) :=
    fun w => emits_commit nofun
  have hskip : ∀ market reason, Emits (fun e => ∀ slug retry, e ≠ .setRetry slug retry)
      (s.skipMarket market reason) := fun market reason =>
    emits_andThen (emits_commit nofun) fun _ => emits_andThen (hwrite _) fun _ => hwrite _
  have hplace : ∀ market trigger answers, Emits (fun e => ∀ slug retry, e ≠ .setRetry slug retry)
      (s.place market trigger answers) := by
    intro market trigger answers
    unfold Service.place
    simp only [bind_eq]
    refine emits_andThen (emits_read _) fun retry => ?_
    split
    · exact hskip market _
    · split
      · exact hskip market _
      · have hfirst : Emits (fun e => ∀ slug retry, e ≠ .setRetry slug retry)
            (s.prepareFirst market retry) := by
          unfold Service.prepareFirst
          split
          · exact emits_return _
          · exact hwrite _
        refine emits_andThen hfirst fun _ => ?_
        rw [hexchange]
        refine emits_andThen (emits_forEach _ fun o _ => ?_) fun _ => hwrite _
        exact Service.addOrder_emits nofun
  cases h with
  | nothing => exact fun e he => absurd he List.not_mem_nil
  | activate update =>
    intro e he
    rw [List.mem_singleton.mp he]
    exact nofun
  | drain c hdrain =>
    intro e he
    refine hquiet e ?_
    cases c with
    | drainReconciliationUpdates updates nowTs answers =>
      exact s.drainReconciliationUpdates_quiet updates nowTs answers b e he
    | drainUserStreamUpdates updates nowTs answers =>
      exact s.drainUserStreamUpdates_quiet updates nowTs answers b e he
    | _ => cases hdrain
  | sweep reading answers => exact fun e he => hquiet e (s.cancelDueOrders_quiet reading answers b e he)
  | check =>
    intro e he
    rw [List.mem_singleton.mp he]
    exact nofun
  | turn market nowTs trigger orderbookReady answers =>
    have hexpire : Emits (fun e => ∀ slug retry, e ≠ .setRetry slug retry)
        (Service.expireMarket market) :=
      Service.expireMarket_emits market fun _ => emits_andThen (emits_commit nofun) fun _ => hwrite _
    exact s.considerMarket_emits market hexpire (hskip market) nowTs trigger orderbookReady answers
      (hplace market trigger answers) b
  | place market trigger answers => exact hplace market trigger answers b

/-- No market waits in a dry run. -/
theorem dry_waits (hdry : s.live = false) {l : Loop} (h : ∀ slug, ¬ l.bot.Waits slug) (e : LoopEvent)
    (slug : String) : ¬ (l.next s gammaNeeded e).bot.Waits slug := by
  obtain ⟨commits, hcommits, hbot⟩ := l.next_commits s gammaNeeded e
  rw [hbot]
  have heach : Each (fun _ e => ∀ slug retry, e ≠ Effect.setRetry slug retry) l.bot commits :=
    each_of_forall (hcommits.dry hdry) fun _ he _ => he
  refine heach.preserves (fun t => ¬ t.Waits slug) (fun t e he ht => ?_) (h slug)
  cases e with
  | setRetry slug' retry => exact absurd rfl (he slug' retry)
  | popRetry slug' =>
    intro hwaits
    by_cases hslug : slug = slug'
    · subst hslug
      exact Service.not_waits_popRetry t slug hwaits
    · change ((t.retries.erase slug').lookup slug).isSome = true at hwaits
      rw [AList.lookup_erase_ne hslug] at hwaits
      exact ht hwaits
  | _ => exact ht

/-- Of a run that trades pairs, however its placements, drains and sweeps come
after one another: while the loop runs, each market that waits for a retry has
an update in the queue or in the pass under way and no order written down, and
a step that ends a retry leaves every order of its market one of its account's
two legs or sent its cancel. -/
theorem no_naked_leg (s : Service) (gammaNeeded : Bool) (hpaired : s.entrySubmission = .single)
    (db : Database) (hdb : db.Linked) (clock : ℚ) (l : Loop)
    (hrun : Run (Guarded (KeepsPairs s) (next s gammaNeeded)) (init (Bot.boot db) clock) l)
    (hruns : l.phase ≠ .stopped) :
    (∀ slug, l.bot.Waits slug → slug ∈ l.queued ∧ l.bot.database.NoOrders slug) ∧
      ∀ e, l.KeepsPairs s e → (l.next s gammaNeeded e).phase ≠ .stopped →
        l.Ends (l.next s gammaNeeded e) := by
  have hboot : ∀ slug, ¬ (Bot.boot db).Waits slug := by
    intro slug hwaits
    change ((∅ : AList fun _ : String => Retry).lookup slug).isSome = true at hwaits
    rw [AList.lookup_empty] at hwaits
    cases hwaits
  cases hlive : s.live with
  | false =>
    have hnone : ∀ slug, ¬ l.bot.Waits slug := by
      refine run_preserves (fun l => ∀ slug, ¬ l.bot.Waits slug) ?_ hrun hboot
      rintro u v ⟨e, -, rfl⟩ hu
      exact dry_waits hlive hu e
    exact ⟨fun slug hwaits => absurd hwaits (hnone slug), fun e _ _ slug hwaits =>
      absurd hwaits (hnone slug)⟩
  | true =>
    have hpairs : l.phase ≠ .stopped → l.Pairs s := by
      refine run_preserves (fun l => l.phase ≠ .stopped → l.Pairs s) ?_ hrun fun _ => ?_
      · rintro u v ⟨e, he, rfl⟩ hu hv
        have hu' : u.phase ≠ .stopped := fun hstopped => hv (next_stopped hstopped e)
        exact ((hu hu').next hlive hpaired he hv).1
      · exact ⟨hdb, trivial, fun slug hwaits => absurd hwaits (hboot slug),
          fun slug hwaits => absurd hwaits (hboot slug)⟩
    have h := hpairs hruns
    exact ⟨fun slug hwaits => ⟨h.queued slug hwaits, (h.pending slug hwaits).empty⟩,
      fun e he hnext => (h.next hlive hpaired he hnext).2⟩

end Loop

def toTurns : List LoopEvent := [.sweep fun _ => .ok .null, .check]

def doubtedPair (between : List LoopEvent) : List LoopEvent :=
  [.geoblockRunOnce (.ok (.object [("blocked", .bool false)])), .streamSetHealth true,
    .activate pairUpdate] ++ toTurns ++ [.take (pairTurn upUnanswered []), .start 1, .endTick] ++
  between ++ toTurns ++ [.take (pairTurn (bothRegistered "primary") [])]

def listingDrain (rows : List Value) : LoopEvent :=
  .drain (.drainReconciliationUpdates [⟨[], none, rows⟩] 1 unansweredLadder)

/-- A round that lists nothing comes between the attempts: the market waits until
its turn, and the second attempt ends its retry with both legs. -/
theorem no_naked_leg_retried :
    let l := (doubtedPair [listingDrain []]).foldl (Loop.next pairService false)
      (Loop.init (Bot.boot Database.empty) 0)
    let l' := l.next pairService false (.start 1)
    (l.bot.Waits pairMarket.slug ∧ pairMarket.slug ∈ l.queued) ∧
      ¬ l'.bot.Waits pairMarket.slug ∧ l'.bot.Settled pairMarket.slug ∧
      l'.bot.database.orders.rows.map OrderRow.outcome = pairLegs := by
  intro l l'
  have hrun : Run (Guarded (Loop.KeepsPairs pairService) (Loop.next pairService false))
      (Loop.init (Bot.boot Database.empty) 0) l := run_of_meets (by decide +kernel)
  have hwaits : l.bot.Waits pairMarket.slug := by decide +kernel
  have hended : ¬ l'.bot.Waits pairMarket.slug := by decide +kernel
  have h := Loop.no_naked_leg pairService false rfl Database.empty (fun _ _ hrow => nomatch hrow) 0 l
    hrun (by decide +kernel)
  refine ⟨⟨hwaits, (h.1 _ hwaits).1⟩, hended, ?_, by decide +kernel⟩
  exact h.2 (.start 1) (by decide +kernel) (by decide +kernel) _ hwaits hended

/-- The round lists the up order of the first attempt: it is written down for
the waiting market, whose next turn is none and takes its update for good. The
retry stays, the leg stands alone and nothing cancels it. -/
theorem adopted_leg_naked :
    let l := (doubtedPair [listingDrain [upListing "BUY" "0.1"]]).foldl (Loop.next pairService false)
      (Loop.init (Bot.boot Database.empty) 0)
    l.phase ≠ .stopped ∧ l.bot.Waits pairMarket.slug ∧ pairMarket.slug ∉ l.queued ∧
      ¬ l.bot.database.NoOrders pairMarket.slug ∧ ¬ l.bot.Settled pairMarket.slug ∧
      l.bot.database.orders.rows.map OrderRow.outcome = ["up"] := by
  decide +kernel

end EventQuant
