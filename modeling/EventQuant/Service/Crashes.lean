import EventQuant.Service.Lives
import EventQuant.Service.SignedOnce

/-!
Runs over one database, each a process that ends anywhere. A market's row says
that it is being placed before its first entry is sent; it says pending again
only while the process keeps a retry for it. So a market that an entry was sent
for is shut to every later run, unless its process ended while it was being
retried.
-/
namespace EventQuant

open Program Store Runs

namespace Database

def OwnRow (db : Database) : Write → Prop
  | .addOrder _ slug order => ∀ r ∈ db.orders.rows, r.orderId = order.orderId → r.slug = slug
  | _ => True

instance (db : Database) (w : Write) : Decidable (db.OwnRow w) := by
  unfold OwnRow
  split <;> infer_instance

theorem canStartEntryPlan_eq_false_iff (db : Database) (slug : String) :
    db.canStartEntryPlan slug = false ↔ ∃ row, db.markets.get? slug = some row ∧
      (row.state ≠ .placementPending ∨ ∃ r ∈ db.orders.rows, r.slug = slug) := by
  unfold canStartEntryPlan
  cases db.markets.get? slug with
  | none => simp
  | some row => by_cases hstate : row.state = .placementPending <;> simp [hstate]

/-- A row of the market stays, under its own id. -/
theorem orderRow_apply {db : Database} {slug : String}
    (h : ∃ r ∈ db.orders.rows, r.slug = slug) {w : Write} (hown : db.OwnRow w) :
    ∃ r ∈ (db.apply w).orders.rows, r.slug = slug := by
  obtain ⟨r, hr, rfl⟩ := h
  cases w with
  | addOrder now slug order =>
    by_cases hid : r.orderId = order.orderId
    · exact ⟨orderRow now slug order, (Table.mem_put _ _ _).mpr (.inl rfl), (hown r hr hid).symm⟩
    · exact ⟨r, (Table.mem_put _ _ _).mpr (.inr ⟨hr, hid⟩), rfl⟩
  | updateOrder orderId status matchedSize =>
    refine ⟨_, List.mem_map_of_mem hr, ?_⟩
    split <;> rfl
  | markOrders orderIds status =>
    refine ⟨_, List.mem_map_of_mem hr, ?_⟩
    split <;> rfl
  | prepareMarket runId m state =>
    refine ⟨r, ?_, rfl⟩
    simp only [apply]
    split <;> exact hr
  | setMarketState slug state error => exact ⟨r, hr, rfl⟩

/-- A market that is shut stays shut. -/
theorem shut_apply {db : Database} {slug : String} (h : db.canStartEntryPlan slug = false)
    {w : Write} (hw : ¬ Reopens slug w) (hown : db.OwnRow w) :
    (db.apply w).canStartEntryPlan slug = false := by
  obtain ⟨row, hrow, hshut⟩ := (canStartEntryPlan_eq_false_iff db slug).mp h
  rcases hshut with hstate | horders
  · exact (Closed.apply ⟨row, hrow, hstate⟩ hw).cannotStart
  · have hmarket : (db.apply w).hasMarket slug = true :=
      hasMarket_apply (by simp [hasMarket, hrow]) w
    obtain ⟨row', hrow'⟩ := Option.isSome_iff_exists.mp hmarket
    exact (canStartEntryPlan_eq_false_iff _ _).mpr ⟨row', hrow', .inr (orderRow_apply horders hown)⟩

end Database

def Effect.OwnRow (b : Bot) : Effect → Prop
  | .write w => b.database.OwnRow w
  | _ => True

instance (b : Bot) (e : Effect) : Decidable (e.OwnRow b) := by
  unfold Effect.OwnRow
  split <;> infer_instance

namespace Bot

def WaitsOrClosed (slug : String) (b : Bot) : Prop :=
  (b.retries.lookup slug).isSome = true ∨ b.Closed slug

/-- The market is being retried: it waited for a retry when the call began or
does now, its row still says pending and no order of it is recorded. -/
def Retrying (before b : Bot) (slug : String) : Prop :=
  ((before.retries.lookup slug).isSome = true ∨ (b.retries.lookup slug).isSome = true) ∧
    (∃ row, b.database.markets.get? slug = some row ∧ row.state = .placementPending) ∧
      ∀ r ∈ b.database.orders.rows, r.slug ≠ slug

theorem waitsOrClosed_apply {fresh : Prop} {slug : String} {b : Bot} {e : Effect}
    (he : e.InOrder fresh b) (hpop : e = .popRetry slug → fresh) (h : b.WaitsOrClosed slug) :
    (Store.apply b e).WaitsOrClosed slug := by
  cases e with
  | setRetry slug' retry =>
    refine h.imp_left fun hretry => ?_
    change ((b.retries.insert slug' retry).lookup slug).isSome = true
    by_cases hslug : slug = slug'
    · rw [hslug, AList.lookup_insert]
      rfl
    · rwa [AList.lookup_insert_ne hslug]
  | popRetry slug' =>
    by_cases hslug : slug = slug'
    · subst hslug
      exact .inr (h.elim (he (hpop rfl)) id)
    · refine h.imp_left fun hretry => ?_
      change ((b.retries.erase slug').lookup slug).isSome = true
      rwa [AList.lookup_erase_ne hslug]
  | write w =>
    rcases h with hretry | hclosed
    · exact .inl hretry
    · by_cases hreopens : Database.Reopens slug w
      · cases w with
        | setMarketState slug' state error =>
          obtain ⟨rfl, hpending⟩ := hreopens
          exact .inl (he hpending)
        | prepareMarket runId m state => exact absurd hreopens.2 he
        | _ => exact absurd hreopens id
      · exact .inr (Database.Closed.apply hclosed hreopens)
  | _ => exact h

end Bot

namespace ServiceCall

variable {s : Service} {b : Bot} {c : ServiceCall} {slug : String}

def TurnOf (slug : String) : ServiceCall → Prop
  | considerMarket market _ _ _ _ => market.slug = slug
  | _ => False

/-- A call drops a market's retry only in a turn of the market itself, which
began with one or not. -/
theorem pops_inOrder (hb : b.Rooted) (hslug : b.retries.lookup slug = none ∨ ¬ c.TurnOf slug) :
    ∃ fresh, Each (fun b' e => Effect.InOrder fresh b' e ∧ (e = .popRetry slug → fresh)) b
      (c.effects s b) := by
  rcases c.effects_cases s b with ⟨market, nowTs, trigger, orderbookReady, answers, rfl⟩ | hquiet
  · have hturn := s.considerMarket_ofTurn market nowTs trigger orderbookReady answers b
    have heach := (s.considerMarket_inOrder market nowTs trigger orderbookReady answers hb).and_forall
      hturn
    refine ⟨b.retries.lookup market.slug = none, heach.mono ?_⟩
    rintro t e ⟨he, hof⟩
    refine ⟨he, ?_⟩
    rintro rfl
    obtain rfl : slug = market.slug := hof
    exact hslug.resolve_right fun h => h rfl
  · exact ⟨True, each_of_forall hquiet fun e he t => ⟨he.inOrder True t, fun _ => trivial⟩⟩

/-- A market an entry was sent for waits or is closed at every point of a call,
but for the turn of a market that began with a retry. -/
theorem waitsOrClosed_upTo (hb : b.Rooted) (hslug : b.retries.lookup slug = none ∨ ¬ c.TurnOf slug)
    (hsent : ∀ k ∈ b.knocked, k.slug = slug → b.WaitsOrClosed slug) (done : ℕ) :
    ∀ k ∈ (c.upTo s b done).knocked, k.slug = slug → (c.upTo s b done).WaitsOrClosed slug := by
  obtain ⟨fresh, heach⟩ := c.pops_inOrder (s := s) hb hslug
  refine (heach.take done).preserves
    (fun t => ∀ k ∈ t.knocked, k.slug = slug → t.WaitsOrClosed slug) ?_ hsent
  rintro t e ⟨he, hpop⟩ ht k hk hkslug
  by_cases hold : k ∈ t.knocked
  · exact Bot.waitsOrClosed_apply he hpop (ht k hold hkslug)
  · cases e with
    | knock k' =>
      obtain rfl : k = k' := by simpa [hold] using List.mem_append.mp hk
      subst hkslug
      exact he
    | _ => exact absurd hk hold

end ServiceCall

namespace Service

variable {s : Service} {b : Bot}

/-- A turn with a retry that returned closed its market or kept a retry. -/
theorem considerMarket_waits {market : Market} {nowTs : ℤ} {trigger : Trigger}
    {orderbookReady : Bool} {answers : PlacementAnswers} (hrooted : b.Rooted)
    (hretry : (b.retries.lookup market.slug).isSome = true) {goOn : Bool}
    (h : (s.considerMarket market nowTs trigger orderbookReady answers).result b = .ok goOn) :
    ((s.considerMarket market nowTs trigger orderbookReady answers).after b).WaitsOrClosed
      market.slug := by
  cases goOn with
  | false =>
    obtain ⟨-, hsame⟩ := s.considerMarket_false market h
    rw [hsame]
    exact .inl hretry
  | true =>
    have hends := s.considerMarket_true market hrooted h
    cases hends with
    | expired hpast hafter =>
      rw [hafter]
      right
      obtain ⟨retry, hlookup⟩ := Option.isSome_iff_exists.mp hretry
      unfold expireMarket
      rw [bind_eq, after_andThen_ok (result_read _ _), after_read, hlookup]
      exact close_closes market b (hrooted _ hretry) .expired (by decide) _
    | idle hidle hafter =>
      rw [hafter]
      exact .inl hretry
    | placed start hfree hbegins hends =>
      rcases hends with ⟨hclosed, -⟩ | ⟨mid, -, hback⟩
      · exact .inr hclosed
      · left
        have hkept := hback.retry
        rwa [requeuedUpdate_market] at hkept

end Service

namespace ServiceCall

variable {s : Service} {b : Bot} {c : ServiceCall}

/-- Between the calls of a process every market an entry was sent for waits or
is closed. -/
theorem waitsOrClosed_after (hb : b.Rooted) (hreturns : c.Returns s b)
    (hsent : ∀ k ∈ b.knocked, b.WaitsOrClosed k.slug) :
    ∀ k ∈ (c.after s b).knocked, (c.after s b).WaitsOrClosed k.slug := by
  intro k hk
  have hall : c.after s b = c.upTo s b (c.effects s b).length := by
    rw [upTo, List.take_length]
    rfl
  by_cases hslug : b.retries.lookup k.slug = none ∨ ¬ c.TurnOf k.slug
  · rw [hall] at hk ⊢
    exact c.waitsOrClosed_upTo hb hslug (fun k' hk' hsame => hsame ▸ hsent k' hk') _ k hk rfl
  · obtain ⟨hretry, hturn⟩ := not_or.mp hslug
    cases c with
    | considerMarket market nowTs trigger orderbookReady answers =>
      obtain ⟨goOn, hreturned⟩ := hreturns
      obtain hmarket : market.slug = k.slug := not_not.mp hturn
      rw [← hmarket] at hretry ⊢
      exact Service.considerMarket_waits hb (Option.isSome_iff_ne_none.mpr hretry) hreturned
    | _ => exact absurd id hturn

/-- A call does nothing in the turn of a market that is shut and does not wait
for a retry. -/
theorem effects_shut {slug : String} (hshut : b.database.canStartEntryPlan slug = false)
    (hretry : b.retries.lookup slug = none) (hturn : c.TurnOf slug) : c.effects s b = [] := by
  cases c with
  | considerMarket market nowTs trigger orderbookReady answers =>
    obtain rfl : market.slug = slug := hturn
    change (s.considerMarket market nowTs trigger orderbookReady answers).commits b = []
    obtain ⟨effects, result, hcommits, -, hgoes⟩ :=
      s.considerMarket_goes market nowTs trigger orderbookReady answers b
    rw [hcommits]
    cases hgoes with
    | expired hpast =>
      unfold Service.expireMarket
      rw [bind_eq, commits_andThen_ok (result_read _ _), after_read, hretry]
      rfl
    | skipped reason hfree hmisfit =>
      rw [hshut] at hfree
      cases hfree
    | placed heligible hfree hfits huncapped hbooks =>
      rw [hshut] at hfree
      cases hfree
    | _ => rfl
  | _ => exact absurd hturn id

end ServiceCall

def Effect.Elsewhere (slug : String) : Effect → Prop
  | .write w => ¬ Database.Reopens slug w
  | .setRetry slug' _ => slug' ≠ slug
  | .knock k => k.slug ≠ slug
  | _ => True

theorem Effect.OfTurn.elsewhere {market : Market} {slug : String} (hslug : market.slug ≠ slug)
    {e : Effect} (h : e.OfTurn market) : e.Elsewhere slug := by
  cases e with
  | write w =>
    cases w with
    | prepareMarket runId m state =>
      obtain ⟨rfl, -⟩ := h
      exact fun hreopens => hslug hreopens.1
    | setMarketState slug' state error =>
      obtain rfl : slug' = market.slug := h
      exact fun hreopens => hslug hreopens.1
    | _ => exact id
  | setRetry slug' retry =>
    obtain rfl : slug' = market.slug := h
    exact hslug
  | knock k => exact fun hk => hslug (h.1.symm.trans hk)
  | _ => trivial

theorem Effect.Quiet.elsewhere {slug : String} {e : Effect} (h : e.Quiet) : e.Elsewhere slug := by
  cases e with
  | write w => exact h.keepsClosed slug
  | setRetry slug' retry => exact absurd h id
  | knock k => exact absurd h id
  | _ => trivial

/-- No entry of the market is sent in this process, and none can be. -/
structure Bot.Shut (slug : String) (b : Bot) : Prop where
  closed : b.database.canStartEntryPlan slug = false
  retry : b.retries.lookup slug = none
  unsent : ∀ k ∈ b.knocked, k.slug ≠ slug

theorem Bot.Shut.apply {slug : String} {b : Bot} (h : b.Shut slug) {e : Effect}
    (he : e.Elsewhere slug) (hown : e.OwnRow b) : (Store.apply b e).Shut slug := by
  cases e with
  | write w => exact ⟨Database.shut_apply h.closed he hown, h.retry, h.unsent⟩
  | setRetry slug' retry =>
    exact ⟨h.closed, (AList.lookup_insert_ne (Ne.symm he)).trans h.retry, h.unsent⟩
  | popRetry slug' =>
    refine ⟨h.closed, ?_, h.unsent⟩
    change (b.retries.erase slug').lookup slug = none
    by_cases hslug : slug = slug'
    · rw [hslug, AList.lookup_erase]
    · rw [AList.lookup_erase_ne hslug, h.retry]
  | knock k =>
    refine ⟨h.closed, h.retry, fun k' hk' => ?_⟩
    rcases List.mem_append.mp hk' with hold | hnew
    · exact h.unsent k' hold
    · rw [List.mem_singleton.mp hnew]
      exact he
  | _ => exact ⟨h.closed, h.retry, h.unsent⟩

/-- At every point of a call. -/
theorem Bot.Shut.upTo {slug : String} {s : Service} {b : Bot} (h : b.Shut slug) (c : ServiceCall)
    (done : ℕ) (hown : Each (fun t e => e.OwnRow t) b ((c.effects s b).take done)) :
    (c.upTo s b done).Shut slug := by
  by_cases hturn : c.TurnOf slug
  · rw [ServiceCall.upTo, c.effects_shut h.closed h.retry hturn]
    simpa using h
  · have helsewhere : ∀ e ∈ c.effects s b, e.Elsewhere slug := by
      rcases c.effects_cases s b with
        ⟨market, nowTs, trigger, orderbookReady, answers, rfl⟩ | hquiet
      · exact fun e he => (s.considerMarket_ofTurn market nowTs trigger orderbookReady answers
          b e he).elsewhere hturn
      · exact fun e he => (hquiet e he).elsewhere
    have heach := hown.and_forall fun e he => helsewhere e (List.mem_of_mem_take he)
    exact heach.preserves (Bot.Shut slug) (fun _ _ he ht => ht.apply he.2 he.1) h

/-- A run of the service over the database, and what earlier runs sent. -/
structure Life where
  service : Service
  bot : Bot
  past : List Knocked

inductive LifeEvent
  | call (c : ServiceCall)
  | death (c : ServiceCall) (done : ℕ) (next : Service)

namespace Life

def next (w : Life) : LifeEvent → Life
  | .call c => { w with bot := c.after w.service w.bot }
  | .death c done service =>
    { service := service
      bot := Bot.boot (c.upTo w.service w.bot done).database
      past := w.past ++ (c.upTo w.service w.bot done).knocked }

def OwnIds (w : Life) (c : ServiceCall) (done : ℕ) : Prop :=
  Each (fun t e => e.OwnRow t) w.bot ((c.effects w.service w.bot).take done)

/-- A process goes on after a call that returns; it ends while no market it
has sent an entry for is being retried. -/
def EndsClean (w : Life) : LifeEvent → Prop
  | .call c => c.Returns w.service w.bot ∧ w.OwnIds c (c.effects w.service w.bot).length
  | .death c done _ => w.OwnIds c done ∧
    ∀ k ∈ (c.upTo w.service w.bot done).knocked,
      ¬ w.bot.Retrying (c.upTo w.service w.bot done) k.slug

/-- What every run keeps: the markets earlier runs sent an entry for are shut,
and those this one sent an entry for wait or are closed. -/
structure Kept (w : Life) : Prop where
  rooted : w.bot.Rooted
  waits : ∀ k ∈ w.bot.knocked, w.bot.WaitsOrClosed k.slug
  shut : ∀ k ∈ w.past, w.bot.Shut k.slug

/-- A market the process has sent an entry for, and that it is not retrying as
it ends, is shut to the next one. -/
theorem Kept.shut_death {w : Life} (hw : w.Kept) {c : ServiceCall} {done : ℕ} {k : Knocked}
    (hk : k ∈ (c.upTo w.service w.bot done).knocked)
    (hclean : ¬ w.bot.Retrying (c.upTo w.service w.bot done) k.slug) :
    (c.upTo w.service w.bot done).database.canStartEntryPlan k.slug = false := by
  by_cases hretry : (w.bot.retries.lookup k.slug).isSome = true ∨
      ((c.upTo w.service w.bot done).retries.lookup k.slug).isSome = true
  · have hmarket : (c.upTo w.service w.bot done).database.hasMarket k.slug = true := by
      rcases hretry with hbefore | hnow
      · exact Bot.hasMarket_settle (hw.rooted _ hbefore) _
      · exact c.rooted_take w.service hw.rooted done _ hnow
    obtain ⟨row, hrow⟩ := Option.isSome_iff_exists.mp hmarket
    refine (Database.canStartEntryPlan_eq_false_iff _ _).mpr ⟨row, hrow, ?_⟩
    by_contra hfree
    obtain ⟨hpending, hnone⟩ := not_or.mp hfree
    exact hclean ⟨hretry, ⟨row, hrow, not_not.mp hpending⟩, fun r hr hslug => hnone ⟨r, hr, hslug⟩⟩
  · obtain ⟨hbefore, hnow⟩ := not_or.mp hretry
    have hnone : w.bot.retries.lookup k.slug = none := by simpa using hbefore
    have hwaits := c.waitsOrClosed_upTo hw.rooted (.inl hnone)
      (fun k' hk' hsame => hsame ▸ hw.waits k' hk') done k hk rfl
    exact (hwaits.resolve_left hnow).cannotStart

theorem Kept.next {w : Life} (hw : w.Kept) {e : LifeEvent} (he : w.EndsClean e) :
    (w.next e).Kept := by
  cases e with
  | call c =>
    obtain ⟨hreturns, hown⟩ := he
    have hall : c.after w.service w.bot =
        c.upTo w.service w.bot (c.effects w.service w.bot).length := by
      rw [ServiceCall.upTo, List.take_length]
      rfl
    refine ⟨?_, c.waitsOrClosed_after hw.rooted hreturns hw.waits, fun k hk => ?_⟩
    · change (c.after w.service w.bot).Rooted
      rw [hall]
      exact c.rooted_take w.service hw.rooted _
    · change (c.after w.service w.bot).Shut k.slug
      rw [hall]
      exact (hw.shut k hk).upTo c _ hown
  | death c done service =>
    obtain ⟨hown, hclean⟩ := he
    refine ⟨Bot.rooted_boot _, fun k hk => absurd hk List.not_mem_nil, fun k hk => ?_⟩
    have hboot : (c.upTo w.service w.bot done).database.canStartEntryPlan k.slug = false := by
      rcases List.mem_append.mp hk with hold | hnew
      · exact ((hw.shut k hold).upTo c done hown).closed
      · exact hw.shut_death hnew (hclean k hnew)
    exact ⟨hboot, AList.lookup_empty _, fun k' hk' => absurd hk' List.not_mem_nil⟩

/-- In every sequence of runs over one database, each ending anywhere while no
market it sent an entry for is being retried: a market that an earlier run sent
an entry for is shut, and this run sends none for it, at every point. -/
theorem one_entry_plan (service : Service) (db : Database) (w : Life)
    (hrun : Run (Guarded EndsClean next) ⟨service, Bot.boot db, []⟩ w) (c : ServiceCall) (done : ℕ)
    (hown : w.OwnIds c done) :
    ∀ k ∈ w.past, (c.upTo w.service w.bot done).database.canStartEntryPlan k.slug = false ∧
      ∀ k' ∈ (c.upTo w.service w.bot done).knocked, k'.slug ≠ k.slug := by
  have hkept : w.Kept := by
    refine run_preserves Kept ?_ hrun ⟨Bot.rooted_boot db, ?_, ?_⟩
    · rintro v v' ⟨e, he, rfl⟩ hv
      exact hv.next he
    · exact fun k hk => absurd hk List.not_mem_nil
    · exact fun k hk => absurd hk List.not_mem_nil
  intro k hk
  have hshut := (hkept.shut k hk).upTo c done hown
  exact ⟨hshut.closed, hshut.unsent⟩

end Life

/-- The process dies in its first knock of a market; the market is shut to the
next one. -/
theorem one_entry_plan_first_knock :
    let w := Life.next ⟨pairService, Bot.boot Database.empty, []⟩ (.death unansweredTurn 3 pairService)
    w.past.map Knocked.slug = ["btc-updown-5m-0"] ∧
      (unansweredTurn.upTo pairService w.bot 3).database.canStartEntryPlan "btc-updown-5m-0" =
        false := by
  intro w
  have hpast : w.past.map Knocked.slug = ["btc-updown-5m-0"] := by decide +kernel
  refine ⟨hpast, ?_⟩
  have hrun : Run (Guarded Life.EndsClean Life.next) ⟨pairService, Bot.boot Database.empty, []⟩ w := by
    refine .single ⟨.death unansweredTurn 3 pairService, ⟨?_, fun k hk => ?_⟩, rfl⟩
    · unfold Life.OwnIds
      decide +kernel
    · rintro ⟨hretry, -⟩
      have hslug : k.slug = "btc-updown-5m-0" := by
        have hmem : k.slug ∈ w.past.map Knocked.slug := List.mem_map_of_mem hk
        rwa [hpast, List.mem_singleton] at hmem
      rw [hslug] at hretry
      exact absurd hretry (by decide +kernel)
  obtain ⟨k, hk, hslug⟩ := List.mem_map.mp (hpast ▸ List.mem_singleton_self "btc-updown-5m-0")
  have hshut := Life.one_entry_plan pairService Database.empty w hrun unansweredTurn 0 trivial k hk
  rw [hslug] at hshut
  have hidle : unansweredTurn.effects pairService w.bot = [] :=
    unansweredTurn.effects_shut hshut.1 rfl rfl
  rw [ServiceCall.upTo, hidle]
  exact hshut.1

/-- An ambiguous entry is to be tried again when the process dies: the next one
sends another. -/
theorem one_entry_plan_ambiguous :
    let sent := unansweredTurn.after pairService (Bot.boot Database.empty)
    let w := Life.next ⟨pairService, sent, []⟩ (.death unansweredTurn 0 pairService)
    unansweredTurn.Returns pairService (Bot.boot Database.empty) ∧
      w.past.map Knocked.slug = ["btc-updown-5m-0"] ∧
      w.bot.database.canStartEntryPlan "btc-updown-5m-0" = true ∧
      (unansweredTurn.after pairService w.bot).knocked.map Knocked.slug = ["btc-updown-5m-0"] :=
  ⟨⟨true, by decide +kernel⟩, by decide +kernel⟩

end EventQuant
