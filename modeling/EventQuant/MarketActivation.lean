import EventQuant.Library.Runs
import EventQuant.Library.WorkPool
import EventQuant.Settlement

/-!
The market activation worker: one thread predicts the slugs of the markets to
come and registers what Gamma lists under them, the other asks the CLOB for each
registered market's tokens and emits the market once both are there. The two
share the candidates and the handled slugs, each of their looks at them under
one lock; everything else happens between.
-/
namespace EventQuant

open Python Runs

/-- `MARKET_SECONDS`. -/
def marketSeconds : ℤ := 300

structure Candidate where
  market : Market
  marketDiscoveredTsMs : ℤ
  deriving DecidableEq, Repr

def Candidate.slug (c : Candidate) : String := c.market.slug

/-- `f"btc-updown-5m-{start_ts}"`. -/
def predictedSlug (startTs : ℤ) : String := "btc-updown-5m-" ++ toString startTs

/-- What Gamma lists of a market under a slug it knows. -/
structure GammaListing where
  conditionId : String
  upTokenId : String
  downTokenId : String
  minSize : ℚ
  tickSize : ℚ
  deriving DecidableEq, Repr

/-- `_parse_market`, under the slug it was asked for. -/
def GammaListing.market (l : GammaListing) (startTs : ℤ) : Market :=
  ⟨predictedSlug startTs, l.conditionId, startTs, startTs + marketSeconds, l.upTokenId,
    l.downTokenId, l.minSize, l.tickSize⟩

/-- What the CLOB answers about a market: not known, a payload, or an exception
of the request or of reading it. -/
inductive ClobAnswer
  | missing
  | payload (body : Value)
  | failed

def payloadTokens (codec : Codec) (body : Value) : Option (List String) :=
  if body.isObject then
    match ((body.get "t").or (.array [])).iterate with
    | .error _ => none
    | .ok tokens => some ((tokens.filter Value.isObject).map fun token =>
        ((token.get "t").or (.string "")).str codec)
  else none

/-- Where the discovery thread is: about to ask Gamma, or with what it found on
the way to the lock. -/
inductive Discovering
  | asking
  | discovered (first : Market) (others : List Market)
  | found (market : Market)

/-- Where the parameter thread is: between polls, with the candidates it still
asks about, with one whose tokens are there on the way to the lock, or with an
update on the way to the queue. -/
inductive Polling
  | idle
  | asking (candidates : List Candidate)
  | detected (candidate : Candidate) (detectedTsMs : ℤ) (rest : List Candidate)
  | emitting (update : ActivationUpdate) (rest : List Candidate)

namespace Polling

def asked : Polling → List Candidate
  | .idle => []
  | .asking candidates => candidates
  | .detected candidate _ rest => candidate :: rest
  | .emitting _ rest => rest

def carried : Polling → List ActivationUpdate
  | .emitting update _ => [update]
  | _ => []

end Polling

/-- The worker, and what has become of it: the reading the last poll began at,
every slug registered with the time it was discovered, the slugs dropped as
expired, the first predicted start, the starts registered by prediction, and
every update queued with the reading its poll began at. -/
structure ActivationWorker where
  pool : WorkPool String Candidate Candidate.slug
  nextStartTs : Option ℤ
  discovering : Discovering
  polling : Polling
  pollTs : ℤ
  registered : List (String × ℤ)
  expired : List String
  seedTs : Option ℤ
  predicted : List ℤ
  emitted : List ActivationUpdate
  polled : List ℤ

/-- One step of either thread, with the clocks and the answers it meets. -/
inductive WorkerEvent
  | discover (answer : Except Exn (List Market))
  | find (answer : Except Exn (Option GammaListing))
  | register (discoveredTsMs nowTs : ℤ)
  | poll (nowTs : ℤ)
  | ask (answer : ClobAnswer) (detectedTsMs : ℤ)
  | take
  | emit

namespace ActivationWorker

def init : ActivationWorker :=
  ⟨WorkPool.empty, none, .asking, .idle, 0, [], [], none, [], [], []⟩

variable (windowMinutes : ℕ) (codec : Codec) (w : ActivationWorker)

/-- One market of `_register_candidates`. -/
def registerCandidate (discoveredTsMs nowTs : ℤ) (market : Market) : ActivationWorker :=
  let w := { w with registered := w.registered ++ [(market.slug, discoveredTsMs)] }
  if market.slug ∈ w.pool.handled then w
  else if market.endTs ≤ nowTs then
    { w with pool := w.pool.close market.slug, expired := w.expired ++ [market.slug] }
  else { w with pool := w.pool.offer ⟨market, discoveredTsMs⟩ }

/-- `_register_candidates`. -/
def registerCandidates (discoveredTsMs nowTs : ℤ) (markets : List Market) : ActivationWorker :=
  markets.foldl (fun w market => w.registerCandidate discoveredTsMs nowTs market) w

def expire (slug : String) : ActivationWorker :=
  { w with pool := w.pool.close slug, expired := w.expired ++ [slug] }

/-- The first look of a poll: the expired candidates go, the others are asked
about in their order. -/
def startPoll (nowTs : ℤ) : ActivationWorker :=
  let slugs := (w.pool.pending.rows.filter fun c => c.market.endTs ≤ nowTs).map Candidate.slug
  let w := slugs.foldl expire w
  { w with polling := .asking w.pool.pending.rows, pollTs := nowTs }

def seedAfter (first : Market) (others : List Market) : ℤ :=
  others.foldl (fun startTs market => max startTs market.startTs) first.startTs + marketSeconds

/-- What each step does; a step that is not its thread's next changes nothing. -/
def next (w : ActivationWorker) (e : WorkerEvent) : ActivationWorker :=
  match e, w.discovering, w.polling with
  | .discover answer, .asking, _ =>
    match w.nextStartTs, answer with
    | none, .ok (first :: others) => { w with discovering := .discovered first others }
    | _, _ => w
  | .find answer, .asking, _ =>
    match w.nextStartTs, answer with
    | some startTs, .ok (some listing) => { w with discovering := .found (listing.market startTs) }
    | _, _ => w
  | .register discoveredTsMs nowTs, .discovered first others, _ =>
    let w :=
      if windowMinutes = 0 then w else w.registerCandidates discoveredTsMs nowTs (first :: others)
    { w with
      nextStartTs := some (seedAfter first others)
      seedTs := some (seedAfter first others)
      discovering := .asking }
  | .register discoveredTsMs nowTs, .found market, _ =>
    let w := w.registerCandidates discoveredTsMs nowTs [market]
    { w with
      nextStartTs := w.nextStartTs.map fun startTs => startTs + marketSeconds
      predicted := w.predicted ++ [market.startTs]
      discovering := .asking }
  | .poll nowTs, _, .idle => w.startPoll nowTs
  | .ask answer detectedTsMs, _, .asking (candidate :: rest) =>
    match answer with
    | .missing => { w with polling := .asking rest }
    | .failed => { w with polling := .idle }
    | .payload body =>
      match payloadTokens codec body with
      | none => { w with polling := .idle }
      | some tokens =>
        if candidate.market.upTokenId ∈ tokens ∧ candidate.market.downTokenId ∈ tokens then
          { w with polling := .detected candidate detectedTsMs rest }
        else { w with polling := .asking rest }
  | .ask _ _, _, .asking [] => { w with polling := .idle }
  | .take, _, .detected candidate detectedTsMs rest =>
    if (w.pool.pending.get? candidate.slug).isSome then
      { w with
        pool := w.pool.close candidate.slug
        polling := .emitting
          ⟨candidate.market, candidate.marketDiscoveredTsMs, detectedTsMs⟩ rest }
    else { w with polling := .asking rest }
  | .emit, _, .emitting update rest =>
    { w with
      emitted := w.emitted ++ [update]
      polled := w.polled ++ [w.pollTs]
      polling := .asking rest }
  | _, _, _ => w

def asked : List Candidate := w.polling.asked

def updates : List ActivationUpdate := w.emitted ++ w.polling.carried

def taken : List String := w.updates.map fun u => u.market.slug

/-- What holds of the shared state between any two steps: a handled slug was
either taken for emission or dropped as expired, once, and what is held of a
slug carries the time it was first discovered. -/
structure Sound (w : ActivationWorker) : Prop where
  once : (w.taken ++ w.expired).Nodup
  handled : ∀ slug, slug ∈ w.pool.handled ↔ slug ∈ w.taken ++ w.expired
  dated : ∀ c ∈ w.pool.pending.rows ++ w.asked,
    w.registered.lookup c.slug = some c.marketDiscoveredTsMs
  datedUpdates : ∀ u ∈ w.updates,
    w.registered.lookup u.market.slug = some u.marketDiscoveredTsMs

def Known (w : ActivationWorker) : Prop :=
  ∀ slug, w.pool.Knows slug ↔ slug ∈ w.registered.map Prod.fst

section Steps

variable {w}

theorem sound_init : init.Sound where
  once := List.nodup_nil
  handled _ := by simp [init, taken, updates, WorkPool.empty, Polling.carried]
  dated _ h := absurd h List.not_mem_nil
  datedUpdates _ h := absurd h List.not_mem_nil

/-- A slug that is neither taken nor dropped may be dropped. -/
theorem Sound.expire (h : w.Sound) {slug : String} (hopen : slug ∉ w.pool.handled) :
    (w.expire slug).Sound where
  once := by
    have hfresh : slug ∉ w.taken ++ w.expired := fun hmem => hopen ((h.handled slug).mpr hmem)
    have hnodup := List.nodup_append.mpr ⟨h.once, List.nodup_singleton slug, fun a ha b hb hab =>
      hfresh (List.mem_singleton.mp hb ▸ hab ▸ ha)⟩
    rwa [List.append_assoc] at hnodup
  handled slug' := by
    have hclosed := w.pool.mem_handled_close slug slug'
    have hbefore := h.handled slug'
    simp only [ActivationWorker.expire, taken, updates, List.mem_append,
      List.mem_singleton] at hbefore ⊢
    rw [hclosed, hbefore]
    tauto
  dated c hc := by
    refine h.dated c ?_
    rcases List.mem_append.mp hc with hc | hc
    · exact List.mem_append_left _ (w.pool.mem_pending_close hc).1
    · exact List.mem_append_right _ hc
  datedUpdates := h.datedUpdates

/-- A slug that is registered again keeps the time it was first discovered. -/
theorem Sound.register (h : w.Sound) (slug : String) (ts : ℤ) :
    Sound { w with registered := w.registered ++ [(slug, ts)] } where
  once := h.once
  handled := h.handled
  dated c hc := by
    rw [List.lookup_append, h.dated c hc]
    rfl
  datedUpdates u hu := by
    rw [List.lookup_append, h.datedUpdates u hu]
    rfl

/-- An item the pool did not know is offered at the time it is registered. -/
theorem Sound.offer (h : w.Sound) {c : Candidate}
    (hdated : ¬ w.pool.Knows c.slug → w.registered.lookup c.slug = some c.marketDiscoveredTsMs) :
    Sound { w with pool := w.pool.offer c } where
  once := h.once
  handled slug := by
    refine Iff.trans ?_ (h.handled slug)
    simp
  dated c' hc' := by
    rcases List.mem_append.mp hc' with hpending | hasked
    · rcases w.pool.mem_pending_offer hpending with hold | ⟨rfl, hnew⟩
      · exact h.dated c' (List.mem_append_left _ hold)
      · exact hdated hnew
    · exact h.dated c' (List.mem_append_right _ hasked)
  datedUpdates := h.datedUpdates

theorem registerCandidate_keeps (discoveredTsMs nowTs : ℤ) (market : Market) (h : w.Sound)
    (hknown : w.Known) : (w.registerCandidate discoveredTsMs nowTs market).Sound ∧
      (w.registerCandidate discoveredTsMs nowTs market).Known := by
  have hnames : ∀ slug, slug ∈ (w.registered ++ [(market.slug, discoveredTsMs)]).map Prod.fst ↔
      slug = market.slug ∨ w.pool.Knows slug := by
    intro slug
    rw [hknown slug, List.map_append, List.mem_append, or_comm]
    simp
  unfold registerCandidate
  simp only
  split
  · rename_i hhandled
    refine ⟨h.register _ _, fun slug => ?_⟩
    rw [hnames]
    constructor
    · exact .inr
    · rintro (rfl | hslug)
      · exact .inl hhandled
      · exact hslug
  · rename_i hopen
    split
    · exact ⟨(h.register market.slug discoveredTsMs).expire hopen, fun slug =>
        (w.pool.knows_close market.slug slug).trans (hnames slug).symm⟩
    · refine ⟨(h.register market.slug discoveredTsMs).offer fun hnew => ?_, fun slug =>
        (w.pool.knows_offer _ slug).trans (hnames slug).symm⟩
      have hunseen : w.registered.lookup market.slug = none := by
        rw [List.lookup_eq_none_iff]
        intro entry hentry
        have hne : entry.1 ≠ market.slug := by
          intro hsame
          have hmem : entry.1 ∈ w.registered.map Prod.fst := List.mem_map_of_mem hentry
          exact hnew ((hknown market.slug).mpr (hsame ▸ hmem))
        simpa using hne.symm
      change (w.registered ++ [(market.slug, discoveredTsMs)]).lookup market.slug = _
      rw [List.lookup_append, hunseen]
      simp

theorem registerCandidates_keeps (discoveredTsMs nowTs : ℤ) (markets : List Market) (h : w.Sound)
    (hknown : w.Known) : (w.registerCandidates discoveredTsMs nowTs markets).Sound ∧
      (w.registerCandidates discoveredTsMs nowTs markets).Known := by
  unfold registerCandidates
  induction markets generalizing w with
  | nil => exact ⟨h, hknown⟩
  | cons market markets ih =>
    obtain ⟨hsound, hknown'⟩ := registerCandidate_keeps discoveredTsMs nowTs market h hknown
    exact ih hsound hknown'

/-- What a step that leaves the shared state alone must keep. -/
theorem Sound.of_same {w' : ActivationWorker} (h : w.Sound) (hpool : w'.pool = w.pool)
    (hregistered : w'.registered = w.registered) (hexpired : w'.expired = w.expired)
    (hupdates : w'.updates = w.updates)
    (hasked : ∀ c ∈ w'.asked, c ∈ w.pool.pending.rows ++ w.asked) : w'.Sound where
  once := by
    rw [taken, hupdates, hexpired]
    exact h.once
  handled slug := by
    rw [taken, hupdates, hexpired, hpool]
    exact h.handled slug
  dated c hc := by
    rw [hpool] at hc
    rw [hregistered]
    refine h.dated c ?_
    rcases List.mem_append.mp hc with hpending | hheld
    · exact List.mem_append_left _ hpending
    · exact hasked c hheld
  datedUpdates u hu := by
    rw [hregistered]
    exact h.datedUpdates u (hupdates ▸ hu)

theorem Sound.move (h : w.Sound) (polling : Polling) (hcarried : polling.carried = w.polling.carried)
    (hasked : polling.asked ⊆ w.polling.asked) : Sound { w with polling := polling } :=
  h.of_same rfl rfl rfl (congrArg (w.emitted ++ ·) hcarried) fun _ hc =>
    List.mem_append_right _ (hasked hc)

theorem expire_known (hknown : w.Known) {slug : String} (hslug : w.pool.Knows slug) :
    (w.expire slug).Known := by
  intro slug'
  change (w.pool.close slug).Knows slug' ↔ slug' ∈ w.registered.map Prod.fst
  rw [w.pool.knows_close, ← hknown]
  constructor
  · rintro (rfl | hslug')
    · exact hslug
    · exact hslug'
  · exact .inr

/-- The slugs that expired are open and each there once, so each is dropped
once. -/
theorem expireAll_keeps {slugs : List String} (hnodup : slugs.Nodup)
    (hopen : ∀ slug ∈ slugs, slug ∉ w.pool.handled ∧ w.pool.Knows slug) (h : w.Sound)
    (hknown : w.Known) : (slugs.foldl ActivationWorker.expire w).Sound ∧
      (slugs.foldl ActivationWorker.expire w).Known := by
  induction slugs generalizing w with
  | nil => exact ⟨h, hknown⟩
  | cons slug slugs ih =>
    obtain ⟨hfirst, hrest⟩ := List.nodup_cons.mp hnodup
    obtain ⟨hslug, hslugKnown⟩ := hopen slug List.mem_cons_self
    refine ih hrest (fun slug' hslug' => ?_) (h.expire hslug) (expire_known hknown hslugKnown)
    obtain ⟨hopen', hknown'⟩ := hopen slug' (List.mem_cons_of_mem _ hslug')
    refine ⟨fun hclosed => ?_, (w.pool.knows_close slug slug').mpr (.inr hknown')⟩
    rcases (w.pool.mem_handled_close slug slug').mp hclosed with rfl | hclosed
    · exact hfirst hslug'
    · exact hopen' hclosed

theorem startPoll_keeps (nowTs : ℤ) (hidle : w.polling = .idle) (h : w.Sound) (hknown : w.Known) :
    (w.startPoll nowTs).Sound ∧ (w.startPoll nowTs).Known := by
  obtain ⟨hsound, hknown'⟩ := expireAll_keeps (w := w)
    (w.pool.pending.distinct.sublist (List.filter_sublist.map Candidate.slug))
    (fun slug hslug => by
      obtain ⟨c, hc, rfl⟩ := List.mem_map.mp hslug
      have hpending := Table.get?_of_mem (List.mem_filter.mp hc).1
      refine ⟨fun hclosed => ?_, .inr (by rw [hpending]; rfl)⟩
      exact nomatch (w.pool.apart _ hclosed).symm.trans hpending) h hknown
  have hstill : ∀ slugs : List String, (slugs.foldl ActivationWorker.expire w).polling = .idle := by
    intro slugs
    induction slugs using List.reverseRecOn with
    | nil => exact hidle
    | append_singleton slugs slug ih => rw [List.foldl_append]; exact ih
  refine ⟨hsound.of_same rfl rfl rfl ?_ fun c hc => List.mem_append_left _ hc, hknown'⟩
  rw [updates, updates, hstill]
  rfl

/-- A pending candidate is taken for emission: it was neither taken before nor
dropped. -/
theorem take_keeps {candidate : Candidate} {detectedTsMs : ℤ} {rest : List Candidate}
    (hdetected : w.polling = .detected candidate detectedTsMs rest)
    (hpending : (w.pool.pending.get? candidate.slug).isSome = true) (h : w.Sound)
    (hknown : w.Known) :
    let update : ActivationUpdate :=
      ⟨candidate.market, candidate.marketDiscoveredTsMs, detectedTsMs⟩
    let w' : ActivationWorker :=
      { w with pool := w.pool.close candidate.slug, polling := .emitting update rest }
    w'.Sound ∧ w'.Known := by
  intro update w'
  have hopen : candidate.slug ∉ w.pool.handled := fun hclosed => by
    rw [w.pool.apart _ hclosed] at hpending
    exact nomatch hpending
  have hupdates : w'.updates = w.updates ++ [update] := by
    simp [updates, hdetected, Polling.carried, w']
  have htaken : w'.taken = w.taken ++ [candidate.slug] := by
    rw [taken, hupdates, List.map_append]
    rfl
  have hfresh : candidate.slug ∉ w.taken ++ w.expired := fun hmem =>
    hopen ((h.handled _).mpr hmem)
  constructor
  · refine ⟨?_, fun slug => ?_, fun c hc => ?_, fun u hu => ?_⟩
    · change (w'.taken ++ w.expired).Nodup
      rw [htaken, List.append_assoc]
      exact List.nodup_middle.mpr (List.nodup_cons.mpr ⟨hfresh, h.once⟩)
    · change slug ∈ (w.pool.close candidate.slug).handled ↔ slug ∈ w'.taken ++ w.expired
      rw [htaken, w.pool.mem_handled_close, h.handled slug]
      simp only [List.mem_append, List.mem_singleton]
      tauto
    · refine h.dated c ?_
      rcases List.mem_append.mp hc with hc | hc
      · exact List.mem_append_left _ (w.pool.mem_pending_close hc).1
      · refine List.mem_append_right _ ?_
        rw [asked, hdetected]
        exact List.mem_cons_of_mem _ hc
    · rw [hupdates] at hu
      rcases List.mem_append.mp hu with hu | hu
      · exact h.datedUpdates u hu
      · obtain rfl := List.mem_singleton.mp hu
        refine h.dated candidate (List.mem_append_right _ ?_)
        rw [asked, hdetected]
        exact List.mem_cons_self
  · intro slug
    change (w.pool.close candidate.slug).Knows slug ↔ slug ∈ w.registered.map Prod.fst
    rw [w.pool.knows_close, ← hknown]
    constructor
    · rintro (rfl | hslug)
      · exact .inr hpending
      · exact hslug
    · exact .inr

/-- What one step of either thread comes to. -/
inductive Moves (windowMinutes : ℕ) (w : ActivationWorker) : ActivationWorker → Prop
  | stay : Moves windowMinutes w w
  | discovered (first : Market) (others : List Market) (hnext : w.nextStartTs = none) :
      Moves windowMinutes w { w with discovering := .discovered first others }
  | found (startTs : ℤ) (listing : GammaListing) (hnext : w.nextStartTs = some startTs) :
      Moves windowMinutes w { w with discovering := .found (listing.market startTs) }
  | seeded (discoveredTsMs nowTs : ℤ) (first : Market) (others : List Market)
      (hdiscovering : w.discovering = .discovered first others) :
      Moves windowMinutes w
        { (if windowMinutes = 0 then w
            else w.registerCandidates discoveredTsMs nowTs (first :: others)) with
          nextStartTs := some (seedAfter first others)
          seedTs := some (seedAfter first others)
          discovering := .asking }
  | predicted (discoveredTsMs nowTs : ℤ) (market : Market) (hfound : w.discovering = .found market) :
      Moves windowMinutes w
        (let w := w.registerCandidates discoveredTsMs nowTs [market]
        { w with
          nextStartTs := w.nextStartTs.map fun startTs => startTs + marketSeconds
          predicted := w.predicted ++ [market.startTs]
          discovering := .asking })
  | polled (nowTs : ℤ) (hidle : w.polling = .idle) : Moves windowMinutes w (w.startPoll nowTs)
  | asked (polling : Polling) (hbefore : w.polling.carried = []) (hcarried : polling.carried = [])
      (hasked : polling.asked ⊆ w.polling.asked) :
      Moves windowMinutes w { w with polling := polling }
  | taken (candidate : Candidate) (detectedTsMs : ℤ) (rest : List Candidate)
      (hdetected : w.polling = .detected candidate detectedTsMs rest)
      (hpending : (w.pool.pending.get? candidate.slug).isSome = true) :
      Moves windowMinutes w
        { w with
          pool := w.pool.close candidate.slug
          polling := .emitting
            ⟨candidate.market, candidate.marketDiscoveredTsMs, detectedTsMs⟩ rest }
  | emitted (update : ActivationUpdate) (rest : List Candidate)
      (hemitting : w.polling = .emitting update rest) :
      Moves windowMinutes w
        { w with
          emitted := w.emitted ++ [update]
          polled := w.polled ++ [w.pollTs]
          polling := .asking rest }

theorem next_moves (windowMinutes : ℕ) (codec : Codec) (w : ActivationWorker) (e : WorkerEvent) :
    w.Moves windowMinutes (w.next windowMinutes codec e) := by
  unfold next
  split
  · split
    · rename_i first others hnext
      exact .discovered first others hnext
    · exact .stay
  · split
    · rename_i startTs listing hnext
      exact .found startTs listing hnext
    · exact .stay
  · rename_i hdiscovering
    exact .seeded _ _ _ _ hdiscovering
  · rename_i hfound
    exact .predicted _ _ _ hfound
  · rename_i hidle
    exact .polled _ hidle
  · rename_i candidate rest hasking
    have hcarried : w.polling.carried = [] := by rw [hasking]; rfl
    have hall : w.polling.asked = candidate :: rest := by rw [hasking]; rfl
    have hrest : rest ⊆ w.polling.asked := hall ▸ List.subset_cons_self _ _
    split
    · exact .asked _ hcarried rfl hrest
    · exact .asked _ hcarried rfl (List.nil_subset _)
    · split
      · exact .asked _ hcarried rfl (List.nil_subset _)
      · split
        · exact .asked _ hcarried rfl (hall ▸ List.Subset.refl _)
        · exact .asked _ hcarried rfl hrest
  · rename_i hasking
    exact .asked _ (by rw [hasking]; rfl) rfl (List.nil_subset _)
  · rename_i candidate detectedTsMs rest hdetected
    have hall : w.polling.asked = candidate :: rest := by rw [hdetected]; rfl
    split
    · rename_i hpending
      exact .taken _ _ _ hdetected hpending
    · exact .asked _ (by rw [hdetected]; rfl) rfl (hall ▸ List.subset_cons_self _ _)
  · rename_i hemitting
    exact .emitted _ _ hemitting
  · exact .stay

theorem Moves.keeps {windowMinutes : ℕ} {w' : ActivationWorker} (hmoves : w.Moves windowMinutes w')
    (h : w.Sound) (hknown : w.Known) : w'.Sound ∧ w'.Known := by
  cases hmoves with
  | stay => exact ⟨h, hknown⟩
  | discovered | found =>
    exact ⟨h.of_same rfl rfl rfl rfl fun c hc => List.mem_append_right _ hc, hknown⟩
  | seeded discoveredTsMs nowTs first others =>
    have hregistered : Sound (if windowMinutes = 0 then w
          else w.registerCandidates discoveredTsMs nowTs (first :: others)) ∧
        Known (if windowMinutes = 0 then w
          else w.registerCandidates discoveredTsMs nowTs (first :: others)) := by
      split
      · exact ⟨h, hknown⟩
      · exact registerCandidates_keeps _ _ _ h hknown
    exact ⟨hregistered.1.of_same rfl rfl rfl rfl fun c hc => List.mem_append_right _ hc,
      hregistered.2⟩
  | predicted discoveredTsMs nowTs market =>
    obtain ⟨hsound, hknown'⟩ := registerCandidates_keeps discoveredTsMs nowTs [market] h hknown
    exact ⟨hsound.of_same rfl rfl rfl rfl fun c hc => List.mem_append_right _ hc, hknown'⟩
  | polled nowTs hidle => exact startPoll_keeps _ hidle h hknown
  | asked polling hbefore hcarried hasked =>
    exact ⟨h.move polling (hcarried.trans hbefore.symm) hasked, hknown⟩
  | taken candidate detectedTsMs rest hdetected hpending =>
    exact take_keeps hdetected hpending h hknown
  | emitted update rest hemitting =>
    refine ⟨h.of_same rfl rfl rfl ?_ fun c hc => List.mem_append_right _ ?_, hknown⟩
    · rw [updates, updates, hemitting]
      exact List.append_nil _
    · rw [ActivationWorker.asked, hemitting]
      exact hc

/-- What holds of the prediction: the starts registered by it follow one another
from the seed, and the next one follows them. -/
structure Predicts (w : ActivationWorker) : Prop where
  unseeded : w.seedTs = none → w.nextStartTs = none ∧ w.predicted = []
  seeded : ∀ seedTs ∈ w.seedTs,
    w.predicted = (List.range w.predicted.length).map (fun i : ℕ => seedTs + marketSeconds * i) ∧
      w.nextStartTs = some (seedTs + marketSeconds * w.predicted.length)
  discovered : ∀ first others, w.discovering = .discovered first others → w.seedTs = none
  found : ∀ market, w.discovering = .found market →
    w.nextStartTs = some market.startTs ∧ market.slug = predictedSlug market.startTs
  listed : ∀ startTs ∈ w.predicted, predictedSlug startTs ∈ w.registered.map Prod.fst

theorem predicts_init : init.Predicts where
  unseeded _ := ⟨rfl, rfl⟩
  seeded _ h := nomatch h
  discovered _ _ h := nomatch h
  found _ h := nomatch h
  listed _ h := absurd h List.not_mem_nil

theorem Predicts.of_same {w' : ActivationWorker} (h : w.Predicts) (hseed : w'.seedTs = w.seedTs)
    (hnext : w'.nextStartTs = w.nextStartTs) (hpredicted : w'.predicted = w.predicted)
    (hdiscovering : w'.discovering = w.discovering)
    (hregistered : w.registered ⊆ w'.registered) : w'.Predicts where
  unseeded hnone := by
    rw [hnext, hpredicted]
    exact h.unseeded (hseed ▸ hnone)
  seeded seedTs hs := by
    rw [hnext, hpredicted]
    exact h.seeded seedTs (hseed ▸ hs)
  discovered first others hw := by
    rw [hseed]
    exact h.discovered first others (hdiscovering ▸ hw)
  found market hw := by
    rw [hnext]
    exact h.found market (hdiscovering ▸ hw)
  listed startTs hstart :=
    List.map_subset Prod.fst hregistered (h.listed startTs (hpredicted ▸ hstart))

theorem registerCandidates_eq (discoveredTsMs nowTs : ℤ) (markets : List Market)
    (w : ActivationWorker) : ∃ pool expired, w.registerCandidates discoveredTsMs nowTs markets =
      { w with
        pool := pool
        expired := expired
        registered := w.registered ++ markets.map fun market => (market.slug, discoveredTsMs) } := by
  unfold registerCandidates
  induction markets generalizing w with
  | nil => exact ⟨w.pool, w.expired, by simp⟩
  | cons market markets ih =>
    have hone : ∃ pool expired, w.registerCandidate discoveredTsMs nowTs market =
        { w with
          pool := pool
          expired := expired
          registered := w.registered ++ [(market.slug, discoveredTsMs)] } := by
      unfold registerCandidate
      simp only
      split
      · exact ⟨_, _, rfl⟩
      · split <;> exact ⟨_, _, rfl⟩
    obtain ⟨pool₁, expired₁, hone⟩ := hone
    obtain ⟨pool, expired, hrest⟩ := ih (w.registerCandidate discoveredTsMs nowTs market)
    refine ⟨pool, expired, ?_⟩
    rw [List.foldl_cons, hrest, hone]
    simp

theorem startPoll_eq (nowTs : ℤ) (w : ActivationWorker) : ∃ pool expired candidates,
    w.startPoll nowTs =
      { w with
        pool := pool
        expired := expired
        polling := .asking candidates
        pollTs := nowTs } := by
  have hall : ∀ slugs : List String, ∃ pool expired, slugs.foldl ActivationWorker.expire w =
      { w with pool := pool, expired := expired } := by
    intro slugs
    induction slugs using List.reverseRecOn with
    | nil => exact ⟨w.pool, w.expired, rfl⟩
    | append_singleton slugs slug ih =>
      obtain ⟨pool, expired, hslugs⟩ := ih
      rw [List.foldl_append, hslugs]
      exact ⟨_, _, rfl⟩
  unfold startPoll
  simp only
  obtain ⟨pool, expired, hslugs⟩ := hall
    ((w.pool.pending.rows.filter fun c => c.market.endTs ≤ nowTs).map Candidate.slug)
  rw [hslugs]
  exact ⟨_, _, _, rfl⟩

theorem Moves.predicts {windowMinutes : ℕ} {w' : ActivationWorker}
    (hmoves : w.Moves windowMinutes w') (h : w.Predicts) : w'.Predicts := by
  cases hmoves with
  | stay => exact h
  | discovered first others hnext =>
    refine ⟨h.unseeded, h.seeded, fun _ _ _ => ?_, nofun, h.listed⟩
    cases hseed : w.seedTs with
    | none => rfl
    | some seedTs => exact nomatch hnext.symm.trans (h.seeded seedTs hseed).2
  | found startTs listing hnext =>
    refine ⟨h.unseeded, h.seeded, nofun, fun market hfound => ?_, h.listed⟩
    obtain rfl := Discovering.found.inj hfound
    exact ⟨hnext, rfl⟩
  | seeded discoveredTsMs nowTs first others hdiscovering =>
    obtain ⟨-, hnone⟩ := h.unseeded (h.discovered first others hdiscovering)
    have hpredicted : (if windowMinutes = 0 then w
        else w.registerCandidates discoveredTsMs nowTs (first :: others)).predicted = [] := by
      split
      · exact hnone
      · obtain ⟨pool, expired, hall⟩ :=
          registerCandidates_eq discoveredTsMs nowTs (first :: others) w
        rw [hall]
        exact hnone
    refine ⟨nofun, fun seedTs hseed => ?_, nofun, nofun, fun startTs hstart => ?_⟩
    · obtain rfl := Option.some.inj hseed
      simp only [hpredicted]
      exact ⟨rfl, by simp⟩
    · simp only [hpredicted] at hstart
      exact absurd hstart List.not_mem_nil
  | predicted discoveredTsMs nowTs market hfound =>
    obtain ⟨hnext, hslug⟩ := h.found market hfound
    obtain ⟨pool, expired, hall⟩ := registerCandidates_eq discoveredTsMs nowTs [market] w
    simp only [hall]
    refine ⟨fun hnone => ?_, fun seedTs hseed => ?_, nofun, nofun, fun startTs hstart => ?_⟩
    · exact nomatch (h.unseeded hnone).1.symm.trans hnext
    · obtain ⟨hpredicted, hseeded⟩ := h.seeded seedTs hseed
      have hstart : market.startTs = seedTs + marketSeconds * w.predicted.length :=
        Option.some.inj (hnext.symm.trans hseeded)
      simp only [hnext, Option.map_some, List.length_append, List.length_singleton,
        List.range_succ, List.map_append, List.map_singleton, ← hpredicted, hstart]
      refine ⟨trivial, congrArg some ?_⟩
      push_cast
      ring
    · rw [List.map_append, List.mem_append]
      rcases List.mem_append.mp hstart with hstart | hstart
      · exact .inl (h.listed startTs hstart)
      · obtain rfl := List.mem_singleton.mp hstart
        exact .inr (by simp [hslug])
  | polled nowTs =>
    obtain ⟨pool, expired, candidates, hpoll⟩ := startPoll_eq nowTs w
    rw [hpoll]
    exact h.of_same rfl rfl rfl rfl (List.Subset.refl _)
  | asked | taken | emitted => exact h.of_same rfl rfl rfl rfl (List.Subset.refl _)

/-- What holds of the poll: whatever it still asks about, or has on the way to
the queue, had not ended when it began, and nor had what was queued at its own
poll's beginning. -/
structure Fresh (w : ActivationWorker) : Prop where
  asked : ∀ c ∈ w.asked, w.pollTs < c.market.endTs
  carried : ∀ u ∈ w.polling.carried, w.pollTs < u.market.endTs
  emitted : List.Forall₂ (fun u polledTs => polledTs < u.market.endTs) w.emitted w.polled

theorem fresh_init : init.Fresh where
  asked _ h := absurd h List.not_mem_nil
  carried _ h := absurd h List.not_mem_nil
  emitted := .nil

theorem Fresh.of_same {w' : ActivationWorker} (h : w.Fresh) (hpolling : w'.polling = w.polling)
    (hts : w'.pollTs = w.pollTs) (hemitted : w'.emitted = w.emitted)
    (hpolled : w'.polled = w.polled) : w'.Fresh where
  asked c hc := by
    rw [ActivationWorker.asked, hpolling] at hc
    rw [hts]
    exact h.asked c hc
  carried u hu := by
    rw [hpolling] at hu
    rw [hts]
    exact h.carried u hu
  emitted := by
    rw [hemitted, hpolled]
    exact h.emitted

/-- A poll that goes on with fewer candidates and nothing on the way. -/
theorem Fresh.move (h : w.Fresh) {polling : Polling} (hcarried : polling.carried = [])
    (hasked : polling.asked ⊆ w.polling.asked) : Fresh { w with polling := polling } where
  asked c hc := h.asked c (hasked hc)
  carried u hu := by
    change u ∈ polling.carried at hu
    rw [hcarried] at hu
    exact absurd hu List.not_mem_nil
  emitted := h.emitted

theorem mem_expireAll {slugs : List String} {c : Candidate}
    (h : c ∈ (slugs.foldl ActivationWorker.expire w).pool.pending.rows) :
    c ∈ w.pool.pending.rows ∧ c.slug ∉ slugs := by
  induction slugs generalizing w with
  | nil => exact ⟨h, List.not_mem_nil⟩
  | cons slug slugs ih =>
    obtain ⟨hpending, hrest⟩ := ih h
    obtain ⟨hbefore, hne⟩ := w.pool.mem_pending_close hpending
    exact ⟨hbefore, List.not_mem_cons_of_ne_of_not_mem hne hrest⟩

/-- A poll begins with the candidates that have not ended. -/
theorem startPoll_fresh (nowTs : ℤ) (h : w.Fresh) : (w.startPoll nowTs).Fresh := by
  refine ⟨fun c hc => ?_, fun u hu => absurd hu List.not_mem_nil, ?_⟩
  · obtain ⟨hpending, hkept⟩ := mem_expireAll hc
    by_contra hended
    refine hkept (List.mem_map_of_mem (List.mem_filter.mpr ⟨hpending, ?_⟩))
    exact decide_eq_true (not_lt.mp hended)
  · obtain ⟨pool, expired, candidates, hpoll⟩ := startPoll_eq nowTs w
    rw [hpoll]
    exact h.emitted

theorem Moves.fresh {windowMinutes : ℕ} {w' : ActivationWorker} (hmoves : w.Moves windowMinutes w')
    (h : w.Fresh) : w'.Fresh := by
  cases hmoves with
  | stay => exact h
  | discovered | found => exact h.of_same rfl rfl rfl rfl
  | seeded discoveredTsMs nowTs first others =>
    split
    · exact h.of_same rfl rfl rfl rfl
    · obtain ⟨pool, expired, hall⟩ :=
        registerCandidates_eq discoveredTsMs nowTs (first :: others) w
      rw [hall]
      exact h.of_same rfl rfl rfl rfl
  | predicted discoveredTsMs nowTs market =>
    obtain ⟨pool, expired, hall⟩ := registerCandidates_eq discoveredTsMs nowTs [market] w
    rw [hall]
    exact h.of_same rfl rfl rfl rfl
  | polled nowTs => exact startPoll_fresh nowTs h
  | asked polling hbefore hcarried hasked => exact h.move hcarried hasked
  | taken candidate detectedTsMs rest hdetected =>
    have hall : w.asked = candidate :: rest := by
      rw [ActivationWorker.asked, hdetected]
      rfl
    refine ⟨fun c hc => h.asked c (hall ▸ List.mem_cons_of_mem _ hc), fun u hu => ?_, h.emitted⟩
    obtain rfl := List.mem_singleton.mp hu
    exact h.asked candidate (hall ▸ List.mem_cons_self)
  | emitted update rest hemitting =>
    have hcarried : update ∈ w.polling.carried := by
      rw [hemitting]
      exact List.mem_singleton_self _
    refine ⟨fun c hc => h.asked c ?_, fun u hu => absurd hu List.not_mem_nil, ?_⟩
    · rw [ActivationWorker.asked, hemitting]
      exact hc
    · exact List.rel_append h.emitted (.cons (h.carried update hcarried) .nil)

end Steps

/-- In every interleaving of the two threads: each slug is emitted at most once,
never once it was dropped as expired, and by a poll that began before the
market's end; each slug registered is a candidate or handled and not both, and
keeps the time of its first discovery; and the starts registered by prediction
are the seed and the ones that follow it, each once, with the next one a step
past the last. -/
theorem activated_once (windowMinutes : ℕ) (codec : Codec) (w : ActivationWorker)
    (hrun : Run (fun w w' => ∃ e, w.next windowMinutes codec e = w') init w) :
    (w.emitted.map fun u => u.market.slug).Nodup ∧
    (∀ u ∈ w.emitted, u.market.slug ∉ w.expired) ∧
    List.Forall₂ (fun u polledTs => polledTs < u.market.endTs) w.emitted w.polled ∧
    (∀ slug, slug ∈ w.registered.map Prod.fst ↔
      Xor (slug ∈ w.pool.handled) ((w.pool.pending.get? slug).isSome = true)) ∧
    (∀ c ∈ w.pool.pending.rows, w.registered.lookup c.slug = some c.marketDiscoveredTsMs) ∧
    (∀ u ∈ w.emitted, w.registered.lookup u.market.slug = some u.marketDiscoveredTsMs) ∧
    (w.seedTs = none → w.nextStartTs = none ∧ w.predicted = []) ∧
    (∀ seedTs ∈ w.seedTs,
      w.predicted = (List.range w.predicted.length).map (fun i : ℕ => seedTs + marketSeconds * i) ∧
      w.nextStartTs = some (seedTs + marketSeconds * w.predicted.length)) ∧
    ∀ startTs ∈ w.predicted, predictedSlug startTs ∈ w.registered.map Prod.fst := by
  have hall : (w.Sound ∧ w.Known) ∧ w.Predicts ∧ w.Fresh := by
    refine run_preserves (fun w => (w.Sound ∧ w.Known) ∧ w.Predicts ∧ w.Fresh) ?_ hrun
      ⟨⟨sound_init, fun _ => by simp [init, WorkPool.Knows, WorkPool.empty]⟩, predicts_init,
        fresh_init⟩
    rintro w w' ⟨e, rfl⟩ ⟨⟨hsound, hknown⟩, hpredicts, hfresh⟩
    have hmoves := next_moves windowMinutes codec w e
    exact ⟨hmoves.keeps hsound hknown, hmoves.predicts hpredicts, hmoves.fresh hfresh⟩
  obtain ⟨⟨hsound, hknown⟩, hpredicts, hfresh⟩ := hall
  have hemitted : ∀ u ∈ w.emitted, u ∈ w.updates := fun u hu => List.mem_append_left _ hu
  obtain ⟨htaken, -, hapart⟩ := List.nodup_append.mp hsound.once
  refine ⟨?_, fun u hu hexpired => ?_, hfresh.emitted, fun slug => ?_, fun c hc => ?_,
    fun u hu => ?_, hpredicts.unseeded, hpredicts.seeded, hpredicts.listed⟩
  · rw [taken, updates, List.map_append] at htaken
    exact (List.nodup_append.mp htaken).1
  · exact hapart _ (List.mem_map_of_mem (hemitted u hu)) _ hexpired rfl
  · rw [← hknown, WorkPool.knows_iff_one]
  · exact hsound.dated c (List.mem_append_left _ hc)
  · exact hsound.datedUpdates u (hemitted u hu)

end ActivationWorker

def pairTokens : ClobAnswer :=
  .payload (.object [("t", .array [.object [("t", .string "up-token")],
    .object [("t", .string "down-token")]])])

/-- A worker that finds the paired market listed twice and predicts the two after
it, the first of which is over before its tokens are there. -/
def threeMarkets : ActivationWorker :=
  let listing : GammaListing := ⟨"0xc1", "up-token", "down-token", 5, 1 / 100⟩
  [.discover (.ok [pairMarket, pairMarket]), .register 1000 1, .find (.ok (some listing)),
    .register 2000 2, .poll 299, .ask pairTokens 299500, .take, .emit, .ask .missing 299600,
    .ask .missing 299600, .find (.ok (some listing)), .register 3000 3, .poll 700,
    .ask pairTokens 700500, .take, .emit].foldl
    (ActivationWorker.next 30 pairExchange.codec) ActivationWorker.init

theorem activated_once_three :
    threeMarkets.emitted.map (fun u => (u.market.slug, u.marketDiscoveredTsMs)) =
      [("btc-updown-5m-0", 1000), ("btc-updown-5m-600", 3000)] ∧
    threeMarkets.expired = ["btc-updown-5m-300"] ∧ threeMarkets.predicted = [300, 600] ∧
    threeMarkets.nextStartTs = some 900 ∧
    (threeMarkets.emitted.map fun u => u.market.slug).Nodup ∧
    List.Forall₂ (fun u polledTs => polledTs < u.market.endTs) threeMarkets.emitted
      threeMarkets.polled := by
  obtain ⟨honce, -, hfresh, -⟩ := ActivationWorker.activated_once 30 pairExchange.codec threeMarkets
    (run_of_events _ _)
  exact ⟨by decide +kernel, by decide +kernel, by decide +kernel, by decide +kernel, honce, hfresh⟩

def answeredAt (detectedTsMs : ℤ) : ActivationWorker :=
  [.discover (.ok [pairMarket]), .register 1000 1, .poll 299, .ask pairTokens detectedTsMs, .take,
    .emit].foldl (ActivationWorker.next 30 pairExchange.codec) ActivationWorker.init

/-- The end is not looked at again once the CLOB was asked: a market is emitted
that is over by the update's own clock. -/
theorem activated_once_late : ∃ u ∈ (answeredAt 301000).emitted,
    u.market.endTs * 1000 ≤ u.marketParametersDetectedTsMs := by
  decide +kernel

end EventQuant
