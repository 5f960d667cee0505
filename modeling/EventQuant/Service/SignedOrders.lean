import EventQuant.Service.Turns

/-!
What a turn signs and what it hands to a knock. An account signs a market's
entry under one key; while the orders signed under it are held, no others are
signed, and every knock of the market carries them. Only settling an entry
drops them, and then its placement is not tried again.
-/
namespace EventQuant

open Program Store
open Knock (Leg MemberResult)

/-- What the venue lists a market under: a condition that no other market has,
and the tokens of its outcomes. -/
structure Listing where
  conditionId : String → String
  upTokenId : String → String
  downTokenId : String → String
  distinct : Function.Injective conditionId

def Listing.Lists (l : Listing) (market : Market) : Prop :=
  market.conditionId = l.conditionId market.slug ∧ market.upTokenId = l.upTokenId market.slug ∧
    market.downTokenId = l.downTokenId market.slug

namespace EntrySubmission

def outcomes : EntrySubmission → List String
  | single => ["up", "down"]
  | soloUp => ["up"]
  | soloDown => ["down"]

def legs (mode : EntrySubmission) (bodies : List String) : List Leg :=
  List.zipWith (fun outcome body => ⟨outcome, body⟩) mode.outcomes bodies

/-- The legs are told apart by their outcomes. -/
theorem legs_nodup (mode : EntrySubmission) (bodies : List String) :
    ((mode.legs bodies).map Leg.outcome).Nodup := by
  cases mode <;> rcases bodies with _ | ⟨up, _ | ⟨down, rest⟩⟩ <;> simp [legs, outcomes]

end EntrySubmission

namespace Exchange

theorem entrySpecifications_outcomes (x : Exchange) (market : Market) :
    (x.entrySpecifications market).map Prod.fst = x.entrySubmission.outcomes := by
  unfold entrySpecifications
  cases x.entrySubmission <;> rfl

theorem entry_legs {x : Exchange} {market : Market} {price size : ℚ} {bodies : List String}
    {entry : Entry} (h : x.entry market price size bodies = .ok entry) :
    entry.legs = x.entrySubmission.legs bodies := by
  rw [(entry_ok h).2, EntrySubmission.legs, ← x.entrySpecifications_outcomes market,
    List.zipWith_map_left]

end Exchange

def Entry.handed (entry : Entry) (account slug : String) : Knocked :=
  ⟨account, slug, entry.submissionKey, entry.legs⟩

namespace Service

variable (s : Service) (l : Listing)

def entrySize (account : String) : ℚ :=
  match s.fleet with
  | none => s.orderSize
  | some f =>
    match f.member account with
    | .ok m => m.size
    | .error _ => s.orderSize

def entryKey (account slug : String) : SubmissionKey :=
  ⟨l.conditionId slug, l.upTokenId slug, l.downTokenId slug, s.plan.buyPrice, s.entrySize account⟩

def Keyed (k : Knocked) : Prop := k.key = s.entryKey l k.account k.slug

def Holds (b : Bot) (k : Knocked) : Prop :=
  ∃ bodies, b.submissions.lookup (k.account, k.key) = some bodies ∧
    k.legs = s.entrySubmission.legs bodies

/-- Nothing is signed for a key of which an order was handed to a knock, and an
account hands over what it handed over before for the market. -/
def SignedOnce (b : Bot) : Effect → Prop
  | .sign account key _ => ∀ k ∈ b.knocked, ¬ (k.account = account ∧ k.key = key)
  | .knock k => s.Keyed l k ∧ s.Holds b k ∧
    ∀ k' ∈ b.knocked, k'.account = k.account → k'.slug = k.slug → k'.legs = k.legs
  | _ => True

/-- Every account can be placed on the market again with the orders it handed
over before. -/
structure Ready (slug : String) (b : Bot) : Prop where
  keyed : ∀ k ∈ b.knocked, s.Keyed l k
  held : ∀ k ∈ b.knocked, k.slug = slug → s.Holds b k

variable {s l}

theorem entryKey_slug {account slug slug' : String}
    (h : s.entryKey l account slug = s.entryKey l account slug') : slug = slug' :=
  l.distinct (congrArg SubmissionKey.conditionId h)

theorem Holds.signed {b : Bot} {k : Knocked} (h : s.Holds b k) {account : String}
    {key : SubmissionKey} (hnone : b.submissions.lookup (account, key) = none)
    (bodies : List String) : s.Holds (Store.apply b (.sign account key bodies)) k := by
  obtain ⟨held, hlookup, hlegs⟩ := h
  refine ⟨held, ?_, hlegs⟩
  have hne : (k.account, k.key) ≠ (account, key) := by
    intro hsame
    rw [hsame, hnone] at hlookup
    cases hlookup
  change (b.submissions.insert (account, key) bodies).lookup (k.account, k.key) = _
  rw [AList.lookup_insert_ne hne, hlookup]

/-- Two hand-overs of one account and market that are both held are alike. -/
theorem Holds.agrees {b : Bot} {k k' : Knocked} (h : s.Holds b k) (h' : s.Holds b k')
    (hkeyed : s.Keyed l k) (hkeyed' : s.Keyed l k') (haccount : k'.account = k.account)
    (hslug : k'.slug = k.slug) : k'.legs = k.legs := by
  obtain ⟨bodies, hlookup, hlegs⟩ := h
  obtain ⟨bodies', hlookup', hlegs'⟩ := h'
  rw [hkeyed', haccount, hslug, ← hkeyed, hlookup, Option.some.injEq] at hlookup'
  rw [hlegs, hlegs', hlookup']

namespace Ready

variable {slug : String} {b : Bot}

theorem sign (h : s.Ready l slug b) {account : String} {key : SubmissionKey}
    (hnone : b.submissions.lookup (account, key) = none) (bodies : List String) :
    s.Ready l slug (Store.apply b (.sign account key bodies)) where
  keyed := h.keyed
  held k hk hslug := (h.held k hk hslug).signed hnone bodies

theorem signedOnce_sign (h : s.Ready l slug b) {account : String} {bodies : List String}
    (hnone : b.submissions.lookup (account, s.entryKey l account slug) = none) :
    s.SignedOnce l b (.sign account (s.entryKey l account slug) bodies) := by
  rintro k hk ⟨rfl, hkey⟩
  have hslug : k.slug = slug := entryKey_slug ((h.keyed k hk).symm.trans hkey)
  obtain ⟨held, hlookup, -⟩ := h.held k hk hslug
  rw [hkey, hnone] at hlookup
  cases hlookup

theorem knock (h : s.Ready l slug b) {k : Knocked} (hkeyed : s.Keyed l k) (hheld : s.Holds b k) :
    s.Ready l slug (Store.apply b (.knock k)) where
  keyed k' hk' := by
    rcases List.mem_append.mp hk' with hold | hnew
    · exact h.keyed k' hold
    · rwa [List.mem_singleton.mp hnew]
  held k' hk' hslug := by
    rcases List.mem_append.mp hk' with hold | hnew
    · exact h.held k' hold hslug
    · rwa [List.mem_singleton.mp hnew]

theorem signedOnce_knock (h : s.Ready l slug b) {k : Knocked} (hslug : k.slug = slug)
    (hkeyed : s.Keyed l k) (hheld : s.Holds b k) : s.SignedOnce l b (.knock k) := by
  refine ⟨hkeyed, hheld, fun k' hk' haccount hsame => ?_⟩
  exact hheld.agrees (h.held k' hk' (hsame.trans hslug)) hkeyed (h.keyed k' hk') haccount hsame

theorem cancel (h : s.Ready l slug b) {e : Effect} (he : e.Cancels) :
    s.Ready l slug (Store.apply b e) := by
  cases e with
  | cancel account orderIds => exact ⟨h.keyed, h.held⟩
  | _ => exact absurd he id

end Ready

theorem signedOnce_settles {market : Market} {e : Effect} (h : e.Settles market) (b : Bot) :
    s.SignedOnce l b e := by
  cases e with
  | forget account key => trivial
  | cancel account orderIds => trivial
  | _ => exact absurd h id

variable (s l)

/-- Commits that sign once; what is returned meets `post`, and what is raised
leaves the market ready. -/
abbrev Signs {α : Type} (slug : String) (a : Action α) (post : α → Bot → Prop) (b : Bot) : Prop :=
  Safe (s.SignedOnce l) a post (fun _ => s.Ready l slug) b

section Preparing

variable (market : Market)

def Carries (account slug : String) (entry : Entry) (t : Bot) : Prop :=
  s.Keyed l (entry.handed account slug) ∧ s.Holds t (entry.handed account slug)

/-- What preparing an account's entry leaves: all that was held, and its own
orders if it has an entry. -/
structure Prepared (account : String) (b : Bot) (entry : Option Entry) (t : Bot) : Prop where
  ready : s.Ready l market.slug t
  held : ∀ k, s.Holds b k → s.Holds t k
  carries : ∀ e, entry = some e → s.Carries l account market.slug e t

/-- Without an entry there are no orders to have. -/
theorem prepared_none {account : String} {b t : Bot} (ht : s.Ready l market.slug t)
    (hheld : ∀ k, s.Holds b k → s.Holds t k) : s.Prepared l market account b none t where
  ready := ht
  held := hheld
  carries e he := absurd he (by simp)

theorem prepareEntry_signs {x : Exchange} (hmode : x.entrySubmission = s.entrySubmission)
    {size : ℚ} (hkey : submissionKey market s.plan.buyPrice size = s.entryKey l x.account market.slug)
    (sign : Except SigningFailure (String × String → String)) {b : Bot}
    (hb : s.Ready l market.slug b) :
    Safe (s.SignedOnce l) (x.prepareEntry market s.plan.buyPrice size sign)
      (fun p => s.Prepared l market x.account b p.getLeft?)
      (fun _ => s.Prepared l market x.account b none) b := by
  have hentry : ∀ bodies t, s.Ready l market.slug t → (∀ k, s.Holds b k → s.Holds t k) →
      t.submissions.lookup (x.account, s.entryKey l x.account market.slug) = some bodies →
      Safe (s.SignedOnce l)
        (answer ((x.entry market s.plan.buyPrice size bodies).map Sum.inl) :
          Action (Entry ⊕ PlacementResult))
        (fun p => s.Prepared l market x.account b p.getLeft?)
        (fun _ => s.Prepared l market x.account b none) t := by
    intro bodies t ht hheld hlookup
    refine safe_answer _ (fun p hp => ⟨ht, hheld, ?_⟩) fun _ _ =>
      s.prepared_none l market ht hheld
    rintro entry hsome
    cases hx : x.entry market s.plan.buyPrice size bodies with
    | error e => simp [hx, Except.map] at hp
    | ok entry' =>
      simp only [hx, Except.map, Except.ok.injEq] at hp
      subst hp
      obtain rfl : entry' = entry := by simpa using hsome
      have hsigned := (Exchange.entry_ok hx).1.trans hkey
      refine ⟨hsigned, bodies, ?_, (Exchange.entry_legs hx).trans (by rw [hmode])⟩
      change t.submissions.lookup (x.account, entry'.submissionKey) = _
      rw [hsigned, hlookup]
  unfold Exchange.prepareEntry
  simp only [bind_eq]
  rw [hkey]
  refine safe_andThen (q := fun signed t => t = b ∧
    signed = b.submissions.lookup (x.account, s.entryKey l x.account market.slug))
    (safe_read _ ⟨rfl, rfl⟩) ?_
  rintro signed t ⟨rfl, hsigned⟩
  split
  · exact hentry _ t hb (fun _ hk => hk) hsigned.symm
  · split
    · exact safe_return _ (s.prepared_none l market hb fun _ hk => hk)
    · exact safe_raise _ (s.prepared_none l market hb fun _ hk => hk)
    · rename_i body
      refine safe_andThen (q := fun _ t' => t' = Store.apply t (.sign x.account
        (s.entryKey l x.account market.slug) ((x.entrySpecifications market).map body)))
        (safe_commit _ (hb.signedOnce_sign hsigned.symm) rfl) ?_
      rintro _ t' rfl
      refine hentry _ _ (hb.sign hsigned.symm _) (fun k hk => hk.signed hsigned.symm _) ?_
      exact AList.lookup_insert _

end Preparing

section Settling

variable (x : Exchange) (market : Market)

/-- What is signed is dropped as the last thing, with a result that is not to
be tried again. -/
theorem forget_signs (account : String) (key : SubmissionKey) (r : PlacementResult)
    (hr : r.retryable = false) (b : Bot) :
    s.Signs l market.slug
      (do
        commit (.forget account key)
        return' r)
      (fun r t => r.retryable = true → s.Ready l market.slug t) b := by
  refine safe_andThen (q := fun _ _ => True) (safe_commit _ trivial trivial) fun _ t _ => ?_
  exact safe_return r fun hretryable => absurd hretryable (by simp [hr])

/-- A cancel may raise, and then nothing was dropped. -/
theorem cancel_signs (orderIds : List String) (cancel : Except Exn Unit)
    {rest : Action PlacementResult} {b : Bot} (hb : s.Ready l market.slug b)
    (hrest : ∀ t, s.Signs l market.slug rest
      (fun r t => r.retryable = true → s.Ready l market.slug t) t) :
    s.Signs l market.slug
      (do
        commit (.cancel x.account orderIds)
        answer cancel
        rest)
      (fun r t => r.retryable = true → s.Ready l market.slug t) b := by
  refine safe_andThen (q := fun _ => s.Ready l market.slug)
    (safe_commit _ trivial (hb.cancel trivial)) fun _ t ht => ?_
  exact safe_andThen (q := fun _ _ => True)
    (safe_answer _ (fun _ _ => trivial) fun _ _ => ht) fun _ t' _ => hrest t'

theorem finalizeDualResult_signs (result : PlacementResult) (hresult : result.retryable = false)
    (key : SubmissionKey) (cancel : Except Exn Unit) {b : Bot} (hb : s.Ready l market.slug b) :
    s.Signs l market.slug (x.finalizeDualResult result key cancel)
      (fun r t => r.retryable = true → s.Ready l market.slug t) b := by
  unfold Exchange.finalizeDualResult
  split_ifs
  · exact s.forget_signs l market _ _ result hresult b
  · exact s.cancel_signs l x market _ cancel hb fun t => s.forget_signs l market _ _ result hresult t
  · exact s.forget_signs l market _ _ result hresult b
  · exact safe_return result fun _ => hb

theorem entryResult_final (entry : Entry) (outcome : MemberResult) (accepted : List PlacedOrder) :
    (x.entryResult entry outcome accepted).retryable = false := by
  unfold Exchange.entryResult
  simp only
  split_ifs <;> rfl

/-- Settling an entry raises before anything is dropped, and what it returns is
not to be tried again. -/
theorem settleEntry_signs (entry : Entry) (outcome : MemberResult) (cancel : Except Exn Unit)
    {b : Bot} (hb : s.Ready l market.slug b) :
    s.Signs l market.slug (x.settleEntry entry outcome cancel)
      (fun r t => r.retryable = true → s.Ready l market.slug t) b := by
  unfold Exchange.settleEntry
  refine safe_andThen (q := fun _ => s.Ready l market.slug)
    (safe_answer _ (fun _ _ => hb) fun _ _ => hb) fun accepted t ht => ?_
  simp only
  split_ifs
  · exact safe_raise _ ht
  · exact s.finalizeDualResult_signs l x market _ (entryResult_final x entry outcome accepted) _ _ ht

/-- Looking for an ambiguous submission keeps what was signed where it raises
and where it is to be tried again. -/
theorem reconcileAmbiguousDual_signs (price size : ℚ) (retryableIfMissing : Bool)
    (openOrders : Except Exn (List Python.Value)) (cancel : Except Exn Unit) {b : Bot}
    (hb : s.Ready l market.slug b) :
    s.Signs l market.slug
      (x.reconcileAmbiguousDual market price size retryableIfMissing openOrders cancel)
      (fun r t => r.retryable = true → s.Ready l market.slug t) b := by
  unfold Exchange.reconcileAmbiguousDual
  refine safe_andThen (q := fun _ => s.Ready l market.slug)
    (safe_answer _ (fun _ _ => hb) fun _ _ => hb) fun rows t ht => ?_
  refine safe_andThen (q := fun _ => s.Ready l market.slug)
    (safe_answer _ (fun _ _ => ht) fun _ _ => ht) fun found t ht => ?_
  simp only
  split
  · split
    · exact safe_return _ fun _ => ht
    · exact s.forget_signs l market _ _ _ rfl t
  · split
    · exact s.cancel_signs l x market _ cancel ht fun t => s.forget_signs l market _ _ _ rfl t
    · split
      · exact safe_return _ fun _ => ht
      · exact s.forget_signs l market _ _ _ rfl t

end Settling

section Solo

variable {s l} {market : Market} {x : Exchange}

theorem solo_of_exchange (hfleet : s.fleet = none) (hexchange : s.exchange = some x) :
    x = s.solo := by
  unfold exchange at hexchange
  split at hexchange
  · simpa [hfleet, eq_comm] using hexchange
  · cases hexchange

theorem entryKey_listed (hlisted : l.Lists market) {account : String} {size : ℚ}
    (hsize : s.entrySize account = size) :
    submissionKey market s.plan.buyPrice size = s.entryKey l account market.slug := by
  obtain ⟨hcondition, hup, hdown⟩ := hlisted
  rw [submissionKey, entryKey, hsize, hcondition, hup, hdown]

theorem placeDual_signs (hfleet : s.fleet = none) (hlisted : l.Lists market)
    (answers : SoloAnswers) {b : Bot} (hb : s.Ready l market.slug b) :
    s.Signs l market.slug (s.placeDual s.solo market answers)
      (fun r t => r.retryable = true → s.Ready l market.slug t) b := by
  have hsize : s.entrySize s.solo.account = s.orderSize := by
    unfold entrySize
    rw [hfleet]
  have hprepare := s.prepareEntry_signs l market (x := s.solo) rfl
    (entryKey_listed hlisted hsize) answers.sign hb
  refine safe_andThen (hprepare.mono (fun _ _ h => h) fun _ _ h => h.ready) fun p t ht => ?_
  cases p with
  | inr result => exact safe_return result fun _ => ht.ready
  | inl entry =>
    obtain ⟨hkeyed, hheld⟩ := ht.carries entry rfl
    simp only
    split
    · exact safe_raise _ ht.ready
    · refine safe_andThen (q := fun _ => s.Ready l market.slug)
        (safe_commit _ (ht.ready.signedOnce_knock rfl hkeyed hheld) (ht.ready.knock hkeyed hheld))
        fun _ t' ht' => ?_
      refine safe_andThen (q := fun _ => s.Ready l market.slug)
        (safe_answer _ (fun _ _ => ht') fun _ _ => ht') fun outcomes t' ht' => ?_
      split
      · exact safe_raise _ ht'
      · exact s.settleEntry_signs l s.solo market entry _ _ ht'

/-- One account signs once, and is left ready where its placement is to be
tried again. -/
theorem soloResult_signs (hfleet : s.fleet = none) (hexchange : s.exchange = some x)
    (hlisted : l.Lists market) (answers : SoloAnswers) {b : Bot}
    (hb : s.Ready l market.slug b) :
    s.Signs l market.slug (s.soloResult x market answers)
      (fun r t => r.retryable = true → s.Ready l market.slug t) b := by
  obtain rfl := solo_of_exchange hfleet hexchange
  refine safe_handle (placeDual_signs hfleet hlisted answers hb) fun e t ht => ?_
  cases e with
  | other kind message => exact safe_return _ nofun
  | ambiguousPlacement message retryable attempts =>
    have hreconcile : s.Signs l market.slug
        (do
          let result ← s.solo.reconcileAmbiguousDual market s.plan.buyPrice s.orderSize
            retryable answers.openOrders answers.cancelFound
          return'
            { orders := result.orders
              error := result.error
              retryable := result.retryable
              attempts := attempts } : Action PlacementResult)
        (fun r t => r.retryable = true → s.Ready l market.slug t) t :=
      safe_andThen (s.reconcileAmbiguousDual_signs l s.solo market _ _ retryable _ _ ht)
        fun r t' ht' => safe_return _ ht'
    exact safe_handle hreconcile fun e' t' ht' => safe_return _ fun _ => ht'

end Solo

end Service

end EventQuant
