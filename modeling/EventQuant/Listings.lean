import EventQuant.Discovery

/-!
Which listings are well formed, which raise what the code does not catch, and
what one of these does to the others. A market is discovered with every other
well formed one exactly where no event of the listing escapes the `except`.
-/
namespace EventQuant

open Python Results

namespace MarketDiscovery

variable (codec : Codec) (deep : String → Bool)

def Loaded (market : Value) (name : String) (value : Value) : Prop :=
  ∃ text, field name market = some (.string text) ∧ deep text = false ∧
    codec.loads text = some value

def Nested (market : Value) (name : String) : Prop :=
  ∃ text, field name market = some (.string text) ∧ deep text = true

def Opposite (outcomes tokens : List Value) (name token : String) : Prop :=
  ∃ before after value, outcomes.zip tokens = before ++ (.string name, value) :: after ∧
    (∀ pair ∈ after, pair.1 ≠ .string name) ∧ token = value.str codec

/-- The two lists of a market: as many tokens as outcomes, with one for each of
the two. -/
structure Paired (outcomes tokenIds : Value) (upTokenId downTokenId : String)
    (names tokens : List Value) : Prop where
  iteratesOutcomes : outcomes.iterate = .ok names
  iteratesTokens : tokenIds.iterate = .ok tokens
  length : names.length = tokens.length
  hashable : ∀ name ∈ names, hashable name = true
  up : Opposite codec names tokens "Up" upTokenId
  down : Opposite codec names tokens "Down" downTokenId

/-- A market that can be named. -/
structure Named (market : Value) (slug : String) (names : Names) : Prop where
  start : int (afterLastDash slug) = some names.startTs
  lists : ∃ outcomes tokenIds outcomeList tokenList,
    Loaded codec deep market "clobTokenIds" tokenIds ∧
      Loaded codec deep market "outcomes" outcomes ∧
      Paired codec outcomes tokenIds names.upTokenId names.downTokenId outcomeList tokenList
  condition : ∃ value, field "conditionId" market = some value ∧
    names.conditionId = value.str codec

/-- A well formed listing, and the market it lists. -/
structure WellFormed (market : Value) (slug : String) (m : ListedMarket) : Prop where
  prefixed : hasSlugStart slug = true
  orderBook : (market.get "enableOrderBook").truthy = true
  keepsSlug : m.slug = slug
  named : Named codec deep market slug ⟨m.startTs, m.conditionId, m.upTokenId, m.downTokenId⟩
  ends : m.endTs = m.startTs + 300
  minSize : decimalValue ((minSize market).str codec) = some m.minSize
  tickSize : decimalValue ((tickSize market).str codec) = some m.tickSize

/-- What a listing raises past the `except`: a list that nests too deep, or a
size that is no decimal on a market that is otherwise well formed. -/
inductive Escapes (market : Value) (slug : String) : Prop
  | tokenIds (startTs : ℤ) (hstart : int (afterLastDash slug) = some startTs)
      (hnested : Nested deep market "clobTokenIds")
  | outcomes (startTs : ℤ) (tokenIds : Value) (hstart : int (afterLastDash slug) = some startTs)
      (htokens : Loaded codec deep market "clobTokenIds" tokenIds)
      (hnested : Nested deep market "outcomes")
  | size (names : Names) (hnamed : Named codec deep market slug names)
      (hsize : decimalValue ((MarketDiscovery.minSize market).str codec) = none ∨
        decimalValue ((MarketDiscovery.tickSize market).str codec) = none)

/-- A market that is a dictionary, where it is looked into at all, and that
raises nothing the `except` lets through. -/
def ReadableMarket (market : Value) (slug : String) : Prop :=
  hasSlugStart slug = true → market.isObject = true ∧
    ((market.get "enableOrderBook").truthy = true → ¬ Escapes codec deep market slug)

/-- An event whose rows are there to be counted and whose one market, if it is
one, is readable. -/
def Readable (event : Value) : Prop :=
  event.isObject = true ∧
    match marketRows event with
    | .array [market] => ReadableMarket codec deep market (slugOf codec event)
    | .array _ => True
    | .object fields => fields.length ≠ 1
    | .string text =>
      text.length = 1 → ReadableMarket codec deep (.string text) (slugOf codec event)
    | .null | .bool _ | .number _ => False

def Lists (event : Value) (m : ListedMarket) : Prop :=
  ∃ market, event.get "markets" = .array [market] ∧
    WellFormed codec deep market (slugOf codec event) m

def Uncaught {α : Type} (x : Except Raised α) : Prop :=
  ∃ raised, x = .error raised ∧ raised.caught = false

section Steps

variable {α β : Type}

theorem bind_ok_iff {x : Except Raised α} {f : α → Except Raised β} {b : β} :
    x >>= f = .ok b ↔ ∃ a, x = .ok a ∧ f a = .ok b := by
  cases x with
  | error e => simp [bind, Except.bind]
  | ok a => simp [bind, Except.bind]

theorem uncaught_bind {x : Except Raised α} {f : α → Except Raised β} :
    Uncaught (x >>= f) ↔ Uncaught x ∨ ∃ a, x = .ok a ∧ Uncaught (f a) := by
  cases x with
  | error e => simp [bind, Except.bind, Uncaught]
  | ok a => simp [bind, Except.bind, Uncaught]

@[simp] theorem not_uncaught_ok (a : α) : ¬ Uncaught (.ok a : Except Raised α) := by
  rintro ⟨raised, h, -⟩
  cases h

@[simp] theorem uncaught_error (raised : Raised) :
    Uncaught (.error raised : Except Raised α) ↔ raised.caught = false := by
  constructor
  · rintro ⟨raised', h, hcaught⟩
    cases h
    exact hcaught
  · exact fun h => ⟨raised, rfl, h⟩

variable {codec deep} {market : Value} {name slug : String}

theorem startOf_ok_iff {startTs : ℤ} :
    startOf slug = .ok startTs ↔ int (afterLastDash slug) = some startTs := by
  unfold startOf
  cases int (afterLastDash slug) with
  | none => simp
  | some startTs' => simp

theorem not_uncaught_startOf : ¬ Uncaught (startOf slug) := by
  unfold startOf
  cases int (afterLastDash slug) with
  | none => simp [Raised.caught]
  | some startTs' => simp

theorem item_ok_iff {value : Value} :
    item market name = .ok value ↔ field name market = some value := by
  unfold item
  cases field name market with
  | none => simp
  | some value' => simp

theorem not_uncaught_item : ¬ Uncaught (item market name) := by
  unfold item
  cases field name market with
  | none => simp [Raised.caught]
  | some value' => simp

theorem loads_ok_iff {v value : Value} : loads codec deep v = .ok value ↔
    ∃ text, v = .string text ∧ deep text = false ∧ codec.loads text = some value := by
  cases v with
  | string text =>
    unfold loads
    by_cases hdeep : deep text = true
    · simp [hdeep]
    · simp only [if_neg hdeep]
      cases hloads : codec.loads text with
      | none => simp [hloads]
      | some value' => simp [hloads, hdeep]
  | null | bool b | number text | array items | object fields => simp [loads]

theorem uncaught_loads_iff {v : Value} : Uncaught (loads codec deep v) ↔
    ∃ text, v = .string text ∧ deep text = true := by
  cases v with
  | string text =>
    unfold loads
    by_cases hdeep : deep text = true
    · simp [hdeep, Raised.caught]
    · simp only [if_neg hdeep]
      cases codec.loads text with
      | none => simp [hdeep, Raised.caught]
      | some value' => simp [hdeep]
  | null | bool b | number text | array items | object fields => simp [loads, Raised.caught]

theorem size_ok_iff {v : Value} {d : DecimalValue} :
    size codec v = .ok d ↔ decimalValue (v.str codec) = some d := by
  unfold size
  cases decimalValue (v.str codec) with
  | none => simp
  | some d' => simp

theorem uncaught_size_iff {v : Value} :
    Uncaught (size codec v) ↔ decimalValue (v.str codec) = none := by
  unfold size
  cases decimalValue (v.str codec) with
  | none => simp [Raised.caught]
  | some d' => simp

/-- The last token under a text is the token opposite the last outcome of that
name. -/
theorem lookup_textKey_iff {outcomes tokens : List Value} {outcome : String} {value : Value} :
    (dict ((outcomes.zip tokens).filterMap textKey)).lookup outcome = some value ↔
      ∃ before after, outcomes.zip tokens = before ++ (.string outcome, value) :: after ∧
        ∀ pair ∈ after, pair.1 ≠ .string outcome := by
  have hkey : ∀ {pair : Value × Value} {entry : String × Value},
      textKey pair = some entry ↔ pair = (.string entry.1, entry.2) := by
    rintro ⟨key, value⟩ ⟨text, value'⟩
    cases key <;> simp [textKey]
  rw [lookup_dict_iff]
  constructor
  · rintro ⟨before, after, hsplit, hafter⟩
    obtain ⟨front, back, hpairs, -, hback⟩ := List.filterMap_eq_append_iff.mp hsplit
    obtain ⟨skipped, pair, rest, rfl, hskipped, hpair, hrest⟩ := List.filterMap_eq_cons_iff.mp hback
    rw [hkey] at hpair
    refine ⟨front ++ skipped, rest, by rw [hpairs, hpair, List.append_assoc], ?_⟩
    intro other hother hname
    have hmem : (outcome, other.2) ∈ rest.filterMap textKey :=
      List.mem_filterMap.mpr ⟨other, hother, hkey.mpr (Prod.ext hname rfl)⟩
    exact hafter (outcome, other.2) (hrest ▸ hmem) rfl
  · rintro ⟨before, after, hsplit, hafter⟩
    refine ⟨before.filterMap textKey, after.filterMap textKey, ?_, ?_⟩
    · rw [hsplit, List.filterMap_append]
      rfl
    · intro entry hentry heq
      obtain ⟨pair, hpair, htext⟩ := List.mem_filterMap.mp hentry
      rw [hkey] at htext
      exact hafter pair hpair (by rw [htext, heq])

theorem tokenByOutcome_ok_iff {outcomes tokenIds : Value} {found : List (String × Value)} :
    tokenByOutcome outcomes tokenIds = .ok found ↔
      ∃ names tokens, outcomes.iterate = .ok names ∧ tokenIds.iterate = .ok tokens ∧
        names.length = tokens.length ∧ (∀ name ∈ names, hashable name = true) ∧
        found = dict ((names.zip tokens).filterMap textKey) := by
  unfold tokenByOutcome
  cases outcomes.iterate with
  | error e => simp
  | ok names =>
    cases tokenIds.iterate with
    | error e => simp
    | ok tokens =>
      by_cases hlength : names.length = tokens.length
      · have hzip : ((names.zip tokens).all fun pair => hashable pair.1) = true ↔
            ∀ name ∈ names, hashable name = true := by
          conv_rhs => rw [← List.map_fst_zip hlength.le]
          simp [List.all_eq_true]
        by_cases hall : ((names.zip tokens).all fun pair => hashable pair.1) = true
        · simp only [if_pos hall, if_pos hlength]
          constructor
          · intro h
            exact ⟨names, tokens, rfl, rfl, hlength, hzip.mp hall, (Except.ok.inj h).symm⟩
          · rintro ⟨names', tokens', hnames, htokens, -, -, rfl⟩
            cases hnames
            cases htokens
            rfl
        · simp only [if_neg hall]
          simp only [reduceCtorEq, false_iff]
          rintro ⟨names', tokens', hnames, -, -, hhashable, -⟩
          cases hnames
          exact hall (hzip.mpr hhashable)
      · simp only [if_neg hlength]
        split <;> simp [hlength]

theorem not_uncaught_tokenByOutcome {outcomes tokenIds : Value} :
    ¬ Uncaught (tokenByOutcome outcomes tokenIds) := by
  unfold tokenByOutcome
  cases outcomes.iterate with
  | error e => simp [Raised.caught]
  | ok names =>
    cases tokenIds.iterate with
    | error e => simp [Raised.caught]
    | ok tokens =>
      simp only
      split_ifs <;> simp [Raised.caught]

theorem tokenOf_ok_iff {found : List (String × Value)} {outcome token : String} :
    tokenOf codec found outcome = .ok token ↔
      ∃ value, found.lookup outcome = some value ∧ token = value.str codec := by
  unfold tokenOf
  cases found.lookup outcome with
  | none => simp
  | some value => simp [eq_comm]

theorem not_uncaught_tokenOf {found : List (String × Value)} {outcome : String} :
    ¬ Uncaught (tokenOf codec found outcome) := by
  unfold tokenOf
  cases found.lookup outcome with
  | none => simp [Raised.caught]
  | some value => simp

end Steps

section Markets

variable {codec deep} {market : Value} {slug name : String} {names : Names} {m : ListedMarket}

theorem loaded_iff {value : Value} : Loaded codec deep market name value ↔
    ∃ v, item market name = .ok v ∧ loads codec deep v = .ok value := by
  simp only [Loaded, item_ok_iff, loads_ok_iff]
  constructor
  · rintro ⟨text, hfield, hdeep, hloads⟩
    exact ⟨_, hfield, text, rfl, hdeep, hloads⟩
  · rintro ⟨v, hfield, text, rfl, hdeep, hloads⟩
    exact ⟨text, hfield, hdeep, hloads⟩

variable (codec) in
theorem nested_iff : Nested deep market name ↔
    ∃ v, item market name = .ok v ∧ Uncaught (loads codec deep v) := by
  simp only [Nested, item_ok_iff, uncaught_loads_iff]
  constructor
  · rintro ⟨text, hfield, hdeep⟩
    exact ⟨_, hfield, text, rfl, hdeep⟩
  · rintro ⟨v, hfield, text, rfl, hdeep⟩
    exact ⟨text, hfield, hdeep⟩

/-- The names that are read are those of a market that can be named. -/
theorem readNames_ok_iff :
    readNames codec deep market slug = .ok names ↔ Named codec deep market slug names := by
  simp only [readNames, bind_ok_iff]
  constructor
  · rintro ⟨startTs, hstart, v, hv, tokenIds, htokens, w, hw, outcomes, houtcomes, found, hfound,
      condition, hcondition, upTokenId, hup, downTokenId, hdown, hnames⟩
    obtain rfl := Except.ok.inj hnames
    obtain ⟨outcomeList, tokenList, hoids, htids, hlength, hhash, rfl⟩ :=
      tokenByOutcome_ok_iff.mp hfound
    obtain ⟨upToken, hlookUp, rfl⟩ := tokenOf_ok_iff.mp hup
    obtain ⟨downToken, hlookDown, rfl⟩ := tokenOf_ok_iff.mp hdown
    obtain ⟨before, after, hsplit, hlast⟩ := lookup_textKey_iff.mp hlookUp
    obtain ⟨before', after', hsplit', hlast'⟩ := lookup_textKey_iff.mp hlookDown
    exact ⟨startOf_ok_iff.mp hstart,
      ⟨outcomes, tokenIds, outcomeList, tokenList, loaded_iff.mpr ⟨v, hv, htokens⟩,
        loaded_iff.mpr ⟨w, hw, houtcomes⟩, hoids, htids, hlength, hhash,
        ⟨before, after, upToken, hsplit, hlast, rfl⟩,
        ⟨before', after', downToken, hsplit', hlast', rfl⟩⟩,
      condition, item_ok_iff.mp hcondition, rfl⟩
  · rintro ⟨hstart, ⟨outcomes, tokenIds, outcomeList, tokenList, htokens, houtcomes, hpaired⟩,
      condition, hcondition, hname⟩
    obtain ⟨v, hv, htokens⟩ := loaded_iff.mp htokens
    obtain ⟨w, hw, houtcomes⟩ := loaded_iff.mp houtcomes
    obtain ⟨before, after, upToken, hsplit, hlast, hup⟩ := hpaired.up
    obtain ⟨before', after', downToken, hsplit', hlast', hdown⟩ := hpaired.down
    refine ⟨names.startTs, startOf_ok_iff.mpr hstart, v, hv, tokenIds, htokens, w, hw, outcomes,
      houtcomes, _, tokenByOutcome_ok_iff.mpr ⟨outcomeList, tokenList, hpaired.iteratesOutcomes,
        hpaired.iteratesTokens, hpaired.length, hpaired.hashable, rfl⟩, condition,
      item_ok_iff.mpr hcondition, names.upTokenId, ?_, names.downTokenId, ?_, ?_⟩
    · exact tokenOf_ok_iff.mpr
        ⟨upToken, lookup_textKey_iff.mpr ⟨before, after, hsplit, hlast⟩, hup⟩
    · exact tokenOf_ok_iff.mpr
        ⟨downToken, lookup_textKey_iff.mpr ⟨before', after', hsplit', hlast'⟩, hdown⟩
    · rw [← hname]
      rfl

/-- Before the sizes only a list that nests too deep gets past the `except`. -/
theorem uncaught_readNames_iff : Uncaught (readNames codec deep market slug) ↔
    ∃ startTs, int (afterLastDash slug) = some startTs ∧
      (Nested deep market "clobTokenIds" ∨
        (∃ tokenIds, Loaded codec deep market "clobTokenIds" tokenIds) ∧
          Nested deep market "outcomes") := by
  have hpure : ∀ startTs conditionId upTokenId downTokenId,
      ¬ Uncaught (pure ⟨startTs, conditionId, upTokenId, downTokenId⟩ : Except Raised Names) :=
    fun _ _ _ _ => not_uncaught_ok _
  simp only [readNames, uncaught_bind, not_uncaught_startOf, not_uncaught_item,
    not_uncaught_tokenByOutcome, not_uncaught_tokenOf, hpure, and_false, exists_false, or_false,
    false_or, startOf_ok_iff, nested_iff codec, loaded_iff]
  constructor
  · rintro ⟨startTs, hstart, v, hv, hraised | ⟨tokenIds, htokens, w, hw, hraised⟩⟩
    · exact ⟨startTs, hstart, .inl ⟨v, hv, hraised⟩⟩
    · exact ⟨startTs, hstart, .inr ⟨⟨tokenIds, v, hv, htokens⟩, w, hw, hraised⟩⟩
  · rintro ⟨startTs, hstart, ⟨v, hv, hraised⟩ | ⟨⟨tokenIds, v, hv, htokens⟩, w, hw, hraised⟩⟩
    · exact ⟨startTs, hstart, v, hv, .inl hraised⟩
    · exact ⟨startTs, hstart, v, hv, .inr ⟨tokenIds, htokens, w, hw, hraised⟩⟩

theorem readMarket_ok_iff : readMarket codec deep market slug = .ok m ↔
    Named codec deep market slug ⟨m.startTs, m.conditionId, m.upTokenId, m.downTokenId⟩ ∧
      m.slug = slug ∧ m.endTs = m.startTs + 300 ∧
      decimalValue ((minSize market).str codec) = some m.minSize ∧
      decimalValue ((tickSize market).str codec) = some m.tickSize := by
  simp only [readMarket, bind_ok_iff, readNames_ok_iff, size_ok_iff]
  constructor
  · rintro ⟨names, hnamed, least, hleast, tick, htick, hm⟩
    obtain rfl := Except.ok.inj hm
    exact ⟨hnamed, rfl, rfl, hleast, htick⟩
  · rintro ⟨hnamed, hslug, hends, hleast, htick⟩
    refine ⟨_, hnamed, m.minSize, hleast, m.tickSize, htick, ?_⟩
    rw [← hslug, ← hends]
    rfl

theorem uncaught_readMarket_iff :
    Uncaught (readMarket codec deep market slug) ↔ Escapes codec deep market slug := by
  have hpure : ∀ m : ListedMarket, ¬ Uncaught (pure m : Except Raised ListedMarket) :=
    fun m => not_uncaught_ok m
  simp only [readMarket, uncaught_bind, uncaught_readNames_iff, readNames_ok_iff,
    uncaught_size_iff, size_ok_iff, hpure, and_false, exists_false, or_false]
  constructor
  · rintro (⟨startTs, hstart, hnested | ⟨⟨tokenIds, htokens⟩, hnested⟩⟩ | ⟨names, hnamed, hsize⟩)
    · exact .tokenIds startTs hstart hnested
    · exact .outcomes startTs tokenIds hstart htokens hnested
    · refine .size names hnamed ?_
      rcases hsize with hleast | ⟨least, -, htick⟩
      · exact .inl hleast
      · exact .inr htick
  · intro h
    cases h with
    | tokenIds startTs hstart hnested => exact .inl ⟨startTs, hstart, .inl hnested⟩
    | outcomes startTs tokenIds hstart htokens hnested =>
      exact .inl ⟨startTs, hstart, .inr ⟨⟨tokenIds, htokens⟩, hnested⟩⟩
    | size names hnamed hsize =>
      refine .inr ⟨names, hnamed, ?_⟩
      cases hleast : decimalValue ((minSize market).str codec) with
      | none => exact .inl rfl
      | some least =>
        rcases hsize with hnone | htick
        · rw [hleast] at hnone
          cases hnone
        · exact .inr ⟨least, rfl, htick⟩

/-- A market is what `_parse_market` hands back exactly of its well formed
listing. -/
theorem parseMarket_some_iff : parseMarket codec deep market slug = .ok (some m) ↔
    WellFormed codec deep market slug m := by
  have hdict : (market.get "enableOrderBook").truthy = true → market.isObject = true := by
    cases market <;> simp [Value.get, Value.truthy, Value.isObject]
  unfold parseMarket
  constructor
  · intro h
    by_cases hslug : hasSlugStart slug = true
    · rw [if_neg (not_not_intro hslug)] at h
      by_cases horder : (market.get "enableOrderBook").truthy = true
      · rw [if_neg (not_not_intro (hdict horder)), if_neg (not_not_intro horder)] at h
        cases hread : readMarket codec deep market slug with
        | ok listed =>
          rw [hread] at h
          obtain rfl : listed = m := by simpa using h
          obtain ⟨hnamed, hkeeps, hends, hleast, htick⟩ := readMarket_ok_iff.mp hread
          exact ⟨hslug, horder, hkeeps, hnamed, hends, hleast, htick⟩
        | error raised =>
          rw [hread] at h
          cases hcaught : raised.caught with
          | true => simp [hcaught] at h
          | false => simp [hcaught] at h
      · rw [if_pos horder] at h
        by_cases hobject : market.isObject = true
        · simp [hobject] at h
        · simp [hobject] at h
    · simp [hslug] at h
  · intro h
    have hread := readMarket_ok_iff.mpr ⟨h.named, h.keepsSlug, h.ends, h.minSize, h.tickSize⟩
    rw [if_neg (not_not_intro h.prefixed), if_neg (not_not_intro (hdict h.orderBook)),
      if_neg (not_not_intro h.orderBook), hread]

/-- It raises exactly on what is not readable. -/
theorem parseMarket_error_iff : (∃ raised, parseMarket codec deep market slug = .error raised) ↔
    ¬ ReadableMarket codec deep market slug := by
  unfold parseMarket ReadableMarket
  by_cases hslug : hasSlugStart slug = true
  · rw [if_neg (not_not_intro hslug), imp_iff_right hslug]
    by_cases hobject : market.isObject = true
    · rw [if_neg (not_not_intro hobject), and_iff_right hobject]
      by_cases horder : (market.get "enableOrderBook").truthy = true
      · rw [if_neg (not_not_intro horder), imp_iff_right horder, not_not,
          ← uncaught_readMarket_iff]
        cases readMarket codec deep market slug with
        | ok listed => exact iff_of_false (by rintro ⟨_, h⟩; cases h) (not_uncaught_ok listed)
        | error raised =>
          rw [uncaught_error]
          cases hcaught : raised.caught with
          | true => simp [hcaught]
          | false => simp [hcaught]
      · rw [if_pos horder]
        exact iff_of_false (by rintro ⟨_, h⟩; cases h) (not_not_intro fun h => absurd h horder)
    · rw [if_pos hobject]
      exact iff_of_true ⟨_, rfl⟩ fun h => hobject h.1
  · rw [if_pos hslug]
    exact iff_of_false (by rintro ⟨_, h⟩; cases h) (not_not_intro fun h => absurd h hslug)

/-- Nor does it raise on a malformed listing that is readable: it passes it
over. -/
theorem parseMarket_none (hreadable : ReadableMarket codec deep market slug)
    (hmalformed : ∀ m, ¬ WellFormed codec deep market slug m) :
    parseMarket codec deep market slug = .ok none := by
  cases hparse : parseMarket codec deep market slug with
  | error raised => exact absurd hreadable (parseMarket_error_iff.mp ⟨raised, hparse⟩)
  | ok found =>
    cases found with
    | none => rfl
    | some m => exact absurd (parseMarket_some_iff.mp hparse) (hmalformed m)

theorem marketRows_one_iff {event : Value} :
    marketRows event = .array [market] ↔ event.get "markets" = .array [market] := by
  unfold marketRows Value.or
  constructor
  · intro h
    by_cases htruthy : (event.get "markets").truthy = true
    · rwa [if_pos htruthy] at h
    · simp [htruthy] at h
  · intro h
    rw [h]
    rfl

theorem parse_some_iff {event : Value} : parse codec deep event = .ok (some m) ↔
    Lists codec deep event m := by
  unfold parse Lists
  constructor
  · intro h
    by_cases hobject : event.isObject = true
    · rw [if_neg (not_not_intro hobject)] at h
      split at h
      · rename_i market hrows
        exact ⟨market, marketRows_one_iff.mp hrows, parseMarket_some_iff.mp h⟩
      · cases h
      · split at h <;> cases h
      · rename_i text hrows
        split at h
        · -- a single character has no order book
          have horder := (parseMarket_some_iff.mp h).orderBook
          simp [Value.get, Value.truthy] at horder
        · cases h
      all_goals cases h
    · simp [hobject] at h
  · rintro ⟨market, hmarkets, hwell⟩
    have hobject : event.isObject = true := by
      cases event <;> simp_all [Value.get, Value.isObject]
    rw [if_neg (not_not_intro hobject), marketRows_one_iff.mpr hmarkets]
    exact parseMarket_some_iff.mpr hwell

theorem parse_error_iff {event : Value} : (∃ raised, parse codec deep event = .error raised) ↔
    ¬ Readable codec deep event := by
  unfold parse Readable
  by_cases hobject : event.isObject = true
  · simp only [hobject, not_true_eq_false, if_false, true_and]
    cases marketRows event with
    | null => simp
    | bool b => simp
    | number text => simp
    | object fields => by_cases hone : fields.length = 1 <;> simp [hone]
    | string text =>
      by_cases hone : text.length = 1
      · simp only [hone, if_true, forall_const]
        exact parseMarket_error_iff
      · simp [hone]
    | array rows =>
      rcases rows with _ | ⟨market, _ | ⟨second, rows⟩⟩
      · simp
      · exact parseMarket_error_iff
      · simp
  · simp [hobject]

end Markets

def InStartOrder (farthestFirst : Bool) (markets : List ListedMarket) : Prop :=
  markets.Pairwise fun a b => if farthestFirst then b.startTs ≤ a.startTs else a.startTs ≤ b.startTs

theorem byStart_sorted (farthestFirst : Bool) (markets : List ListedMarket) :
    (byStart farthestFirst markets).Perm markets ∧
      InStartOrder farthestFirst (byStart farthestFirst markets) := by
  refine ⟨List.mergeSort_perm _ _, ?_⟩
  unfold byStart InStartOrder
  refine (List.pairwise_mergeSort (fun a b c hab hbc => ?_) (fun a b => ?_) markets).imp
    fun hab => by simpa using hab
  · cases farthestFirst <;>
      simp only [Bool.false_eq_true, if_true, if_false, decide_eq_true_eq] at hab hbc ⊢ <;> omega
  · cases farthestFirst <;>
      simp only [Bool.false_eq_true, if_true, if_false, Bool.or_eq_true, decide_eq_true_eq] <;> omega

/-- No listing hides another: what is discovered of the events is the markets of
the well formed ones, in the order of their starts, and a malformed market is
passed over. -/
structure HidesNone (events : List Value) (farthestFirst : Bool)
    (discovered : Except Raised (List ListedMarket)) : Prop where
  discovers : ∃ found markets,
    List.Forall₂ (fun event r => ∀ m, r = some m ↔ Lists codec deep event m) events found ∧
      discovered = .ok markets ∧ markets.Perm (found.filterMap id) ∧
      InStartOrder farthestFirst markets
  passesOver : ∀ event ∈ events, ∀ market, event.get "markets" = .array [market] →
    (∀ m, ¬ WellFormed codec deep market (slugOf codec event) m) →
      parseMarket codec deep market (slugOf codec event) = .ok none

/-- A listing hides none of its markets exactly where every event of it is
readable. -/
theorem hidesNone_iff (gamma : ℕ → ℕ → List Value) (windowMinutes : ℕ) (farthestFirst : Bool) :
    HidesNone codec deep (gather gamma (requested windowMinutes farthestFirst) []) farthestFirst
        (discover codec deep gamma windowMinutes farthestFirst) ↔
      ∀ event ∈ gather gamma (requested windowMinutes farthestFirst) [],
        Readable codec deep event := by
  unfold discover
  generalize gather gamma (requested windowMinutes farthestFirst) [] = events
  constructor
  · intro h event hevent
    by_contra hunreadable
    obtain ⟨raised, hraised⟩ := parse_error_iff.mpr hunreadable
    obtain ⟨found, markets, -, hdiscovers, -⟩ := h.discovers
    obtain ⟨parsed, hparsed, -⟩ := bind_ok_iff.mp hdiscovers
    obtain ⟨r, -, hr⟩ := exists_result hparsed hevent
    rw [hraised] at hr
    cases hr
  · intro hreadable
    have hreturns : ∀ event ∈ events, ∃ r, parse codec deep event = .ok r := by
      intro event hevent
      cases hparse : parse codec deep event with
      | ok r => exact ⟨r, rfl⟩
      | error raised =>
        exact absurd (hreadable event hevent) (parse_error_iff.mp ⟨raised, hparse⟩)
    obtain ⟨parsed, hparsed⟩ := mapM_returns hreturns
    constructor
    · refine ⟨parsed, byStart farthestFirst (parsed.filterMap id), ?_, ?_, byStart_sorted _ _⟩
      · refine (forall₂_of_mapM hparsed).imp fun event r hr m => ?_
        rw [← parse_some_iff, hr]
        simp
      · rw [hparsed]
        rfl
    · intro event hevent market hmarkets hmalformed
      refine parseMarket_none ?_ hmalformed
      have hread := (hreadable event hevent).2
      rwa [marketRows_one_iff.mpr hmarkets] at hread

end MarketDiscovery

/-- `json.loads` on the two lists of a market. -/
def listingCodec : Codec where
  loads text :=
    if text = "[\"Up\", \"Down\"]" then some (.array [.string "Up", .string "Down"])
    else if text = "[\"up-token\", \"down-token\"]" then
      some (.array [.string "up-token", .string "down-token"])
    else none
  repr _ := ""
  compact _ := ""

def listedEvent (slug : String) (minSize : Value) : Value :=
  .object [("slug", .string slug), ("markets", .array [.object [
    ("conditionId", .string "0xcondition"),
    ("clobTokenIds", .string "[\"up-token\", \"down-token\"]"),
    ("outcomes", .string "[\"Up\", \"Down\"]"),
    ("enableOrderBook", .bool true),
    ("orderMinSize", minSize),
    ("orderPriceMinTickSize", .number "0.01")]])]

def unreadableSize : List Value :=
  [listedEvent "btc-updown-5m-2000000000" (.number "5"),
    listedEvent "btc-updown-5m-2000000300" (.string "five")]

/-- The unreadable size raises out of the whole listing, and the sound market is
not discovered. -/
theorem unreadableSize_hides :
    let discovered := MarketDiscovery.discover listingCodec (fun _ => false)
      (fun _ _ => unreadableSize) 30 false
    discovered = .error .invalidOperation ∧
      (MarketDiscovery.parse listingCodec (fun _ => false)
        (listedEvent "btc-updown-5m-2000000000" (.number "5"))).toOption.join.isSome ∧
      ¬ MarketDiscovery.HidesNone listingCodec (fun _ => false)
        (MarketDiscovery.gather (fun _ _ => unreadableSize) (MarketDiscovery.requested 30 false) [])
        false discovered := by
  intro discovered
  have hgather : MarketDiscovery.gather (fun _ _ => unreadableSize)
      (MarketDiscovery.requested 30 false) [] = unreadableSize := by
    rw [MarketDiscovery.gather]
    rfl
  have hraised : discovered = .error .invalidOperation := by
    show MarketDiscovery.discover _ _ _ _ _ = _
    unfold MarketDiscovery.discover
    rw [hgather]
    decide +kernel
  refine ⟨hraised, by decide +kernel, fun h => ?_⟩
  obtain ⟨_, markets, -, hdiscovers, -⟩ := h.discovers
  rw [hraised] at hdiscovers
  cases hdiscovers

end EventQuant
