import EventQuant.Python.Reading

/-!
The values a reply or an open order reads as, and what Python makes of them:
truth, text, lower case and exact decimals. What a dictionary holds under a key
is the last value given for it. How a body parses as JSON and how a list or a
dictionary prints are left open in `Codec`; nothing here depends on them.
-/
namespace EventQuant.Python

/-- A JSON value. A number is kept as the text it prints as. -/
inductive Value
  | null
  | bool (b : Bool)
  | number (text : String)
  | string (text : String)
  | array (items : List Value)
  | object (fields : List (String × Value))

/-- `json.loads` (`none` where it raises), `str` of a list or dictionary, and
the compact JSON of one. -/
structure Codec where
  loads : String → Option Value
  repr : Value → String
  compact : Value → String

/-- `str.lower` on the letters that end as ASCII: the Latin capitals and the
Kelvin sign. -/
def lowerChar (c : Char) : Char := if c.toNat = 0x212A then 'k' else c.toLower

def lower (s : String) : String := String.ofList (s.toList.map lowerChar)

def upperChar (c : Char) : Char := c.toUpper

def upper (s : String) : String := String.ofList (s.toList.map upperChar)

/-- `str.removeprefix`: the text itself where the prefix is not there. -/
def removePrefix (start s : String) : String :=
  if start.toList.isPrefixOf s.toList then String.ofList (s.toList.drop start.toList.length) else s

namespace Value

def truthy : Value → Bool
  | null => false
  | bool b => b
  | number text => decimal text ≠ some 0
  | string text => text ≠ ""
  | array items => !items.isEmpty
  | object fields => !fields.isEmpty

/-- `dict.get`. -/
def get (field : String) : Value → Value
  | object fields => (fields.lookup field).getD null
  | _ => null

/-- `v or w`. -/
def or (v w : Value) : Value := if v.truthy then v else w

def isObject : Value → Bool
  | object _ => true
  | _ => false

/-- `str`. -/
def str (codec : Codec) : Value → String
  | null => "None"
  | bool true => "True"
  | bool false => "False"
  | number text => text
  | string text => text
  | value => codec.repr value

def firstOf (v : Value) (fields : List String) (default : Value) : Value :=
  fields.foldr (fun field rest => (v.get field).or rest) default

end Value

/-- What a `for` loop over the value goes through. -/
def Value.iterate : Value → Except String (List Value)
  | .array items => .ok items
  | .object fields => .ok (fields.map fun field => .string field.1)
  | .string text => .ok (text.toList.map fun c => .string (String.singleton c))
  | _ => .error "object is not iterable"

/-- A dictionary of the pairs: a key keeps its first place and last value. -/
def dict {κ υ : Type} [DecidableEq κ] (pairs : List (κ × υ)) : List (κ × υ) :=
  pairs.foldl (fun d pair =>
    if pair.1 ∈ d.map Prod.fst then d.map fun old => if old.1 = pair.1 then pair else old
    else d ++ [pair]) []

section Dict

variable {κ υ : Type} [DecidableEq κ]

/-- The step of `dict`: a pair under a key that is there, or a new one. -/
theorem dict_step_keys (d : List (κ × υ)) (pair : κ × υ) :
    (if pair.1 ∈ d.map Prod.fst then d.map fun old => if old.1 = pair.1 then pair else old
      else d ++ [pair]).map Prod.fst =
    if pair.1 ∈ d.map Prod.fst then d.map Prod.fst else d.map Prod.fst ++ [pair.1] := by
  split
  · rw [List.map_map]
    refine List.map_congr_left fun old _ => ?_
    simp only [Function.comp]
    split
    · rename_i hsame
      exact hsame.symm
    · rfl
  · simp

theorem dict_keys (pairs : List (κ × υ)) :
    ((dict pairs).map Prod.fst).Nodup ∧
      ∀ k, k ∈ (dict pairs).map Prod.fst ↔ k ∈ pairs.map Prod.fst := by
  have hfold : ∀ (pairs d : List (κ × υ)), (d.map Prod.fst).Nodup →
      ((pairs.foldl (fun d pair =>
        if pair.1 ∈ d.map Prod.fst then d.map fun old => if old.1 = pair.1 then pair else old
        else d ++ [pair]) d).map Prod.fst).Nodup ∧
      ∀ k, k ∈ (pairs.foldl (fun d pair =>
        if pair.1 ∈ d.map Prod.fst then d.map fun old => if old.1 = pair.1 then pair else old
        else d ++ [pair]) d).map Prod.fst ↔ k ∈ d.map Prod.fst ∨ k ∈ pairs.map Prod.fst := by
    intro pairs
    induction pairs with
    | nil => exact fun d hd => ⟨hd, by simp⟩
    | cons pair pairs ih =>
      intro d hd
      rw [List.foldl_cons]
      have hkeys := dict_step_keys d pair
      generalize (if pair.1 ∈ d.map Prod.fst then _ else _) = d' at hkeys ⊢
      by_cases hknown : pair.1 ∈ d.map Prod.fst
      · rw [if_pos hknown] at hkeys
        obtain ⟨hnodup, hmem⟩ := ih d' (hkeys ▸ hd)
        refine ⟨hnodup, fun k => ?_⟩
        rw [hmem, hkeys, List.map_cons, List.mem_cons]
        constructor
        · rintro (h | h)
          · exact .inl h
          · exact .inr (.inr h)
        · rintro (h | rfl | h)
          · exact .inl h
          · exact .inl hknown
          · exact .inr h
      · rw [if_neg hknown] at hkeys
        have hd' : (d'.map Prod.fst).Nodup := by
          rw [hkeys, ← List.concat_eq_append]
          exact hd.concat hknown
        obtain ⟨hnodup, hmem⟩ := ih d' hd'
        refine ⟨hnodup, fun k => ?_⟩
        rw [hmem, hkeys, List.mem_append, List.mem_singleton, List.map_cons, List.mem_cons, or_assoc]
  obtain ⟨hnodup, hmem⟩ := hfold pairs [] List.nodup_nil
  exact ⟨hnodup, fun k => (hmem k).trans (by simp)⟩

/-- Pairs of different keys are a dictionary as they stand. -/
theorem dict_of_nodup {pairs : List (κ × υ)} (h : (pairs.map Prod.fst).Nodup) :
    dict pairs = pairs := by
  have hfold : ∀ (pairs d : List (κ × υ)), ((d ++ pairs).map Prod.fst).Nodup →
      pairs.foldl (fun d pair =>
        if pair.1 ∈ d.map Prod.fst then d.map fun old => if old.1 = pair.1 then pair else old
        else d ++ [pair]) d = d ++ pairs := by
    intro pairs
    induction pairs with
    | nil => exact fun d _ => (List.append_nil d).symm
    | cons pair pairs ih =>
      intro d hd
      have hnew : pair.1 ∉ d.map Prod.fst := by
        rw [List.map_append, List.map_cons] at hd
        exact fun hmem => (List.nodup_append.mp hd).2.2 _ hmem _ List.mem_cons_self rfl
      rw [List.foldl_cons, if_neg hnew, ih (d ++ [pair]) (by rwa [List.append_assoc]),
        List.append_assoc, List.singleton_append]
  exact hfold pairs [] h

/-- A dictionary has a place for each pair only where the keys differ. -/
theorem dict_length_iff (pairs : List (κ × υ)) :
    (dict pairs).length = pairs.length ↔ (pairs.map Prod.fst).Nodup := by
  constructor
  · intro hlength
    obtain ⟨hnodup, hmem⟩ := dict_keys pairs
    have hkeys : ((dict pairs).map Prod.fst).toFinset = (pairs.map Prod.fst).toFinset := by
      ext k
      rw [List.mem_toFinset, List.mem_toFinset, hmem]
    have hcard := List.toFinset_card_of_nodup hnodup
    rw [hkeys, List.length_map, hlength, ← List.length_map (f := Prod.fst)] at hcard
    rw [← Multiset.coe_nodup, ← Multiset.toFinset_card_eq_card_iff_nodup]
    exact hcard
  · intro hnodup
    rw [dict_of_nodup hnodup]

theorem lookup_cons_pair (pair : κ × υ) (d : List (κ × υ)) (k : κ) :
    (pair :: d).lookup k = if pair.1 = k then some pair.2 else d.lookup k := by
  obtain ⟨key, value⟩ := pair
  rw [List.lookup_cons]
  by_cases hk : key = k
  · simp [hk]
  · have hne : (k == key) = false := beq_false_of_ne fun heq => hk heq.symm
    rw [if_neg hk, hne]

theorem lookup_replace {pair : κ × υ} {d : List (κ × υ)} {k : κ}
    (h : pair.1 ∈ d.map Prod.fst ∨ pair.1 ≠ k) :
    (d.map fun old => if old.1 = pair.1 then pair else old).lookup k =
      if pair.1 = k then some pair.2 else d.lookup k := by
  induction d with
  | nil =>
    rcases h with h | h
    · exact absurd h List.not_mem_nil
    · rw [if_neg h]
      rfl
  | cons old d ih =>
    rw [List.map_cons, lookup_cons_pair, lookup_cons_pair]
    by_cases hk : pair.1 = k
    · by_cases hold : old.1 = pair.1
      · rw [if_pos hold]
        simp only [if_pos hk]
      · have hlater : pair.1 ∈ d.map Prod.fst := by
          rcases h with h | h
          · rcases List.mem_cons.mp h with h | h
            · exact absurd h.symm hold
            · exact h
          · exact absurd hk h
        rw [if_neg hold, if_neg (hk ▸ hold), ih (.inl hlater)]
        simp only [if_pos hk]
    · rw [ih (.inr hk)]
      by_cases hold : old.1 = pair.1
      · have hne : ¬ old.1 = k := fun heq => hk (hold ▸ heq)
        rw [if_pos hold]
        simp only [if_neg hk, if_neg hne]
      · rw [if_neg hold]
        simp only [if_neg hk]

/-- One more pair: its key holds its value, and the rest is as it was. -/
theorem lookup_dict_step (d : List (κ × υ)) (pair : κ × υ) (k : κ) :
    (if pair.1 ∈ d.map Prod.fst then d.map fun old => if old.1 = pair.1 then pair else old
      else d ++ [pair]).lookup k = if pair.1 = k then some pair.2 else d.lookup k := by
  by_cases hknown : pair.1 ∈ d.map Prod.fst
  · rw [if_pos hknown, lookup_replace (.inl hknown)]
  · rw [if_neg hknown, List.lookup_append, lookup_cons_pair]
    by_cases hk : pair.1 = k
    · have hnone : d.lookup k = none := by
        rw [List.lookup_eq_none_iff]
        intro old hold
        have hne : ¬ k = old.1 := by
          intro heq
          rw [hk, heq] at hknown
          exact hknown (List.mem_map_of_mem hold)
        simpa using hne
      rw [hnone, if_pos hk, if_pos hk, Option.none_or]
    · rw [if_neg hk, if_neg hk, List.lookup_nil, Option.or_none]

/-- A dictionary holds the last value given for a key. -/
theorem lookup_dict_iff (pairs : List (κ × υ)) (k : κ) (v : υ) :
    (dict pairs).lookup k = some v ↔
      ∃ before after, pairs = before ++ (k, v) :: after ∧ ∀ pair ∈ after, pair.1 ≠ k := by
  induction pairs using List.reverseRecOn with
  | nil => simp [dict]
  | append_singleton pairs pair ih =>
    have hstep : (dict (pairs ++ [pair])).lookup k =
        if pair.1 = k then some pair.2 else (dict pairs).lookup k := by
      rw [← lookup_dict_step, dict, List.foldl_append]
      rfl
    rw [hstep]
    constructor
    · intro h
      split at h
      · rename_i hk
        refine ⟨pairs, [], ?_, by simp⟩
        rw [← hk, ← Option.some.inj h]
      · rename_i hk
        obtain ⟨before, after, rfl, hafter⟩ := ih.mp h
        refine ⟨before, after ++ [pair], by simp, fun other hother => ?_⟩
        rcases List.mem_append.mp hother with hother | hother
        · exact hafter other hother
        · rw [List.mem_singleton.mp hother]
          exact hk
    · rintro ⟨before, after, hsplit, hafter⟩
      rcases List.eq_nil_or_concat after with rfl | ⟨after, last, rfl⟩
      · obtain ⟨rfl, hlast⟩ := List.append_inj' hsplit rfl
        obtain rfl := List.singleton_inj.mp hlast
        exact if_pos rfl
      · rw [List.concat_eq_append, ← List.cons_append, ← List.append_assoc] at hsplit
        obtain ⟨rfl, hlast⟩ := List.append_inj' hsplit rfl
        obtain rfl := List.singleton_inj.mp hlast
        rw [if_neg (hafter pair (by simp))]
        exact ih.mpr ⟨before, after, rfl, fun other hother => hafter other (by simp [hother])⟩

end Dict

/-- `needle in text`. -/
def contains (needle text : String) : Bool :=
  text.toList.tails.any fun rest => needle.toList.isPrefixOf rest

/-- `"; ".join(dict.fromkeys(texts))`. -/
def joinUnique (texts : List String) : String := String.intercalate "; " texts.eraseDups

/-- `Decimal(str(value))`. -/
def toDecimal (codec : Codec) (value : Value) : Except String DecimalValue :=
  readDecimal (value.str codec)

/-- `Decimal(str(value))` where the feed sends numbers; what is not finite is
taken for unreadable. -/
def toNumber (codec : Codec) (value : Value) : Except String ℚ :=
  match toDecimal codec value with
  | .ok (.finite q) => .ok q
  | .ok _ => .error conversionSyntax
  | .error failure => .error failure

theorem toNumber_ok {codec : Codec} {value : Value} {q : ℚ} :
    toNumber codec value = .ok q ↔ toDecimal codec value = .ok (.finite q) := by
  unfold toNumber
  split
  · rename_i q' hread
    rw [hread, Except.ok.injEq, Except.ok.injEq, DecimalValue.finite.injEq]
  · rename_i v hspecial hread
    refine iff_of_false nofun fun h => ?_
    exact hspecial q (Except.ok.inj (hread.symm.trans h))
  · rename_i failure hread
    exact iff_of_false nofun fun h => nomatch hread.symm.trans h

end EventQuant.Python
