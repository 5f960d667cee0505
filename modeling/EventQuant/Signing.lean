import EventQuant.Library.Precision
import EventQuant.Python.Value

/-!
Signing an entry. The client asks the venue for the tick size first, and a
market announced moments ago still answers that it is not found, so signing is
tried again, paced, within a budget: the loop that signs is the one that also
cancels resting orders before a market ends. Replies take as long as they
take, and a sleep may end late but never early. The clock is read and the
slots are added up in doubles.
-/
namespace EventQuant.Signing

open Python

/-- A float of the source. -/
abbrev double (q : ℚ) : ℚ := Precision.binary64.round q

def signingNotReadyRetrySeconds : ℚ := double (1 / 2)
def signingNotReadyPollSeconds : ℚ := double (1 / 10)

/-- What `create_order` raises: the client's own exception, or any other. -/
inductive SigningError
  | api (status : Option ℤ) (errorMsg : Value)
  | other (text : String)

/-- `_transient_submission_error`. -/
def transientSubmissionError : Option ℤ → Bool
  | none => true
  | some status => status = 429 ∨ 500 ≤ status ∧ status < 600

/-- `_signing_retryable`: the tick-size lookup's own reply, or a failure of the
transport. -/
def signingRetryable (codec : Codec) (status : Option ℤ) (payload : Value) : Bool :=
  let message := if payload.isObject then lower (((payload.get "error").or (.string "")).str codec) else ""
  (status = some 404 ∧ message = "market not found") || transientSubmissionError status

structure OrderArgs where
  tokenId : String
  price : ℚ
  size : ℚ

structure PostOrdersArgs (Order : Type*) where
  order : Order
  orderType : String

/-- One attempt at signing all legs: what the client answers for each call,
how long it takes until the loop reads its clock, the wall clock then, and how
late the sleep after it ends. -/
structure SigningRound (Order : Type*) where
  answer : ℕ → OrderArgs → Except SigningError Order
  took : ℚ
  wall : ℚ
  overslept : ℚ
  took_nonneg : 0 ≤ took
  overslept_nonneg : 0 ≤ overslept

/-- A round is paced for a slot, begins when the sleep before it is over, which
may overrun, and takes its time. -/
structure RoundTime where
  slot : ℚ
  begun : ℚ
  overrun : ℚ
  took : ℚ

def RoundTime.replied (t : RoundTime) : ℚ := t.begun + t.took

inductive SigningEnd (Order : Type*)
  | signed (orders : List (PostOrdersArgs Order))
  | raised (error : SigningError)
  | notReady (error : SigningError)

structure SigningTrace (Order : Type*) where
  rounds : List RoundTime
  sleeps : List ℚ
  outcome : SigningEnd Order

variable {Order : Type*}

/-- The legs are signed in turn; the first exception ends the attempt. -/
def SigningRound.sign (r : SigningRound Order) (price size : ℚ) :
    ℕ → List (String × String) → Except SigningError (List (PostOrdersArgs Order))
  | _, [] => .ok []
  | i, (_, tokenId) :: rest =>
    match r.answer i ⟨tokenId, double price, double size⟩ with
    | .error e => .error e
    | .ok order => match r.sign price size (i + 1) rest with
      | .error e => .error e
      | .ok orders => .ok (⟨order, "GTC"⟩ :: orders)

/-- What `_sign_entries` is called with, and what it meets from round to round. -/
structure SigningCall (Order : Type*) where
  specifications : List (String × String)
  price : ℚ
  size : ℚ
  marketEndTs : ℤ
  codec : Codec
  round : ℕ → SigningRound Order

/-- The loop from round `k` on, paced for a slot and begun at a time of the
clock; `none` is out of fuel. -/
def SigningCall.loop (call : SigningCall Order) (deadline : ℚ) :
    (fuel k : ℕ) → (slot begun overrun : ℚ) → Option (SigningTrace Order)
  | 0, _, _, _, _ => none
  | fuel + 1, k, slot, begun, overrun =>
    let r := call.round k
    let time : RoundTime := ⟨slot, begun, overrun, r.took⟩
    let now := double time.replied
    let ends := fun outcome => some ⟨[time], [], outcome⟩
    match r.sign call.price call.size 0 call.specifications with
    | .ok orders => ends (.signed orders)
    | .error (.other text) => ends (.raised (.other text))
    | .error (.api status payload) =>
      if signingRetryable call.codec status payload = false then ends (.raised (.api status payload))
      else if call.marketEndTs ≤ r.wall then ends (.raised (.api status payload))
      else
        let next := max (double (slot + signingNotReadyPollSeconds)) now
        if deadline ≤ now ∨ deadline ≤ next then ends (.notReady (.api status payload))
        else
          let sleep := double (next - now)
          let begins := time.replied + sleep + r.overslept
          (call.loop deadline fuel (k + 1) next begins r.overslept).map fun t =>
            ⟨time :: t.rounds, sleep :: t.sleeps, t.outcome⟩

/-- `_sign_entries`, called at a time of the clock. -/
def SigningCall.signEntries (call : SigningCall Order) (fuel : ℕ) (clock : ℚ) :
    Option (SigningTrace Order) :=
  let start := double clock
  call.loop (double (start + signingNotReadyRetrySeconds)) fuel 0 start clock 0

/-! ### How long it holds the loop -/

/-- Signing all legs gives one order for each, in order. -/
theorem SigningRound.sign_ok {r : SigningRound Order} {price size : ℚ} {i : ℕ}
    {specs : List (String × String)} {orders : List (PostOrdersArgs Order)}
    (h : r.sign price size i specs = .ok orders) :
    orders.length = specs.length ∧ ∀ (j : ℕ) (spec : String × String), specs[j]? = some spec →
      ∃ order, r.answer (i + j) ⟨spec.2, double price, double size⟩ = .ok order ∧
        orders[j]? = some ⟨order, "GTC"⟩ := by
  induction specs generalizing i orders with
  | nil =>
    obtain rfl := Except.ok.inj h
    exact ⟨rfl, fun j spec hspec => by simp at hspec⟩
  | cons spec rest ih =>
    simp only [sign] at h
    split at h
    · cases h
    · rename_i order horder
      split at h
      · cases h
      · rename_i orders' hrest
        obtain rfl := Except.ok.inj h
        obtain ⟨hlength, hall⟩ := ih hrest
        refine ⟨by simp [hlength], fun j spec' hspec => ?_⟩
        cases j with
        | zero =>
          obtain rfl := Option.some.inj hspec
          exact ⟨order, horder, rfl⟩
        | succ j =>
          obtain ⟨order', horder', hat⟩ := hall j spec' hspec
          exact ⟨order', by rwa [Nat.add_right_comm, Nat.add_assoc] at horder', hat⟩

/-- How far a double is from the value it stands for, near the clock's reading
and below a second. -/
structure Rounds (start ε : ℚ) : Prop where
  near : ∀ x, |x - start| < 1 → |double x - x| ≤ ε
  small : ∀ x, |x| < 1 → |double x - x| ≤ ε
  slight : ε ≤ 1 / 100

/-- A clock that reads so many seconds. -/
theorem rounds_of_lt {start : ℚ} {n : ℕ} (hn : n ≤ 47) (hstart : |start| + 1 ≤ 2 ^ n) :
    Rounds start (2 ^ n / 2 ^ 54) := by
  have hzpow : ((2 : ℕ) : ℚ) ^ ((n : ℤ) - (53 : ℕ)) / 2 = 2 ^ n / 2 ^ 54 := by
    rw [zpow_sub₀ (by norm_num), zpow_natCast, zpow_natCast, div_div]
    norm_num
  have hround : ∀ x : ℚ, |x| < 2 ^ n → |double x - x| ≤ 2 ^ n / 2 ^ 54 := by
    intro x hx
    refine (Precision.binary64.abs_round_sub_le_of_lt (n := n) ?_).trans_eq hzpow
    rw [zpow_natCast]
    exact_mod_cast hx
  refine ⟨fun x hx => hround x ?_, fun x hx => hround x ?_, ?_⟩
  · have habs := abs_sub_abs_le_abs_sub x start
    linarith
  · linarith [abs_nonneg start]
  · have hpow : (2 : ℚ) ^ n ≤ 2 ^ 47 := pow_le_pow_right₀ (by norm_num) hn
    rw [div_le_iff₀ (by positivity)]
    exact hpow.trans (by norm_num)

theorem double_mono : Monotone double := Precision.binary64.round_mono

/-- The clock's reading is as far from the end of its range as its time. -/
theorem abs_double_le {clock : ℚ} {n : ℕ} (hn : n ≤ 47) (hclock : |clock| + 1 ≤ 2 ^ n) :
    |double clock| + 1 ≤ 2 ^ n := by
  have hholds : Precision.binary64.Holds (2 ^ n - 1) := by
    refine ⟨2 ^ n - 1, 0, ?_, by simp⟩
    have hpow : (2 : ℤ) ^ n ≤ 2 ^ 53 := pow_le_pow_right₀ (by norm_num) (by omega)
    have hone : (1 : ℤ) ≤ 2 ^ n := one_le_pow₀ (by norm_num)
    rw [abs_of_nonneg (by omega)]
    exact (sub_le_self _ zero_le_one).trans hpow
  obtain ⟨hlow, hhigh⟩ := abs_le.mp (le_sub_iff_add_le.mpr hclock)
  have hlow := double_mono hlow
  have hhigh := double_mono hhigh
  rw [double, Precision.binary64.round_of_holds (Precision.binary64.holds_neg hholds)] at hlow
  rw [double, double, Precision.binary64.round_of_holds hholds] at hhigh
  exact le_sub_iff_add_le.mp (abs_le.mpr ⟨hlow, hhigh⟩)

theorem poll_bounds : (1 : ℚ) / 10 ≤ signingNotReadyPollSeconds ∧
    signingNotReadyPollSeconds ≤ 1 / 10 + 1 / 1000 := by
  decide +kernel

theorem retry_eq : signingNotReadyRetrySeconds = 1 / 2 := by decide +kernel

/-- A run of the loop within its budget, from round `k` on: no more rounds than
this, each paced for a slot before the deadline and begun later only by what the
sleep before it overran, with no sleep longer than a poll interval, give or take
the roundings; and orders are the last round's. -/
structure SigningCall.Bounded (call : SigningCall Order) (deadline ε : ℚ) (n k : ℕ)
    (slot begun overrun : ℚ) (t : SigningTrace Order) : Prop where
  rounds : t.rounds.length ≤ n
  first : ∃ took rest, t.rounds = ⟨slot, begun, overrun, took⟩ :: rest
  paced : ∀ p ∈ t.rounds, slot ≤ p.slot ∧ p.slot < deadline ∧
    |p.begun - (p.slot + p.overrun)| ≤ 2 * ε
  overran : ∀ (i : ℕ) (p : RoundTime), t.rounds[i + 1]? = some p →
    p.overrun = (call.round (k + i)).overslept
  follow : t.rounds.IsChain fun p q => double p.replied ≤ q.slot
  sleeps : t.sleeps.length + 1 = t.rounds.length ∧
    ∀ d ∈ t.sleeps, 0 ≤ d ∧ d ≤ signingNotReadyPollSeconds + 5 * ε
  signed : ∀ orders, t.outcome = .signed orders →
    orders.length = call.specifications.length ∧
      ∀ (j : ℕ) (spec : String × String), call.specifications[j]? = some spec →
        ∃ order, (call.round (k + t.sleeps.length)).answer j
            ⟨spec.2, double call.price, double call.size⟩ = .ok order ∧
          orders[j]? = some ⟨order, "GTC"⟩

namespace SigningCall

variable {call : SigningCall Order} {start deadline ε slot begun overrun : ℚ} {n k : ℕ}

/-- The last round. -/
theorem bounded_ends (hslot : slot < deadline) (hbegun : |begun - (slot + overrun)| ≤ 2 * ε) (took : ℚ)
    (outcome : SigningEnd Order) (hsigned : ∀ orders, outcome = .signed orders →
      (call.round k).sign call.price call.size 0 call.specifications = .ok orders) :
    call.Bounded deadline ε (n + 1) k slot begun overrun
      ⟨[⟨slot, begun, overrun, took⟩], [], outcome⟩ where
  rounds := by simp
  first := ⟨took, [], rfl⟩
  paced p hp := by
    obtain rfl := List.mem_singleton.mp hp
    exact ⟨le_refl slot, hslot, hbegun⟩
  overran i p hp := by simp at hp
  follow := List.isChain_singleton _
  sleeps := ⟨rfl, fun d hd => by simp at hd⟩
  signed orders horders := by
    obtain ⟨hlength, hall⟩ := SigningRound.sign_ok (hsigned orders horders)
    refine ⟨hlength, fun j spec hspec => ?_⟩
    simpa using hall j spec hspec

/-- A round before the ones of a run within the budget. -/
theorem bounded_cons {next sleep begins : ℚ} {t : SigningTrace Order} (hslot : slot < deadline)
    (hbegun : |begun - (slot + overrun)| ≤ 2 * ε) (hnext : slot ≤ next)
    (hfollow : double (begun + (call.round k).took) ≤ next)
    (hsleep : 0 ≤ sleep ∧ sleep ≤ signingNotReadyPollSeconds + 5 * ε)
    (h : call.Bounded deadline ε n (k + 1) next begins (call.round k).overslept t) :
    call.Bounded deadline ε (n + 1) k slot begun overrun
      ⟨⟨slot, begun, overrun, (call.round k).took⟩ :: t.rounds, sleep :: t.sleeps, t.outcome⟩ := by
  obtain ⟨took, rest, hrest⟩ := h.first
  constructor
  · simpa using h.rounds
  · exact ⟨_, _, rfl⟩
  · refine List.forall_mem_cons.mpr ⟨⟨le_refl _, hslot, hbegun⟩, fun p hp => ?_⟩
    obtain ⟨hle, hlt, hbegins⟩ := h.paced p hp
    exact ⟨hnext.trans hle, hlt, hbegins⟩
  · intro i p hp
    cases i with
    | zero =>
      simp only [hrest] at hp
      obtain rfl := Option.some.inj hp
      rfl
    | succ i =>
      have hp : t.rounds[i + 1]? = some p := hp
      rw [h.overran i p hp, Nat.add_right_comm, Nat.add_assoc]
  · refine List.isChain_cons.mpr ⟨fun q hq => ?_, h.follow⟩
    simp only [hrest, List.head?_cons, Option.mem_def, Option.some.injEq] at hq
    subst hq
    exact hfollow
  · exact ⟨congrArg (· + 1) h.sleeps.1, List.forall_mem_cons.mpr ⟨hsleep, h.sleeps.2⟩⟩
  · intro orders horders
    obtain ⟨hlength, hall⟩ := h.signed orders horders
    refine ⟨hlength, fun j spec hspec => ?_⟩
    rw [List.length_cons, ← Nat.add_assoc, Nat.add_right_comm]
    exact hall j spec hspec

/-- A round that comes to an end gives the trace whatever fuel is left. -/
theorem exists_ends (hslot : slot < deadline) (hbegun : |begun - (slot + overrun)| ≤ 2 * ε) (took : ℚ)
    (outcome : SigningEnd Order) (hsigned : ∀ orders, outcome = .signed orders →
      (call.round k).sign call.price call.size 0 call.specifications = .ok orders)
    (hloop : ∀ fuel, call.loop deadline (fuel + 1) k slot begun overrun =
      some ⟨[⟨slot, begun, overrun, took⟩], [], outcome⟩) :
    ∃ t, (∀ fuel, n + 1 ≤ fuel → call.loop deadline fuel k slot begun overrun = some t) ∧
      call.Bounded deadline ε (n + 1) k slot begun overrun t := by
  refine ⟨_, fun fuel hfuel => ?_, bounded_ends hslot hbegun took outcome hsigned⟩
  obtain ⟨fuel, rfl⟩ := Nat.exists_eq_add_of_le' (Nat.le_of_add_left_le hfuel)
  exact hloop fuel

/-- Where a round is left before the deadline, the next slot is a poll interval
on, the sleep is no longer, and the round begins with it. -/
theorem next_slot (hround : Rounds start ε) (hdeadline : deadline = double (start + 1 / 2))
    (hstart : start ≤ slot) (hbegun : |begun - (slot + overrun)| ≤ 2 * ε) (hoverrun : 0 ≤ overrun)
    {took next now : ℚ} (htook : 0 ≤ took) (hnow : now = double (begun + took))
    (hnext : next = max (double (slot + signingNotReadyPollSeconds)) now)
    (hlater : now < deadline ∧ next < deadline) :
    slot + (1 / 10 - ε) ≤ next ∧ (0 ≤ double (next - now) ∧
      double (next - now) ≤ signingNotReadyPollSeconds + 5 * ε) ∧
      |begun + took + double (next - now) - next| ≤ 2 * ε := by
  obtain ⟨hpoll, hpoll'⟩ := poll_bounds
  have hε := hround.slight
  obtain ⟨hbegunLow, hbegunHigh⟩ := abs_le.mp hbegun
  have hdeadline' := abs_le.mp (hround.near (start + 1 / 2) (by norm_num))
  rw [← hdeadline] at hdeadline'
  -- the clock is read within a second of the start, or the loop is over
  have hreplied : begun + took < start + 1 := by
    by_contra hlate
    have hmono := double_mono (show start + 1 / 2 ≤ begun + took by linarith)
    rw [← hdeadline, ← hnow] at hmono
    linarith [hlater.1]
  have hread := abs_le.mp (hround.near (begun + took) (abs_lt.mpr ⟨by linarith, by linarith⟩))
  have hslot : slot < start + 6 / 10 := by
    by_contra hfar
    have hmono := double_mono (show start + 1 / 2 ≤ slot + signingNotReadyPollSeconds by linarith)
    rw [← hdeadline] at hmono
    linarith [hlater.2, hnext ▸ le_max_left (double (slot + signingNotReadyPollSeconds)) now]
  have hpaced := abs_le.mp (hround.near (slot + signingNotReadyPollSeconds)
    (abs_lt.mpr ⟨by linarith, by linarith⟩))
  have hpacedNext : double (slot + signingNotReadyPollSeconds) ≤ next := hnext ▸ le_max_left _ _
  have hnowNext : now ≤ next := hnext ▸ le_max_right _ _
  have hwait : next - now ≤ signingNotReadyPollSeconds + 4 * ε := by
    rcases max_choice (double (slot + signingNotReadyPollSeconds)) now with h | h
    · rw [hnext, h, hnow]
      linarith
    · rw [hnext, h, sub_self]
      linarith [hread.1, hread.2]
  have hsleep := abs_le.mp (hround.small (next - now) (abs_lt.mpr ⟨by linarith, by linarith⟩))
  have hnonneg : 0 ≤ double (next - now) := Precision.binary64.round_nonneg (by linarith)
  rw [← hnow] at hread
  refine ⟨by linarith, ⟨hnonneg, by linarith⟩, abs_le.mpr ⟨by linarith, by linarith⟩⟩

/-- The slots left before the deadline bound the rounds to come. -/
theorem loop_bounded (call : SigningCall Order) (hround : Rounds start ε)
    (hdeadline : deadline = double (start + 1 / 2)) (k : ℕ) (hstart : start ≤ slot)
    (hslot : slot < deadline) (hbegun : |begun - (slot + overrun)| ≤ 2 * ε) (hoverrun : 0 ≤ overrun)
    (hn : deadline ≤ slot + n * (1 / 10 - ε)) :
    ∃ t, (∀ fuel, n ≤ fuel → call.loop deadline fuel k slot begun overrun = some t) ∧
      call.Bounded deadline ε n k slot begun overrun t := by
  induction n generalizing k slot begun overrun with
  | zero =>
    simp only [Nat.cast_zero, zero_mul, add_zero] at hn
    exact absurd hslot (not_lt.mpr hn)
  | succ n ih =>
    cases hsign : (call.round k).sign call.price call.size 0 call.specifications with
    | ok orders =>
      refine exists_ends hslot hbegun (call.round k).took (.signed orders) (fun orders' h => ?_)
        fun fuel => ?_
      · cases h
        exact hsign
      · simp only [loop, hsign]
    | error e =>
      cases e with
      | other text =>
        refine exists_ends hslot hbegun (call.round k).took (.raised (.other text)) (fun _ => nofun)
          fun fuel => ?_
        simp only [loop, hsign]
      | api status payload =>
        by_cases hretry : signingRetryable call.codec status payload = false
        · refine exists_ends hslot hbegun (call.round k).took (.raised (.api status payload))
            (fun _ => nofun) fun fuel => ?_
          simp only [loop, hsign, if_pos hretry]
        by_cases hended : call.marketEndTs ≤ (call.round k).wall
        · refine exists_ends hslot hbegun (call.round k).took (.raised (.api status payload))
            (fun _ => nofun) fun fuel => ?_
          simp only [loop, hsign, if_neg hretry, if_pos hended]
        obtain ⟨now, hnow⟩ : ∃ now, now = double (begun + (call.round k).took) := ⟨_, rfl⟩
        obtain ⟨next, hnext⟩ : ∃ next, next =
          max (double (slot + signingNotReadyPollSeconds)) now := ⟨_, rfl⟩
        by_cases hover : deadline ≤ now ∨ deadline ≤ next
        · refine exists_ends hslot hbegun (call.round k).took (.notReady (.api status payload))
            (fun _ => nofun) fun fuel => ?_
          simp only [loop, hsign, if_neg hretry, if_neg hended, RoundTime.replied, ← hnow, ← hnext,
            if_pos hover]
        -- the next slot is a poll interval on, so one round fewer is left
        rw [not_or, not_le, not_le] at hover
        obtain ⟨hpaced, hsleep, hbegins⟩ := next_slot hround hdeadline hstart hbegun hoverrun
          (call.round k).took_nonneg hnow hnext hover
        have hleft : deadline ≤ next + n * (1 / 10 - ε) := by
          push_cast at hn
          linarith
        have hε := hround.slight
        have hbegins' : |begun + (call.round k).took + double (next - now) + (call.round k).overslept -
            (next + (call.round k).overslept)| ≤ 2 * ε := by
          rwa [add_sub_add_right_eq_sub]
        obtain ⟨t, hloop, hbounded⟩ := ih (k + 1) (by linarith) hover.2 hbegins'
          (call.round k).overslept_nonneg hleft
        refine ⟨_, fun fuel hfuel => ?_, bounded_cons hslot hbegun (by linarith)
          (hnow ▸ hnext ▸ le_max_right _ _) hsleep hbounded⟩
        obtain ⟨fuel, rfl⟩ := Nat.exists_eq_add_of_le' (Nat.le_of_add_left_le hfuel)
        simp only [loop, hsign, if_neg hretry, if_neg hended, RoundTime.replied, ← hnow, ← hnext,
          if_neg (not_or.mpr ⟨not_le.mpr hover.1, not_le.mpr hover.2⟩), hloop fuel (by omega),
          Option.map_some]

/-- However long the replies take and however late the sleeps end, the loop
ends. It makes at most one round more than there are poll intervals in the
budget, and sleeps no longer than one between them; a round is paced for a slot
before the end of the budget and begins later only by what the sleep before it
overran, so the loop is over a reply after that; and it returns one order for
each leg, or raises. A clock of `2 ^ n` seconds is read, and its slots are added
up, to within `2 ^ n / 2 ^ 54` of one. -/
theorem signEntries_bounded (call : SigningCall Order) (clock : ℚ) (n : ℕ) (hn : n ≤ 47)
    (hclock : |clock| + 1 ≤ 2 ^ n) :
    ∃ t, (∀ fuel, 6 ≤ fuel → call.signEntries fuel clock = some t) ∧
      (t.rounds.length : ℚ) ≤ double (signingNotReadyRetrySeconds / signingNotReadyPollSeconds) + 1 ∧
      (t.sleeps.length + 1 = t.rounds.length ∧
        ∀ d ∈ t.sleeps, 0 ≤ d ∧ d ≤ signingNotReadyPollSeconds + 5 * (2 ^ n / 2 ^ 54)) ∧
      (∀ p ∈ t.rounds, double clock ≤ p.slot ∧
        p.slot < double (double clock + signingNotReadyRetrySeconds) ∧
        |p.begun - (p.slot + p.overrun)| ≤ 2 * (2 ^ n / 2 ^ 54) ∧
        p.replied < double clock + signingNotReadyRetrySeconds + p.overrun + p.took +
          3 * (2 ^ n / 2 ^ 54)) ∧
      ((∃ took rest, t.rounds = ⟨double clock, clock, 0, took⟩ :: rest) ∧
        ∀ (i : ℕ) (p : RoundTime), t.rounds[i + 1]? = some p →
          p.overrun = (call.round i).overslept) ∧
      (t.rounds.IsChain fun p q => double p.replied ≤ q.slot) ∧
      ∀ orders, t.outcome = .signed orders →
        orders.length = call.specifications.length ∧
          ∀ (j : ℕ) (spec : String × String), call.specifications[j]? = some spec →
            ∃ order, (call.round t.sleeps.length).answer j
                ⟨spec.2, double call.price, double call.size⟩ = .ok order ∧
              orders[j]? = some ⟨order, "GTC"⟩ := by
  have hround := rounds_of_lt hn (abs_double_le hn hclock)
  have hbegun := (rounds_of_lt hn hclock).near clock (by simp)
  generalize (2 ^ n / 2 ^ 54 : ℚ) = ε at hround hbegun ⊢
  have hε := hround.slight
  have hε' := (abs_nonneg _).trans hbegun
  have hdeadline := abs_le.mp (hround.near (double clock + 1 / 2) (by norm_num))
  have hfirst : |clock - (double clock + 0)| ≤ 2 * ε := by
    rw [add_zero, abs_sub_comm]
    linarith
  obtain ⟨t, hloop, h⟩ := loop_bounded call hround rfl 0 (le_refl (double clock)) (n := 6)
    (by linarith) hfirst (le_refl 0) (by push_cast; linarith)
  have hpolls : double (signingNotReadyRetrySeconds / signingNotReadyPollSeconds) = 5 := by
    decide +kernel
  rw [hpolls, retry_eq]
  refine ⟨t, fun fuel hfuel => ?_, ?_, h.sleeps, fun p hp => ?_, ⟨h.first, fun i p hp => ?_⟩,
    h.follow, ?_⟩
  · rw [← hloop fuel hfuel, signEntries, retry_eq]
  · have hlength : (t.rounds.length : ℚ) ≤ 6 := by exact_mod_cast h.rounds
    exact hlength.trans (by norm_num)
  · obtain ⟨hle, hlt, hbegins⟩ := h.paced p hp
    refine ⟨hle, hlt, hbegins, ?_⟩
    have hbegins := (abs_le.mp hbegins).2
    unfold RoundTime.replied
    linarith
  · rw [h.overran i p hp, Nat.zero_add]
  · intro orders horders
    have hsigned := h.signed orders horders
    rwa [Nat.zero_add] at hsigned

def noAnswer (took late : ℚ) (htook : 0 ≤ took) (hlate : 0 ≤ late) : SigningCall String where
  specifications := [("up", "u"), ("down", "d")]
  price := 1 / 2
  size := 5
  marketEndTs := 100
  codec := ⟨fun _ => none, fun _ => "", fun _ => ""⟩
  round _ := ⟨fun _ _ => .error (.api none .null), took, 0, late, htook, hlate⟩

theorem signEntries_bounded_noAnswer :
    ∃ t, (noAnswer 0 0 le_rfl le_rfl).signEntries 6 10 = some t ∧
      ∀ d ∈ t.sleeps, 0 ≤ d ∧ d ≤ signingNotReadyPollSeconds + 5 * (2 ^ 4 / 2 ^ 54) := by
  obtain ⟨t, hloop, -, hsleeps, -⟩ := signEntries_bounded (noAnswer 0 0 le_rfl le_rfl) 10 4 (by decide)
    (by decide +kernel)
  exact ⟨t, hloop 6 le_rfl, hsleeps.2⟩

/-- Read at 10 s the clock's slots add up to less than the budget, and there is
a round more; and after a sleep that ends a second late a round begins past the
end of the budget. -/
theorem noAnswer_exceeds :
    ((noAnswer 0 0 le_rfl le_rfl).signEntries 6 10).map (fun t => t.rounds.length) = some 6 ∧
    ∃ t, (noAnswer 0 1 le_rfl zero_le_one).signEntries 6 0 = some t ∧
      ∃ p ∈ t.rounds, 0 + signingNotReadyRetrySeconds ≤ p.begun := by
  refine ⟨by decide +kernel, ?_⟩
  have hlate : (((noAnswer 0 1 le_rfl zero_le_one).signEntries 6 0).elim false fun t =>
      t.rounds.any fun p => 0 + signingNotReadyRetrySeconds ≤ p.begun) = true := by
    decide +kernel
  cases htrace : (noAnswer 0 1 le_rfl zero_le_one).signEntries 6 0 with
  | none => rw [htrace] at hlate; cases hlate
  | some t =>
    rw [htrace] at hlate
    obtain ⟨p, hp, hbegun⟩ := List.any_eq_true.mp hlate
    exact ⟨t, rfl, p, hp, of_decide_eq_true hbegun⟩

end SigningCall

end EventQuant.Signing
