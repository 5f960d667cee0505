import EventQuant.MarketActivation

/-!
One round of asking the CLOB. The parameter thread asks about its candidates in
their order and gives the round up at the first answer it cannot read; the next
round starts from the same candidate again. What a round emits is what is
complete among the candidates before that answer.
-/
namespace EventQuant

open Python

/-- What `_poll_market_parameters` makes of an answer about a candidate: whether
both tokens are there, `none` where it raises. -/
def ClobAnswer.reading (codec : Codec) (candidate : Candidate) : ClobAnswer → Option Bool
  | .missing => some false
  | .failed => none
  | .payload body => (payloadTokens codec body).map fun tokens =>
      decide (candidate.market.upTokenId ∈ tokens ∧ candidate.market.downTokenId ∈ tokens)

namespace ActivationWorker

/-- The parameter thread's steps on a candidate: the answer and, where it is
complete, the way through the lock to the queue. -/
def turn (answers : String → ClobAnswer) (seenTs : String → ℤ) (c : Candidate) : List WorkerEvent :=
  [WorkerEvent.ask (answers c.slug) (seenTs c.slug), .take, .emit]

variable (windowMinutes : ℕ) (codec : Codec) (answers : String → ClobAnswer) (seenTs : String → ℤ)

/-- `_poll_market_parameters`, with the clock at its first look, the answer
about each market and the clock when it was there. -/
def pollRound (nowTs : ℤ) (w : ActivationWorker) : ActivationWorker :=
  let polled := w.next windowMinutes codec (.poll nowTs)
  (polled.asked.flatMap (turn answers seenTs) ++ [WorkerEvent.ask .missing 0]).foldl
    (next windowMinutes codec) polled

def updateOf (c : Candidate) : ActivationUpdate :=
  ⟨c.market, c.marketDiscoveredTsMs, seenTs c.slug⟩

def readable (candidates : List Candidate) : List Candidate :=
  candidates.takeWhile fun c => ((answers c.slug).reading codec c).isSome

variable {windowMinutes codec answers seenTs} {w : ActivationWorker} {c : Candidate}
  {rest candidates : List Candidate}

theorem next_ask (h : w.polling = .asking (c :: rest)) (answer : ClobAnswer) (ts : ℤ) :
    w.next windowMinutes codec (.ask answer ts) =
      match answer.reading codec c with
      | none => { w with polling := .idle }
      | some true => { w with polling := .detected c ts rest }
      | some false => { w with polling := .asking rest } := by
  cases answer with
  | missing =>
    unfold next
    simp only [h, ClobAnswer.reading]
  | failed =>
    unfold next
    simp only [h, ClobAnswer.reading]
  | payload body =>
    unfold next
    simp only [h, ClobAnswer.reading]
    cases htokens : payloadTokens codec body with
    | none => rfl
    | some tokens =>
      by_cases hboth : c.market.upTokenId ∈ tokens ∧ c.market.downTokenId ∈ tokens
      · simp only [if_pos hboth, Option.map_some, decide_eq_true hboth]
      · simp only [if_neg hboth, Option.map_some, decide_eq_false hboth]

variable (windowMinutes codec) in
theorem next_take {ts : ℤ} (h : w.polling = .detected c ts rest)
    (hpending : (w.pool.pending.get? c.slug).isSome = true) :
    w.next windowMinutes codec .take =
      { w with
        pool := w.pool.close c.slug
        polling := .emitting ⟨c.market, c.marketDiscoveredTsMs, ts⟩ rest } := by
  unfold next
  simp only [h, if_pos hpending]

variable (windowMinutes codec) in
theorem next_emit {update : ActivationUpdate} (h : w.polling = .emitting update rest) :
    w.next windowMinutes codec .emit =
      { w with
        emitted := w.emitted ++ [update]
        polled := w.polled ++ [w.pollTs]
        polling := .asking rest } := by
  unfold next
  simp only [h]

variable (windowMinutes codec) in
theorem next_idle (h : w.polling = .idle) (answer : ClobAnswer) (ts : ℤ) :
    w.next windowMinutes codec (.ask answer ts) = w ∧ w.next windowMinutes codec .take = w ∧
      w.next windowMinutes codec .emit = w ∧
      w.next windowMinutes codec (.poll ts) = w.startPoll ts := by
  unfold next
  simp only [h, and_self]

/-- What is readable of two runs of candidates: of the second only where all of
the first is. -/
theorem readable_append (before after : List Candidate) :
    readable codec answers (before ++ after) =
      if ∀ c ∈ before, ((answers c.slug).reading codec c).isSome then
        before ++ readable codec answers after
      else readable codec answers before := by
  unfold readable
  split
  · rename_i hall
    exact List.takeWhile_append_of_pos hall
  · rename_i hsome
    rw [List.takeWhile_append, if_neg]
    intro hlength
    refine hsome fun c hc => ?_
    have hwhole := List.IsPrefix.eq_of_length
      (List.takeWhile_prefix fun c => ((answers c.slug).reading codec c).isSome) hlength
    rw [← hwhole] at hc
    exact List.mem_takeWhile_imp (p := fun c => ((answers c.slug).reading codec c).isSome) hc

/-- After an answer it cannot read the thread is done with the round. -/
theorem turn_fails (h : w.polling = .asking (c :: rest))
    (hreading : (answers c.slug).reading codec c = none) :
    (turn answers seenTs c).foldl (next windowMinutes codec) w = { w with polling := .idle } := by
  simp only [turn, List.foldl_cons, List.foldl_nil, next_ask h, hreading]
  rfl

theorem turn_passes (h : w.polling = .asking (c :: rest))
    (hreading : (answers c.slug).reading codec c = some false) :
    (turn answers seenTs c).foldl (next windowMinutes codec) w =
      { w with polling := .asking rest } := by
  simp only [turn, List.foldl_cons, List.foldl_nil, next_ask h, hreading]
  rfl

theorem turn_emits (h : w.polling = .asking (c :: rest))
    (hreading : (answers c.slug).reading codec c = some true)
    (hpending : (w.pool.pending.get? c.slug).isSome = true) :
    (turn answers seenTs c).foldl (next windowMinutes codec) w =
      { w with
        pool := w.pool.close c.slug
        emitted := w.emitted ++ [updateOf seenTs c]
        polled := w.polled ++ [w.pollTs]
        polling := .asking rest } := by
  simp only [turn, List.foldl_cons, List.foldl_nil, next_ask h, hreading]
  have htaken := next_take windowMinutes codec
    (w := { w with polling := .detected c (seenTs c.slug) rest }) rfl hpending
  rw [htaken]
  exact next_emit windowMinutes codec rfl

/-- Between rounds the thread's steps do nothing. -/
theorem turns_idle (h : w.polling = .idle) :
    (candidates.flatMap (turn answers seenTs) ++ [WorkerEvent.ask .missing 0]).foldl
      (next windowMinutes codec) w = w := by
  induction candidates with
  | nil => exact (next_idle windowMinutes codec h .missing 0).1
  | cons c candidates ih =>
    rw [List.flatMap_cons, List.append_assoc, List.foldl_append]
    have hturn : (turn answers seenTs c).foldl (next windowMinutes codec) w = w := by
      obtain ⟨hask, htake, hemit, -⟩ := next_idle windowMinutes codec h (answers c.slug) (seenTs c.slug)
      simp only [turn, List.foldl_cons, List.foldl_nil, hask, htake, hemit]
    rw [hturn]
    exact ih

/-- What the turns on candidates still pending emit. -/
theorem turns_emitted (h : w.polling = .asking candidates)
    (hpending : ∀ c ∈ candidates, (w.pool.pending.get? c.slug).isSome = true)
    (hnodup : (candidates.map Candidate.slug).Nodup) :
    ((candidates.flatMap (turn answers seenTs) ++ [WorkerEvent.ask .missing 0]).foldl
      (next windowMinutes codec) w).emitted =
      w.emitted ++ ((readable codec answers candidates).filter fun c =>
        (answers c.slug).reading codec c = some true).map (updateOf seenTs) := by
  induction candidates generalizing w with
  | nil =>
    have hdone : w.next windowMinutes codec (.ask .missing 0) = { w with polling := .idle } := by
      unfold next
      simp only [h]
    simp [hdone, readable]
  | cons c candidates ih =>
    obtain ⟨hfresh, hrest⟩ := List.nodup_cons.mp hnodup
    have hlater := fun d hd => hpending d (List.mem_cons_of_mem c hd)
    rw [List.flatMap_cons, List.append_assoc, List.foldl_append]
    cases hreading : (answers c.slug).reading codec c with
    | none =>
      rw [turn_fails h hreading, turns_idle rfl]
      simp [readable, hreading]
    | some complete =>
      cases complete with
      | false =>
        have hlast := ih (w := { w with polling := .asking candidates }) rfl hlater hrest
        rw [turn_passes h hreading, hlast]
        simp [readable, hreading]
      | true =>
        rw [turn_emits h hreading (hpending c List.mem_cons_self), ih rfl ?_ hrest]
        · simp [readable, hreading]
        · intro d hd
          have hne : ¬ c.slug = d.slug := fun heq => hfresh (heq ▸ List.mem_map_of_mem hd)
          show ((w.pool.pending.erase c.slug).get? d.slug).isSome = true
          rw [Table.get?_erase, if_neg hne]
          exact hlater d hd

variable (windowMinutes codec) in
/-- The candidates a round asks about are the pending ones it did not find
expired. -/
theorem poll_asked (h : w.polling = .idle) (nowTs : ℤ) :
    ∃ candidates, (w.next windowMinutes codec (.poll nowTs)).polling = .asking candidates ∧
      (w.next windowMinutes codec (.poll nowTs)).pool.pending.rows = candidates ∧
      (w.next windowMinutes codec (.poll nowTs)).emitted = w.emitted := by
  have hstart : w.next windowMinutes codec (.poll nowTs) = w.startPoll nowTs :=
    (next_idle windowMinutes codec h .missing nowTs).2.2.2
  have hexpire : ∀ slugs : List String, (slugs.foldl ActivationWorker.expire w).emitted = w.emitted := by
    intro slugs
    induction slugs using List.reverseRecOn with
    | nil => rfl
    | append_singleton slugs slug ih =>
      rw [List.foldl_append]
      exact ih
  rw [hstart]
  exact ⟨_, rfl, rfl, hexpire _⟩

/-- What a round emits: the complete ones of the candidates before the first
answer that raises. -/
theorem pollRound_emitted (h : w.polling = .idle) (nowTs : ℤ) :
    (w.pollRound windowMinutes codec answers seenTs nowTs).emitted =
      w.emitted ++ ((readable codec answers
        (w.next windowMinutes codec (.poll nowTs)).asked).filter fun c =>
          (answers c.slug).reading codec c = some true).map (updateOf seenTs) := by
  obtain ⟨candidates, hpolling, hrows, hemitted⟩ := poll_asked windowMinutes codec h nowTs
  have hasked : (w.next windowMinutes codec (.poll nowTs)).asked = candidates := by
    unfold ActivationWorker.asked
    rw [hpolling]
    rfl
  unfold pollRound
  simp only
  rw [hasked, turns_emitted hpolling, hemitted]
  · intro c hc
    rw [← hrows] at hc
    rw [show c.slug = Candidate.slug c from rfl, Table.get?_of_mem hc]
    rfl
  · rw [← hrows]
    exact Table.distinct _

/-- A round emits every candidate that is complete exactly where no candidate
asked about before a complete one has an answer that raises. -/
theorem pollRound_complete_iff (h : w.polling = .idle) (nowTs : ℤ) :
    (∀ c ∈ (w.next windowMinutes codec (.poll nowTs)).asked,
      (answers c.slug).reading codec c = some true →
        updateOf seenTs c ∈
          (w.pollRound windowMinutes codec answers seenTs nowTs).emitted.drop w.emitted.length) ↔
    ∀ before c after, (w.next windowMinutes codec (.poll nowTs)).asked = before ++ c :: after →
      (answers c.slug).reading codec c = some true →
        ∀ d ∈ before, (answers d.slug).reading codec d ≠ none := by
  have hnew : (w.pollRound windowMinutes codec answers seenTs nowTs).emitted.drop w.emitted.length =
      ((readable codec answers (w.next windowMinutes codec (.poll nowTs)).asked).filter fun c =>
        (answers c.slug).reading codec c = some true).map (updateOf seenTs) := by
    rw [pollRound_emitted h, List.drop_left]
  rw [hnew]
  obtain ⟨candidates, hpolling, hrows, -⟩ :=
    poll_asked windowMinutes codec h nowTs
  have hasked : (w.next windowMinutes codec (.poll nowTs)).asked = candidates := by
    unfold ActivationWorker.asked
    rw [hpolling]
    rfl
  have hnodup : (candidates.map Candidate.slug).Nodup := hrows ▸ Table.distinct _
  rw [hasked]
  constructor
  · intro hall before c after hsplit hcomplete d hd
    have hmem := hall c (hsplit ▸ by simp) hcomplete
    obtain ⟨e, he, hsame⟩ := List.mem_map.mp hmem
    have hreadable := (List.mem_filter.mp he).1
    -- the update's market is the candidate's, so it is the candidate itself
    have hec : e = c := by
      refine List.inj_on_of_nodup_map hnodup (List.takeWhile_subset _ hreadable)
        (hsplit ▸ by simp) ?_
      exact congrArg (fun u => u.market.slug) hsame
    subst hec
    rw [hsplit, List.map_append, List.map_cons] at hnodup
    have hapart := (List.nodup_append.mp hnodup).2.2
    -- an answer that raises among those before ends the readable ones there
    rw [hsplit, readable_append] at hreadable
    split at hreadable
    · rename_i hall'
      have hsome := hall' d hd
      intro hnone
      rw [hnone] at hsome
      cases hsome
    · have hbefore := List.takeWhile_subset _ hreadable
      exact absurd rfl (hapart e.slug (List.mem_map_of_mem hbefore) e.slug List.mem_cons_self)
  · intro hsplit c hc hcomplete
    obtain ⟨before, after, hcandidates⟩ := List.append_of_mem hc
    refine List.mem_map_of_mem (List.mem_filter.mpr ⟨?_, by simpa using hcomplete⟩)
    rw [hcandidates, readable_append, if_pos]
    · refine List.mem_append_right _ ?_
      simp [readable, hcomplete]
    · intro d hd
      exact Option.isSome_iff_ne_none.mpr (hsplit before c after hcandidates hcomplete d hd)

end ActivationWorker

def laterMarket : Market := (GammaListing.mk "0xc1" "up-later" "down-later" 5 (1 / 100)).market 300

def twoRegistered : ActivationWorker :=
  [.discover (.ok [pairMarket, laterMarket]), .register 1000 1].foldl
    (ActivationWorker.next 30 pairExchange.codec) ActivationWorker.init

def laterComplete (first : ClobAnswer) (slug : String) : ClobAnswer :=
  if slug = laterMarket.slug then
    .payload (.object [("t", .array [.object [("t", .string "up-later")],
      .object [("t", .string "down-later")]])])
  else first

/-- A market the CLOB does not know holds none back. -/
theorem pollRound_complete_iff_missing :
    let w := twoRegistered
    let answers := laterComplete .missing
    ∀ c ∈ (w.next 30 pairExchange.codec (.poll 100)).asked,
      (answers c.slug).reading pairExchange.codec c = some true →
        ActivationWorker.updateOf (fun _ => 100500) c ∈
          (w.pollRound 30 pairExchange.codec answers (fun _ => 100500) 100).emitted.drop
            w.emitted.length := by
  intro w answers
  refine (ActivationWorker.pollRound_complete_iff (w := w) rfl 100).mpr ?_
  intro before c after hasked hcomplete d hd
  have hreadable : ∀ d ∈ (w.next 30 pairExchange.codec (.poll 100)).asked,
      (answers d.slug).reading pairExchange.codec d ≠ none := by
    decide +kernel
  exact hreadable d (hasked ▸ List.mem_append_left _ hd)

/-- One request about the first market fails, and the complete one behind it is
not emitted, this round or any later one like it. -/
theorem pollRound_holds_back :
    let w := twoRegistered
    let answers := laterComplete .failed
    let round := w.pollRound 30 pairExchange.codec answers (fun _ => 100500) 100
    ∃ c ∈ (w.next 30 pairExchange.codec (.poll 100)).asked,
      (answers c.slug).reading pairExchange.codec c = some true ∧
        ActivationWorker.updateOf (fun _ => 100500) c ∉ round.emitted ∧
        round.polling.asked = [] ∧ round.pool.pending.rows = w.pool.pending.rows := by
  decide +kernel

end EventQuant
