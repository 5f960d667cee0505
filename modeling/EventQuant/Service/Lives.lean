import EventQuant.Library.Runs
import EventQuant.Service.Calls
import EventQuant.Service.TurnOrder

/-!
The life of one process: any sequence of calls that return. Whatever the calls
are, a market that waits for a retry is in the books.
-/
namespace EventQuant

open Program Store Runs

def Service.Calls (s : Service) (b b' : Bot) : Prop :=
  ∃ c : ServiceCall, c.Returns s b ∧ c.after s b = b'

theorem Effect.Quiet.inOrder {e : Effect} (h : e.Quiet) (fresh : Prop) (b : Bot) :
    e.InOrder fresh b := by
  cases e with
  | write w =>
    cases w with
    | prepareMarket runId m state => exact absurd h id
    | setMarketState slug state error => exact fun hpending => absurd hpending h
    | _ => trivial
  | setRetry slug retry => exact absurd h id
  | popRetry slug => exact absurd h id
  | _ => trivial

theorem Bot.rooted_apply {b : Bot} (hb : b.Rooted) {e : Effect} {fresh : Prop}
    (he : e.InOrder fresh b) : (Store.apply b e).Rooted := by
  intro slug hretry
  have hold : (b.retries.lookup slug).isSome = true → b.database.hasMarket slug = true := hb slug
  cases e with
  | write w => exact Database.hasMarket_apply (hold hretry) w
  | setRetry slug' retry =>
    by_cases hslug : slug = slug'
    · subst hslug
      exact he
    · change ((b.retries.insert slug' retry).lookup slug).isSome = true at hretry
      rw [AList.lookup_insert_ne hslug] at hretry
      exact hold hretry
  | popRetry slug' =>
    change ((b.retries.erase slug').lookup slug).isSome = true at hretry
    by_cases hslug : slug = slug'
    · subst hslug
      rw [AList.lookup_erase] at hretry
      cases hretry
    · rw [AList.lookup_erase_ne hslug] at hretry
      exact hold hretry
  | _ => exact hold hretry

/-- The order every call keeps, for the turn's own market where it is one. -/
theorem ServiceCall.inOrder (s : Service) {b : Bot} (hb : b.Rooted) (c : ServiceCall) :
    ∃ fresh, Each (fun b' e => Effect.InOrder fresh b' e) b (c.effects s b) := by
  rcases c.effects_cases s b with ⟨market, nowTs, trigger, orderbookReady, answers, rfl⟩ | hquiet
  · exact ⟨_, s.considerMarket_inOrder market nowTs trigger orderbookReady answers hb⟩
  · exact ⟨True, each_of_forall hquiet fun e he b' => he.inOrder True b'⟩

/-- At every point of a call. -/
theorem ServiceCall.rooted_take (s : Service) {b : Bot} (hb : b.Rooted) (c : ServiceCall) (n : ℕ) :
    (settle b ((c.effects s b).take n)).Rooted := by
  obtain ⟨fresh, heach⟩ := c.inOrder s hb
  exact (heach.take n).preserves Bot.Rooted (fun _ _ he ht => Bot.rooted_apply ht he) hb

theorem Bot.rooted_boot (db : Database) : (Bot.boot db).Rooted := by
  intro slug hretry
  change ((∅ : AList fun _ : String => Retry).lookup slug).isSome = true at hretry
  rw [AList.lookup_empty] at hretry
  cases hretry

/-- In every state a process lives to. -/
theorem Service.rooted_of_lives (s : Service) {db : Database} {b : Bot}
    (hlife : Run s.Calls (Bot.boot db) b) : b.Rooted := by
  refine run_preserves Bot.Rooted ?_ hlife (Bot.rooted_boot db)
  rintro b b' ⟨c, -, rfl⟩ hb
  have h := c.rooted_take s hb (c.effects s b).length
  rwa [List.take_length] at h

end EventQuant
