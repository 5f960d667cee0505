import EventQuant.FleetExposure
import EventQuant.Service.LedgerRuns

/-!
How far one account's failure reaches among the cancels. The accounts are asked
in the order their first row stands, and the first that is missing, raises or
answers unreadably ends the round: the accounts after it are not asked, and
what the accounts before it confirmed is not recorded. Both sweeps are exactly
as good as the accounts around that first failure allow.
-/
namespace EventQuant

open Program Python Store

namespace Service

variable (s : Service)

def owner (row : OrderRow) : String :=
  match s.fleet with
  | none => s.solo.account
  | some f => if row.account = "" then f.primary.name else row.account

def ownedIds (rows : List (OrderRow × MarketRow)) (account : String) : List String :=
  (rows.filter fun row => s.owner row.1 = account).map fun row => row.1.orderId

def owners (rows : List (OrderRow × MarketRow)) : List String :=
  (rows.map fun row => s.owner row.1).eraseDups

def known (account : String) : Bool :=
  match s.fleet with
  | none => true
  | some f => (f.member account).isOk

variable (answers : CancelAnswers)

def reply (account : String) : Except Exn (List String × List String) :=
  match s.fleet with
  | none => (answers account).bind (classifyCancelResult s.codec)
  | some f => (f.member account).bind fun m =>
      (answers account).bind (classifyCancelResult m.exchange.codec)

def Raises (account : String) : Prop := s.known account = false ∨ ∃ e, answers account = .error e

def Confirms (account orderId : String) : Prop :=
  ∃ ids, s.reply answers account = .ok ids ∧ orderId ∈ ids.1

def ReportsOver (account orderId : String) : Prop :=
  ∃ ids, s.reply answers account = .ok ids ∧ orderId ∈ ids.2

instance (account : String) : Decidable (s.Raises answers account) := by
  unfold Raises
  cases hanswer : answers account with
  | ok value => exact decidable_of_iff (s.known account = false) (by simp)
  | error e => exact .isTrue (.inr ⟨e, rfl⟩)

instance (account orderId : String) : Decidable (s.Confirms answers account orderId) := by
  unfold Confirms
  cases hreply : s.reply answers account with
  | ok ids => exact decidable_of_iff (orderId ∈ ids.1) (by simp)
  | error e => exact .isFalse (by simp)

instance (account orderId : String) : Decidable (s.ReportsOver answers account orderId) := by
  unfold ReportsOver
  cases hreply : s.reply answers account with
  | ok ids => exact decidable_of_iff (orderId ∈ ids.2) (by simp)
  | error e => exact .isFalse (by simp)

/-- No other account is held back by one that raises, and no confirmed cancel
goes unrecorded. -/
structure Isolated (rows : List (OrderRow × MarketRow)) (commits : List Effect) (after : Database) :
    Prop where
  submitted : ∀ account ∈ s.owners rows, ¬ s.Raises answers account →
    .cancel account (s.ownedIds rows account) ∈ commits
  recorded : ∀ account ∈ s.owners rows, .cancel account (s.ownedIds rows account) ∈ commits →
    ∀ orderId ∈ s.ownedIds rows account, s.Confirms answers account orderId →
      (after.order orderId).map OrderRow.status = some "cancelled"

def beforeFailure (rows : List (OrderRow × MarketRow)) : List String :=
  (s.owners rows).takeWhile fun account => (s.reply answers account).isOk

def fromFailure (rows : List (OrderRow × MarketRow)) : List String :=
  (s.owners rows).dropWhile fun account => (s.reply answers account).isOk

/-- No account fails and no confirmed id is also reported as over; or the first
account to fail comes after confirmations of none and before accounts that
raise as well. -/
def CleanRound (rows : List (OrderRow × MarketRow)) : Prop :=
  match s.fromFailure answers rows with
  | [] => ∀ account ∈ s.owners rows, ∀ orderId ∈ s.ownedIds rows account,
      s.Confirms answers account orderId →
        ∀ other ∈ s.owners rows, ¬ s.ReportsOver answers other orderId
  | _ :: later =>
      (∀ account ∈ s.beforeFailure answers rows, ∀ orderId ∈ s.ownedIds rows account,
        ¬ s.Confirms answers account orderId) ∧
      ∀ account ∈ later, s.Raises answers account

instance (rows : List (OrderRow × MarketRow)) : Decidable (s.CleanRound answers rows) := by
  unfold CleanRound
  split <;> infer_instance

theorem groupRows_eq {f : Fleet} (hf : s.fleet = some f) (rows : List (OrderRow × MarketRow)) :
    groupRows f.primary.name rows =
      (s.owners rows).map fun account => (account, s.ownedIds rows account) := by
  simp [groupRows, owners, ownedIds, owner, hf]

def confirmedBy (account : String) : List String := ((s.reply answers account).toOption.map Prod.fst).getD []

def overBy (account : String) : List String := ((s.reply answers account).toOption.map Prod.snd).getD []

theorem mem_confirmedBy {account orderId : String} :
    orderId ∈ s.confirmedBy answers account ↔ s.Confirms answers account orderId := by
  unfold confirmedBy Confirms
  cases s.reply answers account <;> simp [Except.toOption]

theorem mem_overBy {account orderId : String} :
    orderId ∈ s.overBy answers account ↔ s.ReportsOver answers account orderId := by
  unfold overBy ReportsOver
  cases s.reply answers account <;> simp [Except.toOption]

def requests (rows : List (OrderRow × MarketRow)) (accounts : List String) : List Effect :=
  accounts.map fun account => .cancel account (s.ownedIds rows account)

section Groups

variable {f : Fleet} {ids : String → List String}

theorem reply_ok {account : String} {found : List String × List String} (hf : s.fleet = some f)
    (h : s.reply answers account = .ok found) : ∃ m value, f.member account = .ok m ∧
      answers account = .ok value ∧ classifyCancelResult m.exchange.codec value = .ok found := by
  simp only [reply, hf] at h
  cases hm : f.member account with
  | error e => rw [hm] at h; exact nomatch h
  | ok m =>
    cases hanswer : answers account with
    | error e => rw [hm, hanswer] at h; exact nomatch h
    | ok value =>
      rw [hm, hanswer] at h
      exact ⟨m, value, rfl, rfl, h⟩

theorem reply_of_isOk {account : String} (h : (s.reply answers account).isOk = true) :
    s.reply answers account = .ok (s.confirmedBy answers account, s.overBy answers account) := by
  unfold confirmedBy overBy
  cases hreply : s.reply answers account with
  | error e => rw [hreply] at h; exact nomatch h
  | ok found => rfl

/-- An account that answers passes the round on to the next. -/
theorem cancelGroups_cons_ok (hf : s.fleet = some f) {account : String}
    (h : (s.reply answers account).isOk = true) (orderIds : List String)
    (rest : List (String × List String)) (b : Bot) :
    (cancelGroups f answers ((account, orderIds) :: rest)).result b =
        ((cancelGroups f answers rest).result (b.apply (.cancel account orderIds))).map (fun found =>
          (s.confirmedBy answers account ++ found.1, s.overBy answers account ++ found.2)) ∧
      (cancelGroups f answers ((account, orderIds) :: rest)).commits b = .cancel account orderIds ::
        (cancelGroups f answers rest).commits (b.apply (.cancel account orderIds)) := by
  obtain ⟨m, value, hm, hanswer, hread⟩ :=
    s.reply_ok answers hf (s.reply_of_isOk answers h)
  have hfirst : (commit (.cancel account orderIds) : Action Unit).after b =
      b.apply (.cancel account orderIds) := rfl
  constructor
  · simp only [cancelGroups, bind_eq, result_andThen, result_answer, hm, hanswer, hread, Except.bind,
      result_commit, after_answer, hfirst]
    cases (cancelGroups f answers rest).result (b.apply (.cancel account orderIds)) <;> rfl
  · have hlast : ((cancelGroups f answers rest).andThen fun found => (return'
        (s.confirmedBy answers account ++ found.1, s.overBy answers account ++ found.2) :
          Action (List String × List String))).commits (b.apply (.cancel account orderIds)) =
        (cancelGroups f answers rest).commits (b.apply (.cancel account orderIds)) := by
      cases hrest : (cancelGroups f answers rest).result (b.apply (.cancel account orderIds)) with
      | error e => exact commits_andThen_error hrest
      | ok found => rw [commits_andThen_ok hrest, commits_return, List.append_nil]
    simp only [cancelGroups, bind_eq]
    rw [commits_andThen_ok ((result_answer _ _).trans hm), commits_andThen_ok (result_commit _ _),
      commits_andThen_ok ((result_answer _ _).trans hanswer),
      commits_andThen_ok ((result_answer _ _).trans hread)]
    exact congrArg (List.cons _) hlast

/-- A round in which every account answers. -/
theorem cancelGroups_answered (hf : s.fleet = some f) (accounts : List String) (b : Bot)
    (h : ∀ account ∈ accounts, (s.reply answers account).isOk = true) :
    (cancelGroups f answers (accounts.map fun account => (account, ids account))).result b =
        .ok (accounts.flatMap (s.confirmedBy answers), accounts.flatMap (s.overBy answers)) ∧
      (cancelGroups f answers (accounts.map fun account => (account, ids account))).commits b =
        accounts.map fun account => .cancel account (ids account) := by
  induction accounts generalizing b with
  | nil => exact ⟨rfl, rfl⟩
  | cons account accounts ih =>
    obtain ⟨hresult, hcommits⟩ := ih (b.apply (.cancel account (ids account)))
      fun other hother => h other (.tail _ hother)
    obtain ⟨hfirst, hcommit⟩ := s.cancelGroups_cons_ok answers hf (h account (.head _)) (ids account)
      (accounts.map fun account => (account, ids account)) b
    constructor
    · rw [List.map_cons, hfirst, hresult]
      rfl
    · rw [List.map_cons, hcommit, hcommits]
      rfl

/-- A round that ends at the first account that fails: it was asked, if this run
has it, and those after it were not. -/
theorem cancelGroups_failed (hf : s.fleet = some f) (before : List String) (account : String)
    (later : List String) (b : Bot)
    (h : ∀ account ∈ before, (s.reply answers account).isOk = true)
    (hfails : (s.reply answers account).isOk = false) :
    (∃ e, (cancelGroups f answers ((before ++ account :: later).map fun account =>
        (account, ids account))).result b = .error e) ∧
      (cancelGroups f answers ((before ++ account :: later).map fun account =>
        (account, ids account))).commits b =
        (before.map fun account => .cancel account (ids account)) ++
          if s.known account then [.cancel account (ids account)] else [] := by
  induction before generalizing b with
  | nil =>
    simp only [List.nil_append, List.map_cons, cancelGroups, bind_eq, List.map_nil]
    cases hm : f.member account with
    | error e =>
      have hknown : s.known account = false := by simp [known, hf, hm, Except.isOk, Except.toBool]
      rw [commits_andThen_error (result_answer _ _), hknown]
      exact ⟨⟨e, result_andThen_error (result_answer _ _)⟩, rfl⟩
    | ok m =>
      have hknown : s.known account = true := by simp [known, hf, hm, Except.isOk, Except.toBool]
      rw [result_andThen_ok (result_answer _ _),
        commits_andThen_ok (result_answer _ _), hknown,
        result_andThen_ok (result_commit _ _), commits_andThen_ok (result_commit _ _)]
      cases hanswer : answers account with
      | error e =>
        rw [result_andThen_error (result_answer _ _),
          commits_andThen_error (result_answer _ _)]
        exact ⟨⟨e, rfl⟩, rfl⟩
      | ok value =>
        cases hread : classifyCancelResult m.exchange.codec value with
        | ok found => simp [reply, hf, hm, hanswer, hread, Except.bind, Except.toBool] at hfails
        | error e =>
          rw [result_andThen_ok (result_answer _ _),
            commits_andThen_ok (result_answer _ _),
            result_andThen_error ((result_answer _ _).trans hread),
            commits_andThen_error ((result_answer _ _).trans hread)]
          exact ⟨⟨e, rfl⟩, rfl⟩
  | cons first before ih =>
    obtain ⟨⟨e, hresult⟩, hcommits⟩ := ih (b.apply (.cancel first (ids first)))
      fun other hother => h other (.tail _ hother)
    obtain ⟨hfirst, hcommit⟩ := s.cancelGroups_cons_ok answers hf (h first (.head _)) (ids first)
      ((before ++ account :: later).map fun account => (account, ids account)) b
    constructor
    · refine ⟨e, ?_⟩
      rw [List.cons_append, List.map_cons, hfirst, hresult]
      rfl
    · rw [List.cons_append, List.map_cons, hcommit, hcommits]
      rfl

end Groups

section Round

variable {x : Exchange} {rows : List (OrderRow × MarketRow)}

theorem owners_solo (hsolo : s.fleet = none) (hrows : rows ≠ []) :
    s.owners rows = [s.solo.account] := by
  have howner : ∀ row, s.owner row = s.solo.account := fun row => by simp [owner, hsolo]
  cases rows with
  | nil => exact absurd rfl hrows
  | cons row rows =>
    rw [owners, List.map_cons, List.eraseDups_cons, howner]
    have hrest : (rows.map fun row => s.owner row.1).filter (fun b => !b == s.solo.account) = [] := by
      simp [howner]
    rw [hrest]
    rfl

theorem ownedIds_solo (hsolo : s.fleet = none) :
    s.ownedIds rows s.solo.account = rows.map fun row => row.1.orderId := by
  simp [ownedIds, owner, hsolo]

theorem exchange_solo (hsolo : s.fleet = none) (hx : s.exchange = some x) : x = s.solo := by
  unfold exchange at hx
  split at hx
  · simpa [hsolo] using hx.symm
  · exact nomatch hx

theorem owners_eq : s.owners rows = s.beforeFailure answers rows ++ s.fromFailure answers rows :=
  List.takeWhile_append_dropWhile.symm

theorem nodup_eraseDups (accounts : List String) : accounts.eraseDups.Nodup := by
  induction hn : accounts.length using Nat.strong_induction_on generalizing accounts with
  | _ n ih =>
    cases accounts with
    | nil => simp
    | cons account accounts =>
      have hshorter := List.length_filter_le (fun other => !other == account) accounts
      rw [List.eraseDups_cons, List.nodup_cons]
      refine ⟨by simp [List.mem_eraseDups], ih _ ?_ _ rfl⟩
      rw [List.length_cons] at hn
      omega

/-- The first account that fails and those after it are told apart from those
asked before. -/
theorem split_nodup {account : String} {later : List String}
    (h : s.fromFailure answers rows = account :: later) :
    (s.beforeFailure answers rows ++ account :: later).Nodup :=
  h ▸ s.owners_eq answers ▸ nodup_eraseDups _

theorem beforeFailure_isOk {account : String} (h : account ∈ s.beforeFailure answers rows) :
    (s.reply answers account).isOk = true :=
  List.mem_takeWhile_imp (p := fun account => (s.reply answers account).isOk) h

theorem fromFailure_fails {account : String} {later : List String}
    (h : s.fromFailure answers rows = account :: later) : (s.reply answers account).isOk = false := by
  have hhead := List.head?_dropWhile_not (fun account => (s.reply answers account).isOk) (s.owners rows)
  unfold fromFailure at h
  rw [h] at hhead
  simpa using hhead

/-- The requests of a round: up to the first account that fails, which is asked
too if this run has it. -/
def asked (rows : List (OrderRow × MarketRow)) : List Effect :=
  s.requests rows (s.beforeFailure answers rows) ++
    match s.fromFailure answers rows with
    | [] => []
    | account :: _ => if s.known account then s.requests rows [account] else []

/-- Every account answered: every one was asked. -/
theorem cancelRows_answered (hx : s.exchange = some x) (hrows : rows ≠ [])
    (h : s.fromFailure answers rows = []) (b : Bot) :
    (s.cancelRows x rows answers).result b = .ok ((s.owners rows).flatMap (s.confirmedBy answers),
        (s.owners rows).flatMap (s.overBy answers)) ∧
      (s.cancelRows x rows answers).commits b = s.asked answers rows := by
  have hbefore : s.asked answers rows = s.requests rows (s.owners rows) := by
    rw [asked, s.owners_eq answers, h, List.append_nil, List.append_nil]
  rw [hbefore]
  have hall : ∀ account ∈ s.owners rows, (s.reply answers account).isOk = true := by
    rw [s.owners_eq answers, h, List.append_nil]
    exact fun account haccount => s.beforeFailure_isOk answers haccount
  unfold cancelRows
  cases hfleet : s.fleet with
  | some f =>
    simp only [s.groupRows_eq hfleet]
    exact s.cancelGroups_answered answers hfleet _ b hall
  | none =>
    obtain rfl := s.exchange_solo hfleet hx
    have howners := s.owners_solo hfleet hrows
    have hreply := s.reply_of_isOk answers (hall s.solo.account (by simp [howners]))
    simp only [reply, hfleet] at hreply
    simp only [requests, howners, List.map_singleton, s.ownedIds_solo hfleet,
      List.flatMap_singleton, bind_eq]
    cases hanswer : answers s.solo.account with
    | error e => rw [hanswer] at hreply; exact nomatch hreply
    | ok value =>
      rw [hanswer] at hreply
      exact ⟨hreply, rfl⟩

theorem cancelRows_failed (hx : s.exchange = some x) (hrows : rows ≠ []) {account : String}
    {later : List String} (h : s.fromFailure answers rows = account :: later) (b : Bot) :
    (∃ e, (s.cancelRows x rows answers).result b = .error e) ∧
      (s.cancelRows x rows answers).commits b = s.asked answers rows := by
  have hasked : s.asked answers rows = s.requests rows (s.beforeFailure answers rows) ++
      if s.known account then s.requests rows [account] else [] := by
    rw [asked, h]
  rw [hasked]
  have hfails := s.fromFailure_fails answers h
  unfold cancelRows
  cases hfleet : s.fleet with
  | some f =>
    simp only [s.groupRows_eq hfleet]
    rw [s.owners_eq answers, h]
    exact s.cancelGroups_failed answers hfleet _ account later b
      (fun _ => s.beforeFailure_isOk answers) hfails
  | none =>
    obtain rfl := s.exchange_solo hfleet hx
    have howners := s.owners_solo hfleet hrows
    obtain ⟨rfl, hbefore⟩ : account = s.solo.account ∧ s.beforeFailure answers rows = [] := by
      have hsplit : s.owners rows = _ := s.owners_eq answers
      rw [howners, h] at hsplit
      cases hbefore : s.beforeFailure answers rows with
      | nil => exact ⟨(List.cons.inj (hbefore ▸ hsplit)).1.symm, rfl⟩
      | cons first before => simp [hbefore] at hsplit
    simp only [reply, hfleet] at hfails
    simp only [requests, hbefore, known, hfleet, List.map_nil, List.map_singleton,
      s.ownedIds_solo hfleet, if_true, List.nil_append, bind_eq]
    rw [result_andThen_ok (result_commit _ _), commits_andThen_ok (result_commit _ _)]
    cases hanswer : answers s.solo.account with
    | error e =>
      rw [result_andThen_error (result_answer _ _), commits_andThen_error (result_answer _ _)]
      exact ⟨⟨e, rfl⟩, rfl⟩
    | ok value =>
      rw [hanswer] at hfails
      cases hread : classifyCancelResult s.codec value with
      | ok found => simp [hread, Except.bind, Except.isOk, Except.toBool] at hfails
      | error e => exact ⟨⟨e, hread⟩, rfl⟩

end Round

/-- What the round leaves of the rows: each was marked before its account was
asked, and the answers are recorded only when every account gave one. -/
def recordedStatus (rows : List (OrderRow × MarketRow)) (orderId status : String) : String :=
  if s.fromFailure answers rows = [] then
    if orderId ∈ (s.owners rows).flatMap (s.overBy answers) then "terminal_unknown"
    else if orderId ∈ (s.owners rows).flatMap (s.confirmedBy answers) then "cancelled"
    else if orderId ∈ rows.map (fun row => row.1.orderId) then "cancel_requested" else status
  else if orderId ∈ rows.map (fun row => row.1.orderId) then "cancel_requested" else status

theorem order_markOrders (db : Database) (orderIds : List String) (status orderId : String) :
    ((db.apply (.markOrders orderIds status)).order orderId).map OrderRow.status =
      ((db.order orderId).map OrderRow.status).map fun old =>
        if orderId ∈ orderIds then status else old := by
  rw [Database.apply, Database.order_updateOrders, Option.map_map, Option.map_map]
  congr 1
  funext row
  by_cases h : orderId ∈ orderIds <;> simp [h]

/-- `mark_orders` writes nothing for no ids, which is what marking none does. -/
theorem order_after_markOrders (orderIds : List String) (status orderId : String) (b : Bot) :
    (((markOrders orderIds status).after b).database.order orderId).map OrderRow.status =
      ((b.database.order orderId).map OrderRow.status).map fun old =>
        if orderId ∈ orderIds then status else old := by
  unfold markOrders
  by_cases h : orderIds = []
  · rw [if_pos h, h]
    cases hrow : b.database.order orderId <;> simp [hrow]
  · rw [if_neg h]
    exact order_markOrders b.database orderIds status orderId

theorem markOrders_writes (orderIds : List String) (status : String) :
    Emits (fun e => ∃ w, e = .write w) (markOrders orderIds status) := by
  unfold markOrders
  split
  · exact emits_return _
  · exact emits_commit ⟨_, rfl⟩

theorem database_settle_cancels {commits : List Effect} (h : ∀ e ∈ commits, e.Cancels) (b : Bot) :
    (settle b commits).database = b.database := by
  induction commits generalizing b with
  | nil => rfl
  | cons e commits ih =>
    rw [settle_cons, ih fun e' he' => h e' (.tail _ he')]
    cases e with
    | cancel account orderIds => rfl
    | _ => exact absurd (h _ (.head _)) id

theorem asked_cancels (rows : List (OrderRow × MarketRow)) :
    ∀ e ∈ s.asked answers rows, e.Cancels := by
  have hrequests : ∀ accounts, ∀ e ∈ s.requests rows accounts, e.Cancels := by
    intro accounts e he
    obtain ⟨account, -, rfl⟩ := List.mem_map.mp he
    trivial
  intro e he
  rcases List.mem_append.mp he with he | he
  · exact hrequests _ e he
  · split at he
    · exact absurd he List.not_mem_nil
    · split at he
      · exact hrequests _ e he
      · exact absurd he List.not_mem_nil

@[simp] theorem result_markOrders (orderIds : List String) (status : String) (b : Bot) :
    (markOrders orderIds status).result b = .ok () := by
  unfold markOrders
  split <;> rfl

/-- The round inside its handler: what it asked, and the answers if it has them all. -/
theorem handled_round {x : Exchange} {rows : List (OrderRow × MarketRow)}
    (hx : s.exchange = some x) (hrows : rows ≠ []) (b : Bot) :
    let round : Action (Option (List String × List String)) := handle
      ((s.cancelRows x rows answers).andThen fun ids => return' (some ids)) fun _ => return' none
    round.commits b = s.asked answers rows ∧ round.result b = .ok
      (if s.fromFailure answers rows = [] then
        some ((s.owners rows).flatMap (s.confirmedBy answers),
          (s.owners rows).flatMap (s.overBy answers))
      else none) := by
  intro round
  cases hfailure : s.fromFailure answers rows with
  | nil =>
    obtain ⟨hresult, hcommits⟩ := s.cancelRows_answered answers hx hrows hfailure b
    have hok : ((s.cancelRows x rows answers).andThen fun ids =>
        (return' (some ids) : Action (Option (List String × List String)))).result b = .ok _ :=
      result_andThen_ok hresult
    refine ⟨?_, result_handle_ok hok⟩
    rw [commits_handle_ok hok, commits_andThen_ok hresult, hcommits]
    exact List.append_nil _
  | cons account later =>
    obtain ⟨⟨e, hresult⟩, hcommits⟩ := s.cancelRows_failed answers hx hrows hfailure b
    have herror : ((s.cancelRows x rows answers).andThen fun ids =>
        (return' (some ids) : Action (Option (List String × List String)))).result b = .error e :=
      result_andThen_error hresult
    refine ⟨?_, result_handle_error herror⟩
    rw [commits_handle_error herror, commits_andThen_error hresult, hcommits]
    exact List.append_nil _

/-- What marking and cancelling the rows asks of the accounts, and how it leaves
the rows. -/
theorem cancelAndMark_run {x : Exchange} {rows : List (OrderRow × MarketRow)}
    (hx : s.exchange = some x) (hrows : rows ≠ []) (b : Bot) :
    (∀ account orderIds, .cancel account orderIds ∈ (s.cancelAndMark rows answers).commits b ↔
        .cancel account orderIds ∈ s.asked answers rows) ∧
      ∀ orderId,
        (((s.cancelAndMark rows answers).after b).database.order orderId).map OrderRow.status =
          ((b.database.order orderId).map OrderRow.status).map
            (s.recordedStatus answers rows orderId) := by
  have hids : rows.map (fun row => row.1.orderId) ≠ [] := by simpa using hrows
  have hnone : ∀ orderIds status account ids c,
      .cancel account ids ∉ (markOrders orderIds status).commits c := by
    intro orderIds status account ids c hmem
    obtain ⟨w, hw⟩ := markOrders_writes orderIds status c _ hmem
    exact nomatch hw
  obtain ⟨hasked, hround⟩ := s.handled_round answers hx hrows
    ((markOrders (rows.map fun row => row.1.orderId) "cancel_requested").after b)
  have hkept := database_settle_cancels (s.asked_cancels answers rows)
    ((markOrders (rows.map fun row => row.1.orderId) "cancel_requested").after b)
  rw [← hasked] at hkept
  unfold cancelAndMark
  simp only [if_neg hids, hx, bind_eq]
  constructor
  · intro account ids
    rw [commits_andThen_ok (result_markOrders _ _ _), commits_andThen_ok hround, hasked,
      List.mem_append, List.mem_append, or_iff_right (hnone _ _ _ _ _)]
    refine or_iff_left fun hmem => ?_
    split at hmem
    · exact absurd hmem List.not_mem_nil
    · rw [commits_andThen_ok (result_markOrders _ _ _), List.mem_append] at hmem
      exact hmem.elim (hnone _ _ _ _ _) (hnone _ _ _ _ _)
  · intro orderId
    have hmarked := order_after_markOrders (rows.map fun row => row.1.orderId) "cancel_requested"
      orderId b
    rw [after_andThen_ok (result_markOrders _ _ _), after_andThen_ok hround]
    unfold recordedStatus
    by_cases hfailure : s.fromFailure answers rows = []
    · simp only [if_pos hfailure]
      rw [after_andThen_ok (result_markOrders _ _ _), order_after_markOrders,
        order_after_markOrders, after, hkept, hmarked, Option.map_map, Option.map_map]
      congr 1
    · simp only [if_neg hfailure]
      rw [after_return, after, hkept, hmarked]

theorem mem_requests {rows : List (OrderRow × MarketRow)} {accounts : List String}
    {account : String} :
    .cancel account (s.ownedIds rows account) ∈ s.requests rows accounts ↔ account ∈ accounts := by
  constructor
  · intro h
    obtain ⟨other, hother, heq⟩ := List.mem_map.mp h
    exact (Effect.cancel.inj heq).1 ▸ hother
  · exact fun h => List.mem_map_of_mem h

theorem ownedIds_sub {rows : List (OrderRow × MarketRow)} {account orderId : String}
    (h : orderId ∈ s.ownedIds rows account) : orderId ∈ rows.map fun row => row.1.orderId := by
  obtain ⟨row, hrow, rfl⟩ := List.mem_map.mp h
  exact List.mem_map_of_mem (List.mem_filter.mp hrow).1

section Rows

variable {x : Exchange} {rows : List (OrderRow × MarketRow)} {b : Bot}

/-- How the sweep leaves the row of an id it was asked to cancel. -/
theorem status_after (hx : s.exchange = some x) (hrows : rows ≠ [])
    (hbooks : ∀ row ∈ rows, ∃ r, b.database.order row.1.orderId = some r) {account orderId : String}
    (h : orderId ∈ s.ownedIds rows account) : ∃ old,
      (((s.cancelAndMark rows answers).after b).database.order orderId).map OrderRow.status =
        some (s.recordedStatus answers rows orderId old) := by
  obtain ⟨row, hrow, rfl⟩ := List.mem_map.mp (s.ownedIds_sub h)
  obtain ⟨r, hr⟩ := hbooks row hrow
  refine ⟨r.status, ?_⟩
  rw [(s.cancelAndMark_run answers hx hrows b).2, hr]
  rfl

/-- A round in which every account answers isolates exactly when no confirmed id
is also reported as over. -/
theorem isolated_iff_of_answered (hx : s.exchange = some x) (hrows : rows ≠ [])
    (hbooks : ∀ row ∈ rows, ∃ r, b.database.order row.1.orderId = some r)
    (h : s.fromFailure answers rows = []) :
    s.Isolated answers rows ((s.cancelAndMark rows answers).commits b)
        ((s.cancelAndMark rows answers).after b).database ↔
      ∀ account ∈ s.owners rows, ∀ orderId ∈ s.ownedIds rows account,
        s.Confirms answers account orderId →
          ∀ other ∈ s.owners rows, ¬ s.ReportsOver answers other orderId := by
  have hasked : ∀ account ∈ s.owners rows, .cancel account (s.ownedIds rows account) ∈
      (s.cancelAndMark rows answers).commits b := by
    intro account haccount
    rw [(s.cancelAndMark_run answers hx hrows b).1, asked, h, List.append_nil, mem_requests]
    rwa [s.owners_eq answers, h, List.append_nil] at haccount
  have hrecorded : ∀ account ∈ s.owners rows, ∀ orderId ∈ s.ownedIds rows account,
      s.Confirms answers account orderId →
      ((((s.cancelAndMark rows answers).after b).database.order orderId).map OrderRow.status =
        some "cancelled" ↔ ∀ other ∈ s.owners rows, ¬ s.ReportsOver answers other orderId) := by
    intro account haccount orderId hid hconfirms
    obtain ⟨old, hstatus⟩ := s.status_after answers hx hrows hbooks hid
    have hconfirmed : orderId ∈ (s.owners rows).flatMap (s.confirmedBy answers) :=
      List.mem_flatMap.mpr ⟨account, haccount, (s.mem_confirmedBy answers).mpr hconfirms⟩
    rw [hstatus, recordedStatus, if_pos h, if_pos hconfirmed]
    by_cases hover : orderId ∈ (s.owners rows).flatMap (s.overBy answers)
    · rw [if_pos hover]
      obtain ⟨other, hother, hreports⟩ := List.mem_flatMap.mp hover
      exact iff_of_false (by decide) fun hnone => hnone other hother ((s.mem_overBy answers).mp hreports)
    · rw [if_neg hover]
      refine iff_of_true rfl fun other hother hreports => hover ?_
      exact List.mem_flatMap.mpr ⟨other, hother, (s.mem_overBy answers).mpr hreports⟩
  constructor
  · intro hisolated account haccount orderId hid hconfirms
    exact (hrecorded account haccount orderId hid hconfirms).mp
      (hisolated.recorded account haccount (hasked account haccount) orderId hid hconfirms)
  · intro hclean
    refine ⟨fun account haccount _ => hasked account haccount, ?_⟩
    intro account haccount _ orderId hid hconfirms
    exact (hrecorded account haccount orderId hid hconfirms).mpr
      (hclean account haccount orderId hid hconfirms)

/-- A round that ends at an account isolates exactly when nothing was confirmed
before it and every account after it raises too. -/
theorem isolated_iff_of_failed (hx : s.exchange = some x) (hrows : rows ≠ [])
    (hbooks : ∀ row ∈ rows, ∃ r, b.database.order row.1.orderId = some r) {account : String}
    {later : List String} (h : s.fromFailure answers rows = account :: later) :
    s.Isolated answers rows ((s.cancelAndMark rows answers).commits b)
        ((s.cancelAndMark rows answers).after b).database ↔
      (∀ account ∈ s.beforeFailure answers rows, ∀ orderId ∈ s.ownedIds rows account,
        ¬ s.Confirms answers account orderId) ∧ ∀ account ∈ later, s.Raises answers account := by
  have hfails := s.fromFailure_fails answers h
  have hnodup := s.split_nodup answers h
  have howners : s.owners rows = s.beforeFailure answers rows ++ account :: later :=
    h ▸ s.owners_eq answers
  have hasked : ∀ other, .cancel other (s.ownedIds rows other) ∈
      (s.cancelAndMark rows answers).commits b ↔
      other ∈ s.beforeFailure answers rows ∨ (other = account ∧ s.known account = true) := by
    intro other
    rw [(s.cancelAndMark_run answers hx hrows b).1, asked, h, List.mem_append, mem_requests]
    by_cases hknown : s.known account = true <;> simp [hknown, mem_requests]
  have hmarked : ∀ other orderId, orderId ∈ s.ownedIds rows other →
      (((s.cancelAndMark rows answers).after b).database.order orderId).map OrderRow.status ≠
        some "cancelled" := by
    intro other orderId hid
    obtain ⟨old, hstatus⟩ := s.status_after answers hx hrows hbooks hid
    have hfailed : s.fromFailure answers rows ≠ [] := by simp [h]
    rw [hstatus, recordedStatus, if_neg hfailed, if_pos (s.ownedIds_sub hid)]
    decide
  constructor
  · intro hisolated
    constructor
    · intro other hother orderId hid hconfirms
      have hin : other ∈ s.owners rows := howners ▸ List.mem_append_left _ hother
      exact hmarked other orderId hid
        (hisolated.recorded other hin ((hasked other).mpr (.inl hother)) orderId hid hconfirms)
    · intro other hother
      have hin : other ∈ s.owners rows := howners ▸ List.mem_append_right _ (.tail _ hother)
      by_contra hraises
      rcases (hasked other).mp (hisolated.submitted other hin hraises) with hbefore | ⟨rfl, -⟩
      · exact (List.nodup_append.mp hnodup).2.2 _ hbefore _ (.tail _ hother) rfl
      · exact (List.nodup_cons.mp (List.nodup_append.mp hnodup).2.1).1 hother
  · rintro ⟨hnothing, hraise⟩
    constructor
    · intro other hin hraises
      rw [howners, List.mem_append, List.mem_cons] at hin
      rcases hin with hbefore | rfl | hlater
      · exact (hasked other).mpr (.inl hbefore)
      · refine (hasked other).mpr (.inr ⟨rfl, ?_⟩)
        by_contra hknown
        exact hraises (.inl (by simpa using hknown))
      · exact absurd (hraise other hlater) hraises
    · intro other _ hin orderId hid hconfirms
      rcases (hasked other).mp hin with hbefore | ⟨rfl, -⟩
      · exact absurd hconfirms (hnothing other hbefore orderId hid)
      · obtain ⟨ids, hreply, -⟩ := hconfirms
        rw [hreply] at hfails
        exact nomatch hfails

/-- Marking and cancelling rows of the books keeps the accounts apart exactly when
the round is clean. -/
theorem isolated_iff_cleanRound (hx : s.exchange = some x)
    (hbooks : ∀ row ∈ rows, ∃ r, b.database.order row.1.orderId = some r) :
    s.Isolated answers rows ((s.cancelAndMark rows answers).commits b)
        ((s.cancelAndMark rows answers).after b).database ↔ s.CleanRound answers rows := by
  by_cases hrows : rows = []
  · subst hrows
    refine iff_of_true ⟨?_, ?_⟩ ?_
    · exact fun account haccount => absurd haccount (by simp [owners])
    · exact fun account haccount => absurd haccount (by simp [owners])
    · simp [CleanRound, fromFailure, owners]
  · unfold CleanRound
    split
    · rename_i hfailure
      exact s.isolated_iff_of_answered answers hx hrows hbooks hfailure
    · rename_i account later hfailure
      exact s.isolated_iff_of_failed answers hx hrows hbooks hfailure

end Rows

/-- The two sweeps that cancel the rows of every account. -/
inductive CancelSweep
  | deadline (nowTs : ℚ)
  | shutdown

def CancelSweep.rows (db : Database) : CancelSweep → List (OrderRow × MarketRow)
  | .deadline nowTs =>
    if s.cancelBeforeEndSeconds = 0 then []
    else db.dueOpenOrders (nowTs + s.cancelBeforeEndSeconds)
  | .shutdown => db.trackedOpenOrders

def CancelSweep.run : CancelSweep → Action Unit
  | .deadline nowTs => s.cancelDueOrders nowTs answers
  | .shutdown => s.cancelTrackedOrders answers

theorem CancelSweep.run_eq (sweep : CancelSweep) (b : Bot) :
    (sweep.run s answers).commits b =
        (s.cancelAndMark (sweep.rows s b.database) answers).commits b := by
  cases sweep with
  | shutdown => rfl
  | deadline nowTs =>
    by_cases hnever : s.cancelBeforeEndSeconds = 0
    · simp [run, cancelDueOrders, rows, hnever, cancelAndMark]
    · simp only [run, cancelDueOrders, rows, if_neg hnever]
      rfl

theorem CancelSweep.rows_books (sweep : CancelSweep) (db : Database) :
    ∀ row ∈ sweep.rows s db, ∃ r, db.order row.1.orderId = some r := by
  intro row hrow
  cases sweep with
  | shutdown => exact ⟨_, (Database.mem_trackedOpenOrders.mp hrow).1⟩
  | deadline nowTs =>
    by_cases hnever : s.cancelBeforeEndSeconds = 0
    · simp [rows, hnever] at hrow
    · rw [rows, if_neg hnever] at hrow
      exact ⟨_, (Database.mem_dueOpenOrders.mp hrow).1⟩

/-- A live run's sweep keeps the accounts apart exactly when its round is clean. -/
theorem cancels_isolated_iff (hlive : s.live = true) (sweep : CancelSweep) (b : Bot) :
    s.Isolated answers (sweep.rows s b.database) ((sweep.run s answers).commits b)
        ((sweep.run s answers).after b).database ↔
      s.CleanRound answers (sweep.rows s b.database) := by
  have hx : s.exchange = some ((s.fleet.map fun f => f.primary.exchange).getD s.solo) := by
    simp [exchange, hlive]
  rw [after, CancelSweep.run_eq, ← after]
  exact s.isolated_iff_cleanRound answers hx (sweep.rows_books s b.database)

end Service

def fleetService : Service where
  plan := ⟨1 / 10, [], 1⟩
  decimals := .context
  maxReservedUsd := none
  maxDailyFilledCost := none
  cancelBeforeEndSeconds := 30
  live := true
  entrySubmission := .soloUp
  placementIntervalMs := 20
  codec := pairExchange.codec
  runId := 1
  runStartedTs := 0
  fleet := some pairFleet
  fleetLive := fun _ => rfl
  fleetBuyOnly := fun _ => rfl
  fleetMode := by
    intro f hf m hm
    obtain rfl : pairFleet = f := Option.some.inj hf
    revert m
    decide

def openEntry (account orderId : String) : PlacedOrder :=
  { account := account, orderId := orderId, outcome := "up", tokenId := "up-token", price := 1 / 10,
    size := 10, side := .buy, role := .entry, status := "live" }

def openBooks (orders : List (String × String)) : Bot :=
  Bot.boot (orders.foldl
    (fun db order => db.apply (.addOrder 10 pairMarket.slug (openEntry order.1 order.2)))
    (Database.empty.apply (.prepareMarket 1 pairMarket .active)))

def confirmations (ids : String → String) : CancelAnswers := fun account =>
  .ok (.object [("canceled", .array [.string (ids account)])])

/-- Two accounts that each confirm their own order keep apart. -/
theorem cancels_isolated_pair :
    let b := openBooks [("primary", "0xa1"), ("second", "0xb2")]
    let answers := confirmations fun account => if account = "primary" then "0xa1" else "0xb2"
    fleetService.Isolated answers (Service.CancelSweep.shutdown.rows fleetService b.database)
      ((Service.CancelSweep.shutdown.run fleetService answers).commits b)
      ((Service.CancelSweep.shutdown.run fleetService answers).after b).database := by
  intro b answers
  exact (fleetService.cancels_isolated_iff answers rfl .shutdown b).mpr (by decide +kernel)

/-- An order of an account this run does not have, between the two: the second
account is never asked, and what the first confirmed is not recorded. -/
theorem cancels_isolated_unknown_account :
    let b := openBooks [("primary", "0xa1"), ("third", "0xc3"), ("second", "0xb2")]
    let answers := confirmations fun account => if account = "primary" then "0xa1" else "0xb2"
    ¬ fleetService.Isolated answers (Service.CancelSweep.shutdown.rows fleetService b.database)
      ((Service.CancelSweep.shutdown.run fleetService answers).commits b)
      ((Service.CancelSweep.shutdown.run fleetService answers).after b).database := by
  intro b answers
  rw [after, Service.CancelSweep.run_eq, ← after, fleetService.isolated_iff_cleanRound answers
    (x := pairFleet.primary.exchange) rfl (Service.CancelSweep.shutdown.rows_books _ b.database)]
  decide +kernel

end EventQuant
