import Stigmergy.Lib.Runs
import Stigmergy.Capture.Queue

/-!
# Attempts of a queue row

Every statement of the queue changes a row in one of a few ways, which differ in what they do to the
status, the attempts, the lease and the finish time.

* `Change`      the ways a row changes, each with the guard it is made under;
* `Row.Ok`      a lease just while it is processed, a finish time just at its end, at most three attempts;
* `Change.ok`   no change breaks it;
* `Call`, `call_rows`   one statement with any arguments, and what it makes of every row;
* `Sound`, `sound_calls`   every row is so after any calls in any order.
-/

set_option linter.unusedSectionVars false

namespace Queue

section
variable {ι ρ : Type*} [DecidableEq ι]

/-- what a statement does to a row -/
inductive Kind where
  | kept
  | claimed (clock : Time) (operationBudgetS : ℕ)
  | requeued
  | handedBack
  | landed (commitSha : Text)
  | failed
  | retried

/-- the row `r` becomes `r'` -/
inductive Change : Kind → Row ρ → Row ρ → Prop where
  | kept {r r' : Row ρ} (status : r'.status = r.status) (attempts : r'.attempts = r.attempts)
      (lease : r'.leaseStartedAt = r.leaseStartedAt) (finish : r'.finishedAt = r.finishedAt)
      (budget : r'.budgetDeadlineAt = r.budgetDeadlineAt) (commit : r'.commitSha = r.commitSha) :
      Change .kept r r'
  | claimed {r r' : Row ρ} {clock : Time} {operationBudgetS : ℕ} (was : r.status = .queued)
      (status : r'.status = .processing) (attempts : r'.attempts = r.attempts + 1)
      (lease : r'.leaseStartedAt = some clock) (finish : r'.finishedAt = r.finishedAt)
      (budget : r'.budgetDeadlineAt =
        r.budgetDeadlineAt.orElse fun _ => some (clock + seconds (max 1 operationBudgetS))) :
      Change (.claimed clock operationBudgetS) r r'
  | requeued {r r' : Row ρ} (was : r.status = .processing) (few : r.attempts ≤ DEFAULT_MAX_ATTEMPTS)
      (status : r'.status = .queued) (attempts : r'.attempts = r.attempts) (lease : r'.leaseStartedAt = none)
      (finish : r'.finishedAt = none ∨ r'.finishedAt = r.finishedAt)
      (budget : r'.budgetDeadlineAt = none ∨ r'.budgetDeadlineAt = r.budgetDeadlineAt) : Change .requeued r r'
  | handedBack {r r' : Row ρ} (was : r.status = .processing) (status : r'.status = .queued)
      (attempts : r'.attempts = r.attempts - 1) (lease : r'.leaseStartedAt = none)
      (finish : r'.finishedAt = r.finishedAt) (budget : r'.budgetDeadlineAt = none) : Change .handedBack r r'
  | landed {r r' : Row ρ} {commitSha : Text} (was : r.status = .processing) (status : r'.status = .landed)
      (attempts : r'.attempts = r.attempts) (lease : r'.leaseStartedAt = none)
      (finish : r'.finishedAt.isSome = true) (budget : r'.budgetDeadlineAt = r.budgetDeadlineAt)
      (commit : r'.commitSha = commitSha) : Change (.landed commitSha) r r'
  | failed {r r' : Row ρ} (was : r.status = .processing) (status : r'.status = .failed)
      (attempts : r'.attempts = r.attempts) (lease : r'.leaseStartedAt = none)
      (finish : r'.finishedAt.isSome = true) (budget : r'.budgetDeadlineAt = r.budgetDeadlineAt) :
      Change .failed r r'
  | retried {r r' : Row ρ} (was : r.status = .failed) (status : r'.status = .queued) (attempts : r'.attempts = 0)
      (lease : r'.leaseStartedAt = none) (finish : r'.finishedAt = none) (budget : r'.budgetDeadlineAt = none) :
      Change .retried r r'

/-- what holds of a row at any time -/
structure Row.Ok (r : Row ρ) : Prop where
  lease : r.leaseStartedAt.isSome = true ↔ r.status = .processing
  finish : r.finishedAt.isSome = true ↔ r.status = .landed ∨ r.status = .failed
  attempts : r.attempts ≤ DEFAULT_MAX_ATTEMPTS + 1
  queued : r.status = .queued → r.attempts ≤ DEFAULT_MAX_ATTEMPTS
  claimed : r.status = .processing → 1 ≤ r.attempts

theorem Row.Ok.of_queued {r : Row ρ} (hs : r.status = .queued) (ha : r.attempts ≤ DEFAULT_MAX_ATTEMPTS)
    (hl : r.leaseStartedAt = none) (hf : r.finishedAt = none) : r.Ok where
  lease := by rw [hl, hs]; exact ⟨nofun, nofun⟩
  finish := by
    rw [hf, hs]
    refine ⟨nofun, fun h => ?_⟩
    rcases h with h | h <;> exact nomatch h
  attempts := Nat.le_succ_of_le ha
  queued := fun _ => ha
  claimed := fun h => by rw [hs] at h; exact nomatch h

theorem Row.Ok.of_ended {r : Row ρ} (hs : r.status = .landed ∨ r.status = .failed)
    (ha : r.attempts ≤ DEFAULT_MAX_ATTEMPTS + 1) (hl : r.leaseStartedAt = none) (hf : r.finishedAt.isSome = true) :
    r.Ok where
  lease := by
    rw [hl]
    refine ⟨nofun, fun h => ?_⟩
    rw [h] at hs
    rcases hs with hs | hs <;> exact nomatch hs
  finish := ⟨fun _ => hs, fun _ => hf⟩
  attempts := ha
  queued := fun h => by
    rw [h] at hs
    rcases hs with hs | hs <;> exact nomatch hs
  claimed := fun h => by
    rw [h] at hs
    rcases hs with hs | hs <;> exact nomatch hs

/-- an item that has not ended has no finish time -/
theorem Row.Ok.unfinished {r : Row ρ} (h : r.Ok) (hl : r.status ≠ .landed) (hf : r.status ≠ .failed) :
    r.finishedAt = none := by
  cases ht : r.finishedAt with
  | none => rfl
  | some t =>
    rcases h.finish.mp (by rw [ht]; rfl) with hs | hs
    · exact absurd hs hl
    · exact absurd hs hf

theorem Change.ok {k : Kind} {r r' : Row ρ} (hc : Change k r r') (h : r.Ok) : r'.Ok := by
  cases hc with
  | kept status attempts lease finish =>
    refine ⟨?_, ?_, ?_, ?_, ?_⟩
    · rw [lease, status]; exact h.lease
    · rw [finish, status]; exact h.finish
    · rw [attempts]; exact h.attempts
    · rw [status, attempts]; exact h.queued
    · rw [status, attempts]; exact h.claimed
  | claimed was status attempts lease finish =>
    have hnone : r'.finishedAt = none := by
      rw [finish]
      exact h.unfinished (by rw [was]; exact nofun) (by rw [was]; exact nofun)
    refine ⟨?_, ?_, ?_, ?_, ?_⟩
    · rw [lease, status]
      exact ⟨fun _ => rfl, fun _ => rfl⟩
    · rw [hnone, status]
      refine ⟨nofun, fun hs => ?_⟩
      rcases hs with hs | hs <;> exact nomatch hs
    · rw [attempts]
      exact Nat.succ_le_succ (h.queued was)
    · rw [status]
      exact nofun
    · rw [attempts]
      exact fun _ => Nat.le_add_left 1 r.attempts
  | requeued was few status attempts lease finish =>
    have hnone := h.unfinished (by rw [was]; exact nofun) (by rw [was]; exact nofun)
    refine Row.Ok.of_queued status (by rw [attempts]; exact few) lease ?_
    rcases finish with hf | hf
    · exact hf
    · rw [hf, hnone]
  | handedBack was status attempts lease finish =>
    have hnone := h.unfinished (by rw [was]; exact nofun) (by rw [was]; exact nofun)
    have hbound := h.attempts
    exact Row.Ok.of_queued status (by rw [attempts]; omega) lease (by rw [finish, hnone])
  | landed was status attempts lease finish =>
    exact Row.Ok.of_ended (Or.inl status) (by rw [attempts]; exact h.attempts) lease finish
  | failed was status attempts lease finish =>
    exact Row.Ok.of_ended (Or.inr status) (by rw [attempts]; exact h.attempts) lease finish
  | retried was status attempts lease finish =>
    exact Row.Ok.of_queued status (by rw [attempts]; exact Nat.zero_le _) lease finish

/-- a row that is landed after a change which lands none -/
theorem Change.landed_of {k : Kind} {r r' : Row ρ} (hc : Change k r r') (hk : ∀ sha, k ≠ .landed sha)
    (hs : r'.status = .landed) : r.status = .landed ∧ r'.attempts = r.attempts ∧ r'.commitSha = r.commitSha := by
  cases hc with
  | kept status attempts lease finish budget commit => exact ⟨by rw [← status, hs], attempts, commit⟩
  | landed => exact absurd rfl (hk _)
  | claimed was status | requeued was few status | handedBack was status | failed was status
  | retried was status => rw [status] at hs; exact nomatch hs

theorem ok_insertRow (tenantId : Text) (operation : Operation) (idempotencyKey submittedBy : Text)
    (acl : Option (List Text)) (request : ρ) (now : Time) :
    (insertRow tenantId operation idempotencyKey submittedBy acl request now).Ok :=
  Row.Ok.of_queued rfl (Nat.zero_le _) rfl rfl

/-! ## what each statement makes of the rows -/

/-- one row changed -/
def Changed (k : Kind) (db db' : Db ι ρ) (id : ι) : Prop :=
  ∃ r r', db.lookup id = some r ∧ Change k r r' ∧ db' = db.insert id r'

theorem changed_recordExtraction (db : Db ι ρ) (id : ι) (extraction : Text) :
    recordExtraction db id extraction = db ∨ Changed .kept db (recordExtraction db id extraction) id := by
  unfold recordExtraction
  split
  · rename_i r' db' hu
    obtain ⟨r, hr, -, rfl, rfl⟩ := updateWhere_eq_some.mp hu
    refine Or.inr ⟨r, _, hr, ?_, rfl⟩
    exact .kept rfl rfl rfl rfl rfl rfl
  · exact Or.inl rfl

theorem changed_claimNext {env : Env} {now clock : Time} {budget : ℕ} {db db' : Db ι ρ} {id : ι} {r' : Row ρ}
    (h : claimNext env now clock budget db id = some (r', db')) :
    db'.lookup id = some r' ∧ Changed (.claimed clock budget) db db' id := by
  obtain ⟨r, hr, hdue, rfl, rfl⟩ := updateWhere_eq_some.mp h
  have hs : r.status = .queued := by
    unfold due at hdue
    simp only [Bool.and_eq_true, beq_iff_eq] at hdue
    exact hdue.1.1.1
  refine ⟨AList.lookup_insert db, r, _, hr, ?_, rfl⟩
  exact .claimed hs rfl rfl rfl rfl rfl

/-- a row under a lease -/
theorem of_fenced {l : Lease} {r : Row ρ} (h : fenced l r = true) :
    r.status = .processing ∧ r.attempts = l.attempts ∧ r.leaseStartedAt = some l.startedAt := by
  unfold fenced at h
  simp only [Bool.and_eq_true, beq_iff_eq] at h
  exact ⟨h.1.1, h.1.2, h.2⟩

theorem changed_finishLanded {now : Time} {db db' : Db ι ρ} {id : ι} {l : Lease}
    {sourcePath commitSha : Text} {changeId : Option Text} {extraction report : Text} {r' : Row ρ}
    (h : finishLanded now db id l sourcePath commitSha changeId extraction report = .ok (r', db')) :
    Changed (.landed commitSha) db db' id := by
  obtain ⟨r, hr, hl, rfl, rfl⟩ := updateWhere_eq_some.mp (orRaise_eq_ok.mp h)
  refine ⟨r, _, hr, ?_, rfl⟩
  exact .landed (of_fenced hl).1 rfl rfl rfl rfl rfl rfl

theorem changed_failOrRetry {now : Time} {db db' : Db ι ρ} {id : ι} {l : Lease}
    {category error : Text} {retryable freshBudget : Bool} {r' : Row ρ}
    (h : failOrRetry now db id l category error retryable freshBudget = .ok (r', db')) :
    Changed .requeued db db' id ∨ Changed .failed db db' id := by
  obtain ⟨r, hr, hl, rfl, rfl⟩ := updateWhere_eq_some.mp (orRaise_eq_ok.mp h)
  obtain ⟨hs, ha, -⟩ := of_fenced hl
  by_cases hretry : (retryable && decide (l.attempts < DEFAULT_MAX_ATTEMPTS)) = true
  · have hfew : r.attempts ≤ DEFAULT_MAX_ATTEMPTS := by
      rw [Bool.and_eq_true, decide_eq_true_eq] at hretry
      rw [ha]
      exact Nat.le_of_lt hretry.2
    refine Or.inl ⟨r, _, hr, ?_, rfl⟩
    refine .requeued hs hfew (if_pos hretry) rfl rfl (Or.inl (if_pos hretry)) ?_
    show (if _ then none else r.budgetDeadlineAt) = none ∨ (if _ then none else r.budgetDeadlineAt) = _
    split
    · exact Or.inl rfl
    · exact Or.inr rfl
  · refine Or.inr ⟨r, _, hr, ?_, rfl⟩
    refine .failed hs (if_neg hretry) rfl rfl ?_ ?_
    · show (if _ then none else some now).isSome = true
      rw [if_neg hretry]
      rfl
    · refine if_neg fun hfresh => ?_
      rw [Bool.and_eq_true] at hfresh
      exact hretry hfresh.1

theorem changed_releaseClaim {now t : Time} {db db' : Db ι ρ} {id : ι}
    (h : releaseClaim now db id t = (true, db')) : Changed .handedBack db db' id := by
  unfold releaseClaim at h
  split at h
  · rename_i r' u hu
    obtain ⟨-, rfl⟩ := Prod.mk.inj h
    obtain ⟨r, hr, hp, rfl, rfl⟩ := updateWhere_eq_some.mp hu
    rw [Bool.and_eq_true, beq_iff_eq] at hp
    refine ⟨r, _, hr, ?_, rfl⟩
    exact .handedBack hp.1 rfl rfl rfl rfl rfl
  · exact Bool.noConfusion (Prod.mk.inj h).1

theorem changed_retryFailed {now : Time} {db db' : Db ι ρ} {id : ι} {r' : Row ρ}
    (h : retryFailed now db id = .ok (r', db')) : Changed .retried db db' id := by
  obtain ⟨r, hr, hs, rfl, rfl⟩ := updateWhere_eq_some.mp (orRaise_eq_ok.mp h)
  refine ⟨r, _, hr, ?_, rfl⟩
  exact .retried (beq_iff_eq.mp hs) rfl rfl rfl rfl rfl

theorem change_expire (now : Time) {r : Row ρ} (h : r.status = .processing) :
    Change .requeued r (expire now r) ∨ Change .failed r (expire now r) := by
  unfold expire
  split
  · rename_i hfew
    exact Or.inl (.requeued h hfew rfl rfl rfl (Or.inr rfl) (Or.inr rfl))
  · exact Or.inr (.failed h rfl rfl rfl rfl rfl)

/-- a row `release_expired` names, whatever it named before -/
def expireOnce (now : Time) (r : Row ρ) : Row ρ := if r.status = .processing then expire now r else r

theorem expireOnce_idem (now : Time) (r : Row ρ) : expireOnce now (expireOnce now r) = expireOnce now r := by
  by_cases hs : r.status = .processing
  · have hne : (expire now r).status ≠ .processing := by
      rw [expire_status]
      split <;> exact nofun
    unfold expireOnce
    rw [if_pos hs, if_neg hne]
  · unfold expireOnce
    rw [if_neg hs, if_neg hs]

theorem lookup_expireOnce (now : Time) (db : Db ι ρ) (k id : ι) :
    (match db.lookup k with
      | some r => if r.status = Status.processing then db.insert k (expire now r) else db
      | none => db).lookup id =
        if id = k then (db.lookup id).map (expireOnce now) else db.lookup id := by
  by_cases hid : id = k
  · subst hid
    rw [if_pos rfl]
    cases hr : db.lookup id with
    | none => exact hr
    | some r =>
      show (if r.status = .processing then db.insert id (expire now r) else db).lookup id =
        some (if r.status = .processing then expire now r else r)
      split
      · exact AList.lookup_insert db
      · exact hr
  · rw [if_neg hid]
    cases hr : db.lookup k with
    | none => rfl
    | some r =>
      show (if r.status = .processing then db.insert k (expire now r) else db).lookup id = db.lookup id
      split
      · exact AList.lookup_insert_ne hid
      · rfl

/-- the statement `release_expired` on one row: expired it ends its lease, any other stays -/
theorem lookup_releaseExpired {now : Time} {timeout batch : ℕ} {db db' : Db ι ρ} {rows : List ι}
    (h : releaseExpired now timeout batch db rows = some db') (id : ι) :
    db'.lookup id = db.lookup id ∨
      ∃ r, db.lookup id = some r ∧ expired now timeout r = true ∧ db'.lookup id = some (expire now r) := by
  unfold releaseExpired at h
  split at h
  · rename_i hcond
    obtain rfl := Option.some.inj h
    have hfold : ∀ (ks : List ι) (d d' : Db ι ρ), ks.foldl (fun d k => match d.lookup k with
        | some r => if r.status = .processing then d.insert k (expire now r) else d
        | none => d) d = d' →
          d'.lookup id = if id ∈ ks then (d.lookup id).map (expireOnce now) else d.lookup id := by
      rintro ks d d' rfl
      induction ks generalizing d with
      | nil => rfl
      | cons k ks ih =>
        rw [List.foldl_cons, ih, lookup_expireOnce]
        by_cases hid : id = k
        · have hidem : ∀ o : Option (Row ρ), (o.map (expireOnce now)).map (expireOnce now) = o.map (expireOnce now) := by
            intro o
            rw [Option.map_map]
            exact congrArg (o.map ·) (funext (expireOnce_idem now))
          have hmem : id ∈ k :: ks := by
            rw [hid]
            exact List.mem_cons_self
          rw [if_pos hid, if_pos hmem, hidem, ite_self]
        · rw [if_neg hid]
          simp only [List.mem_cons, hid, false_or]
    have hlook := hfold rows db _ rfl
    by_cases hmem : id ∈ rows
    · rw [if_pos hmem] at hlook
      obtain ⟨r, hr, hexp⟩ := (Option.any_eq_true _ _).mp (hcond.2 id hmem)
      have hs : r.status = .processing := by
        unfold expired at hexp
        rw [Bool.and_eq_true, beq_iff_eq] at hexp
        exact hexp.1
      refine Or.inr ⟨r, hr, hexp, hlook.trans ?_⟩
      rw [hr, Option.map_some, expireOnce, if_pos hs]
    · rw [if_neg hmem] at hlook
      exact Or.inl hlook
  · exact nomatch h

/-! ## any calls -/

/-- one statement of the queue with all it is given -/
inductive Call (ι ρ : Type*) where
  | insert (id : ι) (tenantId : Text) (operation : Operation) (idempotencyKey submittedBy : Text)
      (acl : Option (List Text)) (request : ρ) (now : Time)
  | recordExtraction (id : ι) (extraction : Text)
  | claimNext (env : Env) (now clock : Time) (operationBudgetS : ℕ) (picked : ι)
  | releaseExpired (now : Time) (visibilityTimeoutS batch : ℕ) (rows : List ι)
  | finishLanded (now : Time) (id : ι) (l : Lease) (sourcePath commitSha : Text) (changeId : Option Text)
      (extraction report : Text)
  | failOrRetry (now : Time) (id : ι) (l : Lease) (category error : Text) (retryable freshBudget : Bool)
  | releaseClaim (now : Time) (id : ι) (leaseStartedAt : Time)
  | retryFailed (now : Time) (id : ι)

/-- the rows a statement that raises leaves -/
def orSame {ε α : Type*} (db : Db ι ρ) : Except ε (α × Db ι ρ) → Db ι ρ
  | .ok (_, db') => db'
  | .error _ => db

/-- the rows after a call; there is none of `release_expired` with rows it does not select -/
def Call.apply (db : Db ι ρ) : Call ι ρ → Option (Db ι ρ)
  | .insert id tenantId operation idempotencyKey submittedBy acl request now =>
    some (orSame db (Queue.insert db id
      (insertRow tenantId operation idempotencyKey submittedBy acl request now)))
  | .recordExtraction id extraction => some (Queue.recordExtraction db id extraction)
  | .claimNext env now clock operationBudgetS picked =>
    some (((Queue.claimNext env now clock operationBudgetS db picked).map Prod.snd).getD db)
  | .releaseExpired now visibilityTimeoutS batch rows =>
    Queue.releaseExpired now visibilityTimeoutS batch db rows
  | .finishLanded now id l sourcePath commitSha changeId extraction report =>
    some (orSame db (Queue.finishLanded now db id l sourcePath commitSha changeId extraction report))
  | .failOrRetry now id l category error retryable freshBudget =>
    some (orSame db (Queue.failOrRetry now db id l category error retryable freshBudget))
  | .releaseClaim now id leaseStartedAt => some (Queue.releaseClaim now db id leaseStartedAt).2
  | .retryFailed now id => some (orSame db (Queue.retryFailed now db id))

/-- what a call makes of the row of an item: nothing, a new one, or one of the changes -/
def Becomes (o o' : Option (Row ρ)) : Prop :=
  o' = o ∨ (o = none ∧ ∃ tenantId operation idempotencyKey submittedBy acl request now,
      o' = some (insertRow tenantId operation idempotencyKey submittedBy acl request now)) ∨
    ∃ r r' k, o = some r ∧ o' = some r' ∧ Change k r r'

theorem Becomes.ok {o o' : Option (Row ρ)} (h : Becomes o o') (ho : ∀ r, o = some r → r.Ok) :
    ∀ r, o' = some r → r.Ok := by
  intro r hr
  rcases h with rfl | ⟨-, t, op, k, s, a, q, now, rfl⟩ | ⟨p, p', k, rfl, rfl, hc⟩
  · exact ho r hr
  · rw [← Option.some.inj hr]
    exact ok_insertRow t op k s a q now
  · rw [← Option.some.inj hr]
    exact hc.ok (ho p rfl)

theorem Changed.becomes {k : Kind} {db db' : Db ι ρ} {id : ι} (h : Changed k db db' id) (i : ι) :
    Becomes (db.lookup i) (db'.lookup i) := by
  obtain ⟨r, r', hr, hc, rfl⟩ := h
  rw [Table.lookup_insert_eq]
  by_cases hi : i = id
  · rw [if_pos hi, hi, hr]
    exact Or.inr (Or.inr ⟨r, r', k, rfl, rfl, hc⟩)
  · rw [if_neg hi]
    exact Or.inl rfl

theorem becomes_releaseExpired {now : Time} {timeout batch : ℕ} {db db' : Db ι ρ} {rows : List ι}
    (h : releaseExpired now timeout batch db rows = some db') (i : ι) :
    Becomes (db.lookup i) (db'.lookup i) := by
  rcases lookup_releaseExpired h i with hsame | ⟨r, hr, hexp, hr'⟩
  · exact Or.inl hsame
  · unfold expired at hexp
    rw [Bool.and_eq_true, beq_iff_eq] at hexp
    rw [hr, hr']
    rcases change_expire _ hexp.1 with hc | hc
    · exact Or.inr (Or.inr ⟨r, _, .requeued, rfl, rfl, hc⟩)
    · exact Or.inr (Or.inr ⟨r, _, .failed, rfl, rfl, hc⟩)

theorem becomes_insert {db db' : Db ι ρ} {id : ι} {tenantId : Text} {operation : Operation}
    {idempotencyKey submittedBy : Text} {acl : Option (List Text)} {request : ρ} {now : Time} {o : Option (Row ρ)}
    (h : insert db id (insertRow tenantId operation idempotencyKey submittedBy acl request now) = .ok (o, db'))
    (i : ι) : Becomes (db.lookup i) (db'.lookup i) := by
  cases o with
  | none =>
    rw [insert_eq_nothing h]
    exact Or.inl rfl
  | some q =>
    obtain ⟨-, rfl, hnone, -⟩ := insert_eq_ok h
    rw [Table.lookup_insert_eq]
    by_cases hi : i = id
    · rw [if_pos hi, hi, hnone]
      exact Or.inr (Or.inl ⟨rfl, tenantId, operation, idempotencyKey, submittedBy, acl, request, now, rfl⟩)
    · rw [if_neg hi]
      exact Or.inl rfl

/-- every row after one call -/
theorem call_rows {db db' : Db ι ρ} (c : Call ι ρ) (h : c.apply db = some db') (i : ι) :
    Becomes (db.lookup i) (db'.lookup i) := by
  cases c with
  | insert id tenantId operation idempotencyKey submittedBy acl request now =>
    obtain rfl := Option.some.inj h
    cases hres : insert db id (insertRow tenantId operation idempotencyKey submittedBy acl request now) with
    | ok u => exact becomes_insert hres i
    | error e => exact Or.inl rfl
  | recordExtraction id extraction =>
    obtain rfl := Option.some.inj h
    rcases changed_recordExtraction db id extraction with hsame | hc
    · rw [hsame]
      exact Or.inl rfl
    · exact hc.becomes i
  | claimNext env now clock budget picked =>
    obtain rfl := Option.some.inj h
    cases hres : claimNext env now clock budget db picked with
    | some u => exact (changed_claimNext hres).2.becomes i
    | none => exact Or.inl rfl
  | releaseExpired now timeout batch rows => exact becomes_releaseExpired h i
  | finishLanded now id l sourcePath commitSha changeId extraction report =>
    obtain rfl := Option.some.inj h
    cases hres : finishLanded now db id l sourcePath commitSha changeId extraction report with
    | ok u => exact (changed_finishLanded hres).becomes i
    | error e => exact Or.inl rfl
  | failOrRetry now id l category error retryable freshBudget =>
    obtain rfl := Option.some.inj h
    cases hres : failOrRetry now db id l category error retryable freshBudget with
    | ok u =>
      rcases changed_failOrRetry hres with hc | hc
      · exact hc.becomes i
      · exact hc.becomes i
    | error e => exact Or.inl rfl
  | releaseClaim now id t =>
    obtain rfl := Option.some.inj h
    cases hres : releaseClaim now db id t with
    | mk released u =>
      cases released with
      | true => exact (changed_releaseClaim hres).becomes i
      | false =>
        rw [releaseClaim_false hres]
        exact Or.inl rfl
  | retryFailed now id =>
    obtain rfl := Option.some.inj h
    cases hres : retryFailed now db id with
    | ok u => exact (changed_retryFailed hres).becomes i
    | error e => exact Or.inl rfl

/-- every row is as it should be -/
def Sound (db : Db ι ρ) : Prop := ∀ id r, db.lookup id = some r → r.Ok

theorem sound_empty : Sound (∅ : Db ι ρ) := fun _ _ h => nomatch h

theorem Sound.becomes {db db' : Db ι ρ} (hs : Sound db) (h : ∀ i, Becomes (db.lookup i) (db'.lookup i)) :
    Sound db' :=
  fun id => (h id).ok (hs id)

/-- the rows after any calls by any callers -/
theorem sound_calls {cs : List (Call ι ρ)} {db : Db ι ρ}
    (h : Runs.exec Call.apply ∅ cs = some db) : Sound db :=
  Runs.exec_invariant (fun _ c _ hs hc => hs.becomes (call_rows c hc)) sound_empty h

end

end Queue
