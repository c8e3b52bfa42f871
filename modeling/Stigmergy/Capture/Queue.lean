import Stigmergy.Lib.Table
import Stigmergy.Kernel.Runtime

/-!
# The capture queue

The rows of `capture_queue` and the statements of `capture/queue.py` on them.  Every statement is
atomic and reads its own clock, so the clock values are arguments.

* `claimNext`       a due item under a new lease `(attempts, lease_started_at)`;
* `releaseExpired`  the leases a crashed writer left, handed back or failed;
* `holdsLease`, `finishLanded`, `failOrRetry`   the statements fenced by the whole lease;
* `releaseClaim`    the statement fenced by `lease_started_at` alone;
* `retryFailed`     an administrator's retry;
* `insert`, `byIdempotency`   a request queued once under its key;
* `leaseOf`         the lease in force on an item: what every statement does to it is one
                    `leaseOf_*` lemma;
* `Rewrites`        what every statement keeps of the rows there are.
-/

set_option linter.unusedSectionVars false

namespace Queue

def seconds (n : ℕ) : Time := n * 1000000

def DEFAULT_MAX_ATTEMPTS : ℕ := 2
def RETRY_DELAY_S : ℕ := 10
def MAX_SAFE_ERROR_CHARS : ℕ := 1000

inductive Status where
  | queued | processing | landed | failed
deriving DecidableEq, Repr

inductive Operation where
  | capture | delete | entity | garden
deriving DecidableEq, Repr

/-- a row of `capture_queue` without its key; `ρ` is the type of requests -/
structure Row (ρ : Type*) where
  tenantId : Text
  operation : Operation
  idempotencyKey : Text
  submittedBy : Text
  acl : Option (List Text)
  request : ρ
  status : Status
  attempts : ℕ
  nextAttemptAt : Time
  createdAt : Time
  processingStartedAt : Option Time
  budgetDeadlineAt : Option Time
  leaseStartedAt : Option Time
  finishedAt : Option Time
  sourcePath : Text
  commitSha : Text
  changeId : Option Text
  extraction : Text
  report : Text
  errorCategory : Text
  error : Text
deriving DecidableEq

/-- the fence of a claim: `(attempts, lease_started_at)` -/
structure Lease where
  attempts : ℕ
  startedAt : Time
deriving DecidableEq, Repr

/-- what a statement raises: a `QueueStateError` by its message, or the error of a unique index -/
inductive QueueStateError where
  /-- a second row with the id of the first -/
  | uniqueViolation
  /-- "queue item … does not exist" -/
  | missing
  /-- "processing lease was redelivered" -/
  | redelivered
  /-- "queue item is …, not owned by this processor" -/
  | notOwned (status : Status)
  /-- "only a failed item can be retried" -/
  | notFailed
deriving DecidableEq, Repr

/-- the active tenants, and the layers with an open erasure -/
structure Env where
  active : Text → Bool
  closed : Text → Text → Bool

section
variable {ι ρ : Type*} [DecidableEq ι]

abbrev Db (ι ρ : Type*) := AList fun _ : ι => Row ρ

/-- `UPDATE … WHERE id = … AND p RETURNING …` -/
def updateWhere (db : Db ι ρ) (id : ι) (p : Row ρ → Bool) (f : Row ρ → Row ρ) :
    Option (Row ρ × Db ι ρ) :=
  match db.lookup id with
  | some r => if p r then some (f r, db.insert id (f r)) else none
  | none => none

/-- the `WHERE` of the fenced statements -/
def fenced (l : Lease) (r : Row ρ) : Bool :=
  r.status == .processing && r.attempts == l.attempts && r.leaseStartedAt == some l.startedAt

/-- `if row is None: raise …` -/
def orRaise {ε α : Type*} (e : ε) : Option α → Except ε α
  | some a => .ok a
  | none => .error e

/-! ## the statements -/

/-- the row `_INSERT` adds, with the defaults of the table -/
def insertRow (tenantId : Text) (operation : Operation) (idempotencyKey submittedBy : Text)
    (acl : Option (List Text)) (request : ρ) (now : Time) : Row ρ where
  tenantId := tenantId
  operation := operation
  idempotencyKey := idempotencyKey
  submittedBy := submittedBy
  acl := acl
  request := request
  status := .queued
  attempts := 0
  nextAttemptAt := now
  createdAt := now
  processingStartedAt := none
  budgetDeadlineAt := none
  leaseStartedAt := none
  finishedAt := none
  sourcePath := []
  commitSha := []
  changeId := none
  extraction := "{}".toList
  report := "{}".toList
  errorCategory := []
  error := []

/-- `_BY_IDEMPOTENCY`, of the rows the connection's tenant sees -/
def byIdempotency (db : Db ι ρ) (tenantId submittedBy idempotencyKey : Text) :
    Option (ι × Row ρ) :=
  Table.select (fun _ r => r.tenantId == tenantId && r.submittedBy == submittedBy &&
    r.idempotencyKey == idempotencyKey) db

/-- `_INSERT`: nothing on a conflict of tenant, submitter and key, an error on one of the id -/
def insert (db : Db ι ρ) (id : ι) (r : Row ρ) : Except QueueStateError (Option (Row ρ) × Db ι ρ) :=
  match byIdempotency db r.tenantId r.submittedBy r.idempotencyKey with
  | some _ => .ok (none, db)
  | none =>
    if (db.lookup id).isSome then .error .uniqueViolation else .ok (some r, db.insert id r)

/-- the `WHERE` of `_PICK`: what a claim may take at `now` -/
def due (env : Env) (now : Time) (r : Row ρ) : Bool :=
  r.status == .queued && r.nextAttemptAt ≤ now && env.active r.tenantId &&
    !(r.acl.getD []).any (env.closed r.tenantId)

/-- `_CLAIM` on the row `_PICK` locked.  Rows other transactions hold are skipped, so any due row
may be the one picked; `clock` is `clock_timestamp()`. -/
def claimNext (env : Env) (now clock : Time) (operationBudgetS : ℕ) (db : Db ι ρ) (picked : ι) :
    Option (Row ρ × Db ι ρ) :=
  updateWhere db picked (due env now) fun r =>
    { r with
      status := .processing
      processingStartedAt := r.processingStartedAt.orElse fun _ => some clock
      budgetDeadlineAt :=
        r.budgetDeadlineAt.orElse fun _ => some (clock + seconds (max 1 operationBudgetS))
      leaseStartedAt := some clock
      attempts := r.attempts + 1
      errorCategory := []
      error := [] }

/-- `_LEASE_EXPIRED`, with the status `_EXPIRED` asks for -/
def expired (now : Time) (visibilityTimeoutS : ℕ) (r : Row ρ) : Bool :=
  r.status == .processing &&
    r.leaseStartedAt.any fun t => t + seconds visibilityTimeoutS < now

/-- `_REQUEUE_EXPIRED` or `_FAIL_EXPIRED`, by the attempts the row has used -/
def expire (now : Time) (r : Row ρ) : Row ρ :=
  if r.attempts ≤ DEFAULT_MAX_ATTEMPTS then
    { r with
      status := .queued
      leaseStartedAt := none
      nextAttemptAt := now
      errorCategory := "lease_expired".toList
      error := "processing lease expired; queued for commit reconciliation".toList }
  else
    { r with
      status := .failed
      leaseStartedAt := none
      finishedAt := some now
      errorCategory := "lease_expired".toList
      error := "processing lease expired".toList }

/-- `release_expired` on the rows the locking select returned: some of the expired ones, at most
`batch` -/
def releaseExpired (now : Time) (visibilityTimeoutS batch : ℕ) (db : Db ι ρ) (rows : List ι) :
    Option (Db ι ρ) :=
  if rows.length ≤ max 1 batch ∧ ∀ id ∈ rows, (db.lookup id).any (expired now visibilityTimeoutS)
  then some (rows.foldl (fun d id => match d.lookup id with
    | some r => if r.status = .processing then d.insert id (expire now r) else d
    | none => d) db)
  else none

def holdsLease (db : Db ι ρ) (id : ι) (l : Lease) : Bool := (db.lookup id).any (fenced l)

/-- `_raise_lost_lease` -/
def lostLease (db : Db ι ρ) (id : ι) : QueueStateError :=
  match db.lookup id with
  | none => .missing
  | some r => if r.status = .processing then .redelivered else .notOwned r.status

def finishLanded (now : Time) (db : Db ι ρ) (id : ι) (l : Lease) (sourcePath commitSha : Text)
    (changeId : Option Text) (extraction report : Text) :
    Except QueueStateError (Row ρ × Db ι ρ) :=
  orRaise (lostLease db id) <| updateWhere db id (fenced l) fun r =>
    { r with
      status := .landed
      leaseStartedAt := none
      finishedAt := some now
      sourcePath := sourcePath
      commitSha := commitSha
      changeId := changeId
      extraction := extraction
      report := report
      errorCategory := []
      error := [] }

/-- `_safe` -/
def safe (value : Text) (limit : ℕ) : Text := (Text.oneLine value).take limit

def orDefault (t default : Text) : Text := if t.isEmpty then default else t

def failOrRetry (now : Time) (db : Db ι ρ) (id : ι) (l : Lease) (category error : Text)
    (retryable freshBudget : Bool) : Except QueueStateError (Row ρ × Db ι ρ) :=
  let retry := retryable && l.attempts < DEFAULT_MAX_ATTEMPTS
  orRaise (lostLease db id) <| updateWhere db id (fenced l) fun r =>
    { r with
      status := if retry then .queued else .failed
      leaseStartedAt := none
      nextAttemptAt := if retry then now + seconds RETRY_DELAY_S else r.nextAttemptAt
      finishedAt := if retry then none else some now
      budgetDeadlineAt := if retry && freshBudget then none else r.budgetDeadlineAt
      errorCategory := orDefault (safe category 100) "processing_failed".toList
      error := orDefault (safe error MAX_SAFE_ERROR_CHARS) "processing failed".toList }

/-- `release_claim`: the attempts are not compared -/
def releaseClaim (now : Time) (db : Db ι ρ) (id : ι) (leaseStartedAt : Time) : Bool × Db ι ρ :=
  match updateWhere db id
    (fun r => r.status == .processing && r.leaseStartedAt == some leaseStartedAt) fun r =>
    { r with
      status := .queued
      attempts := r.attempts - 1
      nextAttemptAt := now
      processingStartedAt := none
      budgetDeadlineAt := none
      leaseStartedAt := none } with
  | some (_, db') => (true, db')
  | none => (false, db)

def retryFailed (now : Time) (db : Db ι ρ) (id : ι) : Except QueueStateError (Row ρ × Db ι ρ) :=
  orRaise .notFailed <| updateWhere db id (fun r => r.status == .failed) fun r =>
    { r with
      status := .queued
      attempts := 0
      nextAttemptAt := now
      processingStartedAt := none
      budgetDeadlineAt := none
      leaseStartedAt := none
      finishedAt := none
      errorCategory := []
      error := [] }

/-- `record_extraction`: no fence -/
def recordExtraction (db : Db ι ρ) (id : ι) (extraction : Text) : Db ι ρ :=
  match updateWhere db id (fun _ => true) fun r => { r with extraction := extraction } with
  | some (_, db') => db'
  | none => db

theorem orRaise_eq_ok {ε α : Type*} {e : ε} {o : Option α} {a : α} :
    orRaise e o = .ok a ↔ o = some a := by
  cases o with
  | none => exact ⟨nofun, nofun⟩
  | some b => exact ⟨fun h => congrArg some (Except.ok.inj h), fun h => by
      rw [Option.some.inj h]; rfl⟩

/-! ## the lease in force -/

def Row.lease (r : Row ρ) : Option Lease :=
  if r.status = .processing then r.leaseStartedAt.map (Lease.mk r.attempts) else none

/-- the lease in force on an item -/
def leaseOf (db : Db ι ρ) (id : ι) : Option Lease := (db.lookup id).bind Row.lease

theorem fenced_iff {l : Lease} {r : Row ρ} : fenced l r = true ↔ r.lease = some l := by
  unfold fenced Row.lease
  by_cases hs : r.status = .processing
  · rw [if_pos hs, Option.map_eq_some_iff]
    simp only [hs, beq_self_eq_true, Bool.true_and, Bool.and_eq_true, beq_iff_eq]
    constructor
    · rintro ⟨ha, ht⟩
      exact ⟨l.startedAt, ht, by rw [ha]⟩
    · rintro ⟨t, ht, rfl⟩
      exact ⟨rfl, ht⟩
  · rw [if_neg hs]
    simp [hs]

theorem lease_of_status {r : Row ρ} {s : Status} (h : r.status = s) (hs : s ≠ .processing) :
    r.lease = none := if_neg (by rw [h]; exact hs)

theorem leaseOf_insert (db : Db ι ρ) (id k : ι) (r : Row ρ) :
    leaseOf (db.insert id r) k = if k = id then r.lease else leaseOf db k := by
  unfold leaseOf
  rw [Table.lookup_insert_eq]
  by_cases h : k = id
  · rw [if_pos h, if_pos h, Option.bind_some]
  · rw [if_neg h, if_neg h]

theorem leaseOf_of_lookup {db : Db ι ρ} {id : ι} {r : Row ρ} (h : db.lookup id = some r) :
    leaseOf db id = r.lease := by
  unfold leaseOf
  rw [h, Option.bind_some]

/-- an item without a lease may be rewritten to another without a lease -/
theorem leaseOf_insert_same {db : Db ι ρ} {id : ι} {r : Row ρ} (h : r.lease = leaseOf db id) :
    leaseOf (db.insert id r) = leaseOf db := by
  funext k
  rw [leaseOf_insert]
  by_cases hk : k = id
  · rw [if_pos hk, hk, h]
  · rw [if_neg hk]

theorem updateWhere_eq_some {db db' : Db ι ρ} {id : ι} {p : Row ρ → Bool} {f : Row ρ → Row ρ}
    {r' : Row ρ} : updateWhere db id p f = some (r', db') ↔
      ∃ r, db.lookup id = some r ∧ p r = true ∧ r' = f r ∧ db' = db.insert id (f r) := by
  unfold updateWhere
  cases hr : db.lookup id with
  | none => simp
  | some r =>
    by_cases hp : p r = true
    · simp only [hp, if_true, Option.some.injEq, Prod.mk.injEq]
      constructor
      · rintro ⟨rfl, rfl⟩
        exact ⟨r, rfl, hp, rfl, rfl⟩
      · rintro ⟨q, rfl, -, rfl, rfl⟩
        exact ⟨rfl, rfl⟩
    · simp [hp]

/-- the update of a row under the lease `l`, which ends it -/
theorem leaseOf_updateWhere {db db' : Db ι ρ} {id : ι} {l : Lease} {f : Row ρ → Row ρ} {r' : Row ρ}
    (hf : ∀ r : Row ρ, (f r).lease = none) (h : updateWhere db id (fenced l) f = some (r', db')) :
    leaseOf db id = some l ∧ ∀ k, leaseOf db' k = if k = id then none else leaseOf db k := by
  obtain ⟨r, hr, hl, rfl, rfl⟩ := updateWhere_eq_some.mp h
  refine ⟨by rw [leaseOf_of_lookup hr, fenced_iff.mp hl], fun k => ?_⟩
  rw [leaseOf_insert, hf r]

theorem holdsLease_iff {db : Db ι ρ} {id : ι} {l : Lease} :
    holdsLease db id l = true ↔ leaseOf db id = some l := by
  unfold holdsLease leaseOf
  cases db.lookup id with
  | none => simp
  | some r => rw [Option.any_some, Option.bind_some, fenced_iff]

/-- a claim puts a new lease on an item that has none -/
theorem leaseOf_claimNext {env : Env} {now clock : Time} {budget : ℕ} {db db' : Db ι ρ} {id : ι}
    {r : Row ρ} (h : claimNext env now clock budget db id = some (r, db')) :
    leaseOf db id = none ∧
      ∀ k, leaseOf db' k = if k = id then some ⟨r.attempts, clock⟩ else leaseOf db k := by
  obtain ⟨q, hq, hdue, rfl, rfl⟩ := updateWhere_eq_some.mp h
  have hs : q.status = .queued := by
    unfold due at hdue
    simp only [Bool.and_eq_true, beq_iff_eq] at hdue
    exact hdue.1.1.1
  refine ⟨?_, fun k => ?_⟩
  · rw [leaseOf_of_lookup hq]
    exact lease_of_status hs nofun
  · rw [leaseOf_insert]
    rfl

theorem leaseOf_finishLanded {now : Time} {db db' : Db ι ρ} {id : ι} {l : Lease}
    {sourcePath commitSha : Text} {changeId : Option Text} {extraction report : Text} {r : Row ρ}
    (h : finishLanded now db id l sourcePath commitSha changeId extraction report = .ok (r, db')) :
    leaseOf db id = some l ∧ ∀ k, leaseOf db' k = if k = id then none else leaseOf db k := by
  exact leaseOf_updateWhere (fun _ => lease_of_status (s := .landed) rfl nofun)
    (orRaise_eq_ok.mp h)

theorem leaseOf_failOrRetry {now : Time} {db db' : Db ι ρ} {id : ι} {l : Lease}
    {category error : Text} {retryable freshBudget : Bool} {r : Row ρ}
    (h : failOrRetry now db id l category error retryable freshBudget = .ok (r, db')) :
    leaseOf db id = some l ∧ ∀ k, leaseOf db' k = if k = id then none else leaseOf db k := by
  refine leaseOf_updateWhere (fun _ => lease_of_status rfl ?_) (orRaise_eq_ok.mp h)
  split <;> exact nofun

theorem leaseOf_releaseClaim {now t : Time} {db db' : Db ι ρ} {id : ι}
    (h : releaseClaim now db id t = (true, db')) :
    (∃ a, leaseOf db id = some ⟨a, t⟩) ∧
      ∀ k, leaseOf db' k = if k = id then none else leaseOf db k := by
  unfold releaseClaim at h
  split at h
  · rename_i r' u hu
    obtain ⟨-, rfl⟩ := Prod.mk.inj h
    obtain ⟨r, hr, hp, -, rfl⟩ := updateWhere_eq_some.mp hu
    rw [Bool.and_eq_true, beq_iff_eq, beq_iff_eq] at hp
    refine ⟨⟨r.attempts, ?_⟩, fun k => ?_⟩
    · rw [leaseOf_of_lookup hr]
      unfold Row.lease
      rw [if_pos hp.1, hp.2, Option.map_some]
    · rw [leaseOf_insert, lease_of_status (s := .queued) rfl nofun]
  · exact Bool.noConfusion (Prod.mk.inj h).1

theorem releaseClaim_false {now t : Time} {db db' : Db ι ρ} {id : ι}
    (h : releaseClaim now db id t = (false, db')) : db' = db := by
  unfold releaseClaim at h
  split at h
  · exact Bool.noConfusion (Prod.mk.inj h).1
  · exact (Prod.mk.inj h).2.symm

theorem leaseOf_retryFailed {now : Time} {db db' : Db ι ρ} {id : ι} {r : Row ρ}
    (h : retryFailed now db id = .ok (r, db')) : leaseOf db' = leaseOf db := by
  obtain ⟨q, hq, hs, -, rfl⟩ := updateWhere_eq_some.mp (orRaise_eq_ok.mp h)
  have hfailed : q.status = .failed := beq_iff_eq.mp hs
  apply leaseOf_insert_same
  rw [leaseOf_of_lookup hq, lease_of_status hfailed nofun]
  exact lease_of_status (s := .queued) rfl nofun

theorem leaseOf_recordExtraction (db : Db ι ρ) (id : ι) (extraction : Text) :
    leaseOf (recordExtraction db id extraction) = leaseOf db := by
  unfold recordExtraction
  split
  · rename_i r' db' hu
    obtain ⟨q, hq, -, -, rfl⟩ := updateWhere_eq_some.mp hu
    exact leaseOf_insert_same (leaseOf_of_lookup hq).symm
  · rfl

theorem expire_status (now : Time) (r : Row ρ) :
    (expire now r).status = if r.attempts ≤ DEFAULT_MAX_ATTEMPTS then .queued else .failed := by
  unfold expire
  split <;> rfl

/-- one row of `release_expired` -/
theorem leaseOf_expire (db : Db ι ρ) (now : Time) (id k : ι) :
    leaseOf (match db.lookup id with
      | some r => if r.status = .processing then db.insert id (expire now r) else db
      | none => db) k = if k = id then none else leaseOf db k := by
  cases hr : db.lookup id with
  | none =>
    by_cases hk : k = id
    · rw [if_pos hk, hk]
      show (db.lookup id).bind Row.lease = none
      rw [hr, Option.bind_none]
    · rw [if_neg hk]
  | some r =>
    by_cases hs : r.status = .processing
    · simp only [if_pos hs]
      rw [leaseOf_insert, lease_of_status (expire_status now r)]
      split <;> exact nofun
    · simp only [if_neg hs]
      by_cases hk : k = id
      · rw [if_pos hk, hk, leaseOf_of_lookup hr, lease_of_status rfl hs]
      · rw [if_neg hk]

theorem leaseOf_releaseExpired {now : Time} {timeout batch : ℕ} {db db' : Db ι ρ} {rows : List ι}
    (h : releaseExpired now timeout batch db rows = some db') (k : ι) :
    leaseOf db' k = if k ∈ rows then none else leaseOf db k := by
  unfold releaseExpired at h
  split at h
  · obtain rfl := Option.some.inj h
    clear h
    rename_i hcond
    clear hcond
    induction rows generalizing db with
    | nil => simp
    | cons id rows ih =>
      rw [List.foldl_cons, ih, leaseOf_expire]
      by_cases hk : k ∈ rows
      · rw [if_pos hk, if_pos (List.mem_cons_of_mem id hk)]
      · rw [if_neg hk]
        by_cases hid : k = id
        · rw [if_pos hid, if_pos (by rw [hid]; exact List.mem_cons_self)]
        · rw [if_neg hid, if_neg (by simp [hid, hk])]
  · exact nomatch h

/-! ## what the statements keep of a row -/

/-- what a row keeps for good: whose request it is, the request, and that it landed -/
structure Row.Onward (r r' : Row ρ) : Prop where
  tenantId : r'.tenantId = r.tenantId
  operation : r'.operation = r.operation
  idempotencyKey : r'.idempotencyKey = r.idempotencyKey
  submittedBy : r'.submittedBy = r.submittedBy
  acl : r'.acl = r.acl
  request : r'.request = r.request
  landed : r.status = .landed → r'.status = .landed

theorem Row.Onward.refl (r : Row ρ) : r.Onward r := ⟨rfl, rfl, rfl, rfl, rfl, rfl, id⟩

theorem Row.Onward.trans {a b c : Row ρ} (h : a.Onward b) (h' : b.Onward c) : a.Onward c where
  tenantId := h'.tenantId.trans h.tenantId
  operation := h'.operation.trans h.operation
  idempotencyKey := h'.idempotencyKey.trans h.idempotencyKey
  submittedBy := h'.submittedBy.trans h.submittedBy
  acl := h'.acl.trans h.acl
  request := h'.request.trans h.request
  landed := fun hl => h'.landed (h.landed hl)

/-- a row that has not landed, rewritten in its other columns -/
theorem Row.Onward.of_not_landed {r r' : Row ρ} (ht : r'.tenantId = r.tenantId)
    (ho : r'.operation = r.operation) (hk : r'.idempotencyKey = r.idempotencyKey)
    (hs : r'.submittedBy = r.submittedBy) (ha : r'.acl = r.acl) (hr : r'.request = r.request)
    (hl : r.status ≠ .landed) : r.Onward r' :=
  ⟨ht, ho, hk, hs, ha, hr, fun h => absurd h hl⟩

/-- the same rows, each onward -/
def Rewrites (db db' : Db ι ρ) : Prop := ∀ id, Option.Rel Row.Onward (db.lookup id) (db'.lookup id)

/-- the rows there were are there, each onward -/
def Onward (db db' : Db ι ρ) : Prop :=
  ∀ id r, db.lookup id = some r → ∃ r', db'.lookup id = some r' ∧ r.Onward r'

theorem Onward.refl (db : Db ι ρ) : Onward db db := fun _ r h => ⟨r, h, Row.Onward.refl r⟩

theorem Onward.trans {a b c : Db ι ρ} (h : Onward a b) (h' : Onward b c) : Onward a c := by
  intro id r hr
  obtain ⟨q, hq, hrq⟩ := h id r hr
  obtain ⟨s, hs, hqs⟩ := h' id q hq
  exact ⟨s, hs, hrq.trans hqs⟩

theorem Rewrites.refl (db : Db ι ρ) : Rewrites db db := by
  intro id
  cases db.lookup id with
  | none => exact Option.Rel.none
  | some r => exact Option.Rel.some (Row.Onward.refl r)

theorem Rewrites.onward {db db' : Db ι ρ} (h : Rewrites db db') : Onward db db' := by
  intro id r hr
  have hid := h id
  rw [hr] at hid
  cases hr' : db'.lookup id with
  | none => rw [hr'] at hid; exact nomatch hid
  | some r' =>
    rw [hr'] at hid
    cases hid with
    | some hrr => exact ⟨r', rfl, hrr⟩

/-- the row a row of the rewritten table comes from -/
theorem Rewrites.source {db db' : Db ι ρ} (h : Rewrites db db') {id : ι} {r' : Row ρ}
    (hr' : db'.lookup id = some r') : ∃ r, db.lookup id = some r ∧ r.Onward r' := by
  have hid := h id
  rw [hr'] at hid
  cases hr : db.lookup id with
  | none => rw [hr] at hid; exact nomatch hid
  | some r =>
    rw [hr] at hid
    cases hid with
    | some hrr => exact ⟨r, rfl, hrr⟩

theorem Rewrites.trans {a b c : Db ι ρ} (h : Rewrites a b) (h' : Rewrites b c) : Rewrites a c := by
  intro id
  cases hc : c.lookup id with
  | some r =>
    obtain ⟨q, hq, hqr⟩ := h'.source hc
    obtain ⟨p, hp, hpq⟩ := h.source hq
    rw [hp]
    exact Option.Rel.some (hpq.trans hqr)
  | none =>
    cases ha : a.lookup id with
    | none => exact Option.Rel.none
    | some r =>
      obtain ⟨r', hr', -⟩ := (h.onward.trans h'.onward) id r ha
      rw [hc] at hr'
      exact nomatch hr'

theorem rewrites_insert {db : Db ι ρ} {id : ι} {r r' : Row ρ} (hr : db.lookup id = some r)
    (h : r.Onward r') : Rewrites db (db.insert id r') := by
  intro k
  rw [Table.lookup_insert_eq]
  by_cases hk : k = id
  · rw [if_pos hk, hk, hr]
    exact Option.Rel.some h
  · rw [if_neg hk]
    exact Rewrites.refl db k

theorem rewrites_updateWhere {db db' : Db ι ρ} {id : ι} {p : Row ρ → Bool} {f : Row ρ → Row ρ}
    {r' : Row ρ} (hp : ∀ r, p r = true → r.Onward (f r))
    (h : updateWhere db id p f = some (r', db')) : Rewrites db db' := by
  obtain ⟨r, hr, hpr, -, rfl⟩ := updateWhere_eq_some.mp h
  exact rewrites_insert hr (hp r hpr)

theorem not_landed_of_fenced {l : Lease} {r : Row ρ} (h : fenced l r = true) :
    r.status ≠ .landed := by
  intro hs
  have hl := fenced_iff.mp h
  rw [lease_of_status hs nofun] at hl
  exact nomatch hl

theorem rewrites_claimNext {env : Env} {now clock : Time} {budget : ℕ} {db db' : Db ι ρ} {id : ι}
    {r : Row ρ} (h : claimNext env now clock budget db id = some (r, db')) : Rewrites db db' := by
  refine rewrites_updateWhere (fun q hq => ?_) h
  refine Row.Onward.of_not_landed rfl rfl rfl rfl rfl rfl fun hs => ?_
  unfold due at hq
  rw [hs] at hq
  exact Bool.noConfusion hq

theorem rewrites_finishLanded {now : Time} {db db' : Db ι ρ} {id : ι} {l : Lease}
    {sourcePath commitSha : Text} {changeId : Option Text} {extraction report : Text} {r : Row ρ}
    (h : finishLanded now db id l sourcePath commitSha changeId extraction report = .ok (r, db')) :
    Rewrites db db' := by
  refine rewrites_updateWhere (fun q hq => ?_) (orRaise_eq_ok.mp h)
  exact Row.Onward.of_not_landed rfl rfl rfl rfl rfl rfl (not_landed_of_fenced hq)

theorem rewrites_failOrRetry {now : Time} {db db' : Db ι ρ} {id : ι} {l : Lease}
    {category error : Text} {retryable freshBudget : Bool} {r : Row ρ}
    (h : failOrRetry now db id l category error retryable freshBudget = .ok (r, db')) :
    Rewrites db db' := by
  refine rewrites_updateWhere (fun q hq => ?_) (orRaise_eq_ok.mp h)
  exact Row.Onward.of_not_landed rfl rfl rfl rfl rfl rfl (not_landed_of_fenced hq)

theorem rewrites_releaseClaim (now t : Time) (db : Db ι ρ) (id : ι) :
    Rewrites db (releaseClaim now db id t).2 := by
  unfold releaseClaim
  split
  · rename_i r' u hu
    refine rewrites_updateWhere (fun q hq => ?_) hu
    refine Row.Onward.of_not_landed rfl rfl rfl rfl rfl rfl fun hs => ?_
    rw [hs] at hq
    exact Bool.noConfusion hq
  · exact Rewrites.refl db

theorem rewrites_retryFailed {now : Time} {db db' : Db ι ρ} {id : ι} {r : Row ρ}
    (h : retryFailed now db id = .ok (r, db')) : Rewrites db db' := by
  refine rewrites_updateWhere (fun q hq => ?_) (orRaise_eq_ok.mp h)
  refine Row.Onward.of_not_landed rfl rfl rfl rfl rfl rfl fun hs => ?_
  rw [hs] at hq
  exact Bool.noConfusion hq

theorem rewrites_recordExtraction (db : Db ι ρ) (id : ι) (extraction : Text) :
    Rewrites db (recordExtraction db id extraction) := by
  unfold recordExtraction
  split
  · rename_i r' db' hu
    refine rewrites_updateWhere (fun q _ => ?_) hu
    exact ⟨rfl, rfl, rfl, rfl, rfl, rfl, fun hs => hs⟩
  · exact Rewrites.refl db

theorem onward_expire {now : Time} {r : Row ρ} (h : r.status ≠ .landed) :
    r.Onward (expire now r) := by
  unfold expire
  split <;> exact Row.Onward.of_not_landed rfl rfl rfl rfl rfl rfl h

theorem rewrites_releaseExpired {now : Time} {timeout batch : ℕ} {db db' : Db ι ρ}
    {rows : List ι} (h : releaseExpired now timeout batch db rows = some db') :
    Rewrites db db' := by
  unfold releaseExpired at h
  split at h
  · obtain rfl := Option.some.inj h
    clear h
    rename_i hcond
    clear hcond
    induction rows generalizing db with
    | nil => exact Rewrites.refl db
    | cons id rows ih =>
      rw [List.foldl_cons]
      refine Rewrites.trans ?_ ih
      cases hr : db.lookup id with
      | none => exact Rewrites.refl db
      | some r =>
        by_cases hs : r.status = .processing
        · simp only [if_pos hs]
          exact rewrites_insert hr (onward_expire (by rw [hs]; exact nofun))
        · simp only [if_neg hs]
          exact Rewrites.refl db
  · exact nomatch h

/-! ## one row a key -/

/-- no two rows share tenant, submitter and key -/
def Keyed (db : Db ι ρ) : Prop :=
  ∀ id k r q, db.lookup id = some r → db.lookup k = some q → q.tenantId = r.tenantId →
    q.submittedBy = r.submittedBy → q.idempotencyKey = r.idempotencyKey → k = id

theorem keyed_empty : Keyed (∅ : Db ι ρ) := fun _ _ _ _ h => nomatch h

theorem Keyed.rewrites {db db' : Db ι ρ} (hk : Keyed db) (h : Rewrites db db') : Keyed db' := by
  intro id k r q hr hq ht hs hi
  obtain ⟨r₀, hr₀, hr₀r⟩ := h.source hr
  obtain ⟨q₀, hq₀, hq₀q⟩ := h.source hq
  refine hk id k r₀ q₀ hr₀ hq₀ ?_ ?_ ?_
  · rw [← hq₀q.tenantId, ht, hr₀r.tenantId]
  · rw [← hq₀q.submittedBy, hs, hr₀r.submittedBy]
  · rw [← hq₀q.idempotencyKey, hi, hr₀r.idempotencyKey]

/-- the table before has one row a key when the one after has -/
theorem Keyed.of_onward {db db' : Db ι ρ} (hk : Keyed db') (h : Onward db db') : Keyed db := by
  intro id k r q hr hq ht hs hi
  obtain ⟨r', hr', hrr⟩ := h id r hr
  obtain ⟨q', hq', hqq⟩ := h k q hq
  refine hk id k r' q' hr' hq' ?_ ?_ ?_
  · rw [hqq.tenantId, ht, hrr.tenantId]
  · rw [hqq.submittedBy, hs, hrr.submittedBy]
  · rw [hqq.idempotencyKey, hi, hrr.idempotencyKey]

theorem byIdempotency_eq_some {db : Db ι ρ} {tenantId submittedBy key : Text} {id : ι} {r : Row ρ}
    (h : byIdempotency db tenantId submittedBy key = some (id, r)) :
    db.lookup id = some r ∧ r.tenantId = tenantId ∧ r.submittedBy = submittedBy ∧
      r.idempotencyKey = key := by
  obtain ⟨hr, hp⟩ := Table.select_eq_some h
  simp only [Bool.and_eq_true, beq_iff_eq] at hp
  exact ⟨hr, hp.1.1, hp.1.2, hp.2⟩

theorem byIdempotency_eq_none {db : Db ι ρ} {tenantId submittedBy key : Text}
    (h : byIdempotency db tenantId submittedBy key = none) {id : ι} {r : Row ρ}
    (hr : db.lookup id = some r) (ht : r.tenantId = tenantId) (hs : r.submittedBy = submittedBy) :
    r.idempotencyKey ≠ key := by
  intro hi
  have hp := Table.select_eq_none h hr
  rw [ht, hs, hi] at hp
  simp at hp

/-- the row with a key is the one found by it -/
theorem byIdempotency_of_lookup {db : Db ι ρ} (hk : Keyed db) {id : ι} {r : Row ρ}
    (hr : db.lookup id = some r) :
    byIdempotency db r.tenantId r.submittedBy r.idempotencyKey = some (id, r) := by
  cases h : byIdempotency db r.tenantId r.submittedBy r.idempotencyKey with
  | none => exact absurd rfl (byIdempotency_eq_none h hr rfl rfl)
  | some found =>
    obtain ⟨k, q⟩ := found
    obtain ⟨hq, ht, hs, hi⟩ := byIdempotency_eq_some h
    obtain rfl := hk id k r q hr hq ht hs hi
    rw [Option.some.inj (hr.symm.trans hq)]

/-- what an `INSERT` that returns a row did -/
theorem insert_eq_ok {db db' : Db ι ρ} {id : ι} {r q : Row ρ}
    (h : insert db id r = .ok (some q, db')) :
    q = r ∧ db' = db.insert id r ∧ db.lookup id = none ∧
      byIdempotency db r.tenantId r.submittedBy r.idempotencyKey = none := by
  unfold insert at h
  split at h
  · exact nomatch h
  · rename_i hnone
    split at h
    · exact nomatch h
    · rename_i hid
      obtain ⟨hq, hdb⟩ := Prod.mk.inj (Except.ok.inj h)
      exact ⟨(Option.some.inj hq).symm, hdb.symm, by simpa using hid, hnone⟩

/-- an `INSERT` that returns no row did nothing -/
theorem insert_eq_nothing {db db' : Db ι ρ} {id : ι} {r : Row ρ}
    (h : insert db id r = .ok (none, db')) : db' = db := by
  unfold insert at h
  split at h
  · exact (Prod.mk.inj (Except.ok.inj h)).2.symm
  · split at h <;> exact nomatch h

/-- an `INSERT` of a row without a lease -/
theorem leaseOf_insert_of_queued {db db' : Db ι ρ} {id : ι} {r : Row ρ} {o : Option (Row ρ)}
    (hr : r.status = .queued) (h : insert db id r = .ok (o, db')) : leaseOf db' = leaseOf db := by
  cases o with
  | none => rw [insert_eq_nothing h]
  | some q =>
    obtain ⟨-, rfl, hid, -⟩ := insert_eq_ok h
    apply leaseOf_insert_same
    unfold leaseOf
    rw [hid, Option.bind_none]
    exact lease_of_status hr nofun

theorem onward_insert {db db' : Db ι ρ} {id : ι} {r : Row ρ} {o : Option (Row ρ)}
    (h : insert db id r = .ok (o, db')) : Onward db db' := by
  cases o with
  | none =>
    rw [insert_eq_nothing h]
    exact Onward.refl db
  | some p =>
    obtain ⟨-, rfl, hid, -⟩ := insert_eq_ok h
    intro k q hq
    refine ⟨q, ?_, Row.Onward.refl q⟩
    rw [Table.lookup_insert_eq, if_neg, hq]
    rintro rfl
    rw [hid] at hq
    exact nomatch hq

theorem Keyed.insert_free {db : Db ι ρ} (hk : Keyed db) {id : ι} {r : Row ρ}
    (h : byIdempotency db r.tenantId r.submittedBy r.idempotencyKey = none) :
    Keyed (db.insert id r) := by
  have hfree : ∀ k q, db.lookup k = some q → q.tenantId = r.tenantId →
      q.submittedBy = r.submittedBy → q.idempotencyKey ≠ r.idempotencyKey :=
    fun k q hq => byIdempotency_eq_none h hq
  intro a b p q hp hq ht hs hi
  rw [Table.lookup_insert_eq] at hp hq
  split at hp
  · rename_i ha
    obtain rfl := Option.some.inj hp
    split at hq
    · rename_i hb
      rw [ha, hb]
    · exact absurd hi (hfree b q hq ht hs)
  · split at hq
    · obtain rfl := Option.some.inj hq
      exact absurd hi.symm (hfree a p hp ht.symm hs.symm)
    · exact hk a b p q hp hq ht hs hi

theorem Keyed.insert {db db' : Db ι ρ} (hk : Keyed db) {id : ι} {r : Row ρ} {o : Option (Row ρ)}
    (h : Queue.insert db id r = .ok (o, db')) : Keyed db' := by
  cases o with
  | none =>
    rw [insert_eq_nothing h]
    exact hk
  | some p =>
    obtain ⟨-, rfl, -, hnone⟩ := insert_eq_ok h
    exact hk.insert_free hnone


end

end Queue
