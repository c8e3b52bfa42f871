import Mathlib.Logic.Function.Basic
import Stigmergy.Lib.Runs
import Stigmergy.Capture.Queue

/-!
# Writers at the queue

Any number of writer processes serve the queue: `process_next` of `librarian/worker.py` with
`_process_with_lock`, `_recover` and `_commit_and_record` of `knowledge/writer.py`, cut where another
process can come between.  The state keeps the rows, the holder of the advisory lock, where each
process is, and the commits of the branch, newest first.

* `step`             one action of one process, of an administrator or of the environment;
* `leasedCall`       the call an action makes under a lease, and whether it succeeds;
* `Inv`, `inv_step`  what holds between the rows, the leases in memory and the history;
* `fenced_queue`     over every run: a call under a lease succeeds only while that lease is in force,
                     an item is published at most once and then recovered, and landed items stay so.

The environment is taken as stated: a statement is atomic, the clock of a claim is one no earlier
claim of the item had (`stamps`), a process holds the lock until it leaves the phase or stops, and the
base of a filing is the tip of the branch when it is read.
-/

set_option linter.unusedSectionVars false

namespace Writers

open Queue

/-- a claimed item in the memory of a process -/
structure Job (ι : Type*) where
  id : ι
  operation : Operation
  lease : Lease

/-- a commit of the branch and the operation its trailer names -/
structure Commit (ι : Type*) where
  sha : Text
  operation : Option ι
deriving DecidableEq

/-- what a `WriteResult` holds besides the commit -/
structure Details where
  changeId : Option Text
  sourcePath : Text
  extraction : Text
  report : Text

structure WriteResult where
  commitSha : Text
  details : Details

/-- the ways out of `process` other than a result -/
inductive Fault where
  /-- any exception `fail_or_retry` records -/
  | error (category text : Text) (retryable freshBudget : Bool)
  /-- `WriterShutdown` -/
  | shutdown
  /-- `LeaseAbort` or `QueueStateError` -/
  | abort

def writerBusy : Fault :=
  .error "WriterBusy".toList "knowledge processing failed (WriterBusy)".toList true false

/-- "recovery-only lease found no landed commit" -/
def writerDeadline : Fault :=
  .error "WriterDeadline".toList "knowledge processing failed (WriterDeadline)".toList false false

/-- where a process is -/
inductive Phase (ι : Type*) where
  | idle
  /-- inside `_release_expired_if_writer_idle`, before and after the statement -/
  | sweeping
  | swept
  | ready
  | claimed (j : Job ι)
  | locked (j : Job ι)
  | based (j : Job ι) (base : List (Commit ι))
  | filing (j : Job ι) (base : List (Commit ι))
  /-- `holds_lease` has answered yes -/
  | cleared (j : Job ι) (base : List (Commit ι))
  | published (j : Job ι) (c : Commit ι)
  | returned (j : Job ι) (r : WriteResult)
  | finishing (j : Job ι) (r : WriteResult)
  | handling (j : Job ι) (f : Fault)

namespace Phase
variable {ι : Type*}

def job : Phase ι → Option (Job ι)
  | idle | sweeping | swept | ready => none
  | claimed j | locked j | based j _ | filing j _ | cleared j _ | published j _ | returned j _
  | finishing j _ | handling j _ => some j

/-- the phases inside `try_advisory_lock` -/
def locks : Phase ι → Bool
  | sweeping | swept | locked _ | based _ _ | filing _ _ | cleared _ _ | published _ _
  | returned _ _ => true
  | idle | ready | claimed _ | finishing _ _ | handling _ _ => false

end Phase

section
variable (ι π ρ : Type*)

structure World where
  db : Db ι ρ
  env : Env
  lock : Option π
  phase : π → Phase ι
  log : List (Commit ι)
  stamps : ι → List Time

inductive Action where
  | enqueue (id : ι) (tenantId : Text) (operation : Operation) (idempotencyKey submittedBy : Text)
      (acl : Option (List Text)) (request : ρ) (now : Time)
  | retry (id : ι) (now : Time)
  | environment (env : Env)
  /-- a commit no writer made -/
  | foreign (sha : Text)
  | trySweep (p : π)
  | sweep (p : π) (now : Time) (visibilityTimeoutS batch : ℕ) (rows : List ι)
  | endSweep (p : π)
  | claim (p : π) (id : ι) (now clock : Time) (operationBudgetS : ℕ)
  | noClaim (p : π)
  | tryLock (p : π)
  | readBase (p : π)
  | reconcile (p : π) (d : Details)
  | extract (p : π) (extraction : Text)
  | clear (p : π)
  | publish (p : π) (sha : Text)
  | noChange (p : π) (d : Details)
  | record (p : π) (d : Details)
  | unlock (p : π)
  | finish (p : π) (now : Time)
  | raise (p : π) (f : Fault)
  | handle (p : π) (now : Time)
  | crash (p : π)

end

section
variable {ι π ρ : Type*} [DecidableEq ι] [DecidableEq π]

/-- `git log --grep` for the trailer of an item, newest first -/
def recover (log : List (Commit ι)) (id : ι) : Option (Commit ι) :=
  log.find? fun c => c.operation == some id

/-- the process `p` goes on to `ph`; it keeps the lock only inside its block -/
def World.move (w : World ι π ρ) (db : Db ι ρ) (p : π) (ph : Phase ι) : World ι π ρ :=
  { w with
    db := db
    phase := Function.update w.phase p ph
    lock := if ph.locks then some p else if w.lock = some p then none else w.lock }

def init (env : Env) : World ι π ρ where
  db := ∅
  env := env
  lock := none
  phase := fun _ => .idle
  log := []
  stamps := fun _ => []

/-- the two `except` clauses that write, and the two that do not -/
def handleFault (now : Time) (db : Db ι ρ) (j : Job ι) : Fault → Db ι ρ
  | .error category text retryable freshBudget =>
    match failOrRetry now db j.id j.lease category text retryable (retryable && freshBudget) with
    | .ok (_, db') => db'
    | .error _ => db
  | .shutdown => (releaseClaim now db j.id j.lease.startedAt).2
  | .abort => db

def step (w : World ι π ρ) : Action ι π ρ → Option (World ι π ρ)
  | .enqueue id tenantId operation idempotencyKey submittedBy acl request now =>
    match insert w.db id
        (insertRow tenantId operation idempotencyKey submittedBy acl request now) with
    | .ok (_, db') => some { w with db := db' }
    | .error _ => some w
  | .retry id now =>
    match retryFailed now w.db id with
    | .ok (_, db') => some { w with db := db' }
    | .error _ => some w
  | .environment env => some { w with env := env }
  | .foreign sha => some { w with log := ⟨sha, none⟩ :: w.log }
  | .trySweep p =>
    match w.phase p with
    | .idle => some (w.move w.db p (if w.lock = none then .sweeping else .ready))
    | _ => none
  | .sweep p now visibilityTimeoutS batch rows =>
    match w.phase p with
    | .sweeping => (releaseExpired now visibilityTimeoutS batch w.db rows).map (w.move · p .swept)
    | _ => none
  | .endSweep p =>
    match w.phase p with
    | .swept => some (w.move w.db p .ready)
    | _ => none
  | .claim p id now clock operationBudgetS =>
    match w.phase p with
    | .ready =>
      if clock ∈ w.stamps id then none
      else (claimNext w.env now clock operationBudgetS w.db id).map fun c =>
        { (w.move c.2 p (.claimed ⟨id, c.1.operation, ⟨c.1.attempts, clock⟩⟩)) with
          stamps := Function.update w.stamps id (clock :: w.stamps id) }
    | _ => none
  | .noClaim p =>
    match w.phase p with
    | .ready => some (w.move w.db p .idle)
    | _ => none
  | .tryLock p =>
    match w.phase p with
    | .claimed j =>
      some (w.move w.db p (if w.lock = none then .locked j else .handling j writerBusy))
    | _ => none
  | .readBase p =>
    match w.phase p with
    | .locked j => some (w.move w.db p (.based j w.log))
    | _ => none
  | .reconcile p d =>
    match w.phase p with
    | .based j base =>
      some (w.move w.db p (match recover base j.id with
        | some c => .returned j ⟨c.sha, d⟩
        | none =>
          if DEFAULT_MAX_ATTEMPTS < j.lease.attempts then .handling j writerDeadline
          else .filing j base))
    | _ => none
  | .extract p extraction =>
    match w.phase p with
    | .filing j base => some (w.move (recordExtraction w.db j.id extraction) p (.filing j base))
    | _ => none
  | .clear p =>
    match w.phase p with
    | .filing j base =>
      -- "processing lease was redelivered before publication"
      some (w.move w.db p
        (if holdsLease w.db j.id j.lease then .cleared j base else .handling j .abort))
    | _ => none
  | .publish p sha =>
    match w.phase p with
    | .cleared j base =>
      -- the branch moves only from the base the commit was made on
      if base = w.log then
        some { (w.move w.db p (.published j ⟨sha, some j.id⟩)) with
          log := ⟨sha, some j.id⟩ :: w.log }
      else none
    | _ => none
  | .noChange p d =>
    match w.phase p with
    | .filing j _ =>
      if j.operation = .garden then some (w.move w.db p (.returned j ⟨[], d⟩)) else none
    | _ => none
  | .record p d =>
    match w.phase p with
    | .published j c => some (w.move w.db p (.returned j ⟨c.sha, d⟩))
    | _ => none
  | .unlock p =>
    match w.phase p with
    | .returned j r => some (w.move w.db p (.finishing j r))
    | _ => none
  | .finish p now =>
    match w.phase p with
    | .finishing j r =>
      some (w.move (match finishLanded now w.db j.id j.lease r.details.sourcePath r.commitSha
          r.details.changeId r.details.extraction r.details.report with
        | .ok (_, db') => db'
        | .error _ => w.db) p .idle)
    | _ => none
  | .raise p f =>
    match w.phase p with
    | .handling _ _ => none
    | ph => ph.job.map fun j => w.move w.db p (.handling j f)
  | .handle p now =>
    match w.phase p with
    | .handling j f => some (w.move (handleFault now w.db j f) p .idle)
    | _ => none
  | .crash p => some (w.move w.db p .idle)

/-- the item, the lease and the outcome of the call an action makes under a lease -/
def leasedCall (w : World ι π ρ) : Action ι π ρ → Option (ι × Lease × Bool)
  | .clear p =>
    match w.phase p with
    | .filing j _ => some (j.id, j.lease, holdsLease w.db j.id j.lease)
    | _ => none
  | .publish p _ =>
    match w.phase p with
    | .cleared j base => some (j.id, j.lease, decide (base = w.log))
    | _ => none
  | .finish p now =>
    match w.phase p with
    | .finishing j r => some (j.id, j.lease,
        (finishLanded now w.db j.id j.lease r.details.sourcePath r.commitSha r.details.changeId
          r.details.extraction r.details.report).isOk)
    | _ => none
  | .handle p now =>
    match w.phase p with
    | .handling j (.error category text retryable freshBudget) => some (j.id, j.lease,
        (failOrRetry now w.db j.id j.lease category text retryable (retryable && freshBudget)).isOk)
    | .handling j .shutdown => some (j.id, j.lease, (releaseClaim now w.db j.id j.lease.startedAt).1)
    | _ => none
  | _ => none

/-! ## the history of an item -/

def commitsOf (log : List (Commit ι)) (id : ι) : List (Commit ι) :=
  log.filter fun c => c.operation == some id

theorem recover_eq_none {log : List (Commit ι)} {id : ι} :
    recover log id = none ↔ commitsOf log id = [] := by
  unfold recover commitsOf
  rw [List.find?_eq_none, List.filter_eq_nil_iff]

theorem recover_foreign (log : List (Commit ι)) (sha : Text) (id : ι) :
    recover (⟨sha, none⟩ :: log) id = recover log id := by
  unfold recover
  rw [List.find?_cons_of_neg (by simp)]

theorem commitsOf_foreign (log : List (Commit ι)) (sha : Text) (id : ι) :
    commitsOf (⟨sha, none⟩ :: log) id = commitsOf log id := by
  unfold commitsOf
  rw [List.filter_cons_of_neg (by simp)]

theorem commitsOf_cons (log : List (Commit ι)) (sha : Text) (id k : ι) :
    commitsOf (⟨sha, some id⟩ :: log) k =
      if k = id then ⟨sha, some id⟩ :: commitsOf log k else commitsOf log k := by
  unfold commitsOf
  by_cases hk : k = id
  · rw [if_pos hk, List.filter_cons_of_pos (by simp [hk])]
  · rw [if_neg hk, List.filter_cons_of_neg (by simp [Ne.symm hk])]

/-- when an item has one commit, that is the one recovered -/
theorem recover_of_mem {log : List (Commit ι)} {id : ι} {c : Commit ι}
    (hone : (commitsOf log id).length ≤ 1) (hc : c ∈ log) (hop : c.operation = some id) :
    recover log id = some c := by
  have hmem : c ∈ commitsOf log id := List.mem_filter.mpr ⟨hc, by simp [hop]⟩
  have hrec : ∃ d, recover log id = some d := by
    cases hd : recover log id with
    | none =>
      rw [recover_eq_none.mp hd] at hmem
      exact absurd hmem List.not_mem_nil
    | some d => exact ⟨d, rfl⟩
  obtain ⟨d, hd⟩ := hrec
  have hdop : (d.operation == some id) = true :=
    List.find?_some (p := fun e : Commit ι => e.operation == some id) hd
  have hdmem : d ∈ commitsOf log id := List.mem_filter.mpr ⟨List.mem_of_find?_eq_some hd, hdop⟩
  obtain ⟨e, he⟩ : ∃ e, commitsOf log id = [e] := by
    match hl : commitsOf log id with
    | [] => rw [hl] at hmem; exact absurd hmem List.not_mem_nil
    | [e] => exact ⟨e, rfl⟩
    | e :: f :: l => rw [hl] at hone; simp at hone
  rw [he, List.mem_singleton] at hmem hdmem
  rw [hd, hdmem, hmem]

/-! ## the invariant -/

/-- what a phase says about the rows and the history -/
def Phase.Fine (db : Db ι ρ) (log : List (Commit ι)) : Phase ι → Prop
  | .based j base => recover base j.id = recover log j.id
  | .filing j base => recover base j.id = none
  | .cleared j base => recover base j.id = none ∧ leaseOf db j.id = some j.lease
  | _ => True

structure Inv (w : World ι π ρ) : Prop where
  holder : ∀ p, (w.phase p).locks = true ↔ w.lock = some p
  stamped : ∀ id l, leaseOf w.db id = some l → l.startedAt ∈ w.stamps id
  jobStamped : ∀ p j, (w.phase p).job = some j → j.lease.startedAt ∈ w.stamps j.id
  /-- a clock value names one claim of an item -/
  unique : ∀ p q j k, (w.phase p).job = some j → (w.phase q).job = some k → j.id = k.id →
    j.lease.startedAt = k.lease.startedAt → p = q
  agrees : ∀ p j l, (w.phase p).job = some j → leaseOf w.db j.id = some l →
    l.startedAt = j.lease.startedAt → l = j.lease
  fine : ∀ p, (w.phase p).Fine w.db w.log
  once : ∀ id, (commitsOf w.log id).length ≤ 1

theorem inv_init (env : Env) : Inv (init env : World ι π ρ) where
  holder := fun p => ⟨nofun, nofun⟩
  stamped := fun id l h => by
    unfold leaseOf init at h
    rw [AList.lookup_empty, Option.bind_none] at h
    exact nomatch h
  jobStamped := nofun
  unique := nofun
  agrees := nofun
  fine := fun p => trivial
  once := fun id => Nat.zero_le 1

theorem move_phase_self (w : World ι π ρ) (db : Db ι ρ) (p : π) (ph : Phase ι) :
    (w.move db p ph).phase p = ph := by
  show Function.update w.phase p ph p = ph
  exact Function.update_self ..

theorem move_phase_ne (w : World ι π ρ) (db : Db ι ρ) {p q : π} (ph : Phase ι) (h : q ≠ p) :
    (w.move db p ph).phase q = w.phase q := by
  show Function.update w.phase p ph q = w.phase q
  exact Function.update_of_ne h ..

/-- two processes never hold the lock -/
theorem Inv.locks_unique {w : World ι π ρ} (h : Inv w) {p q : π} (hp : (w.phase p).locks = true)
    (hq : (w.phase q).locks = true) : p = q := by
  have h1 := (h.holder p).mp hp
  have h2 := (h.holder q).mp hq
  exact Option.some.inj (h1.symm.trans h2)

theorem holder_move {w : World ι π ρ} (h : Inv w) (db : Db ι ρ) {p : π} {ph : Phase ι}
    (hfree : ph.locks = true → w.lock = none ∨ w.lock = some p) (q : π) :
    ((w.move db p ph).phase q).locks = true ↔ (w.move db p ph).lock = some q := by
  have hlock : (w.move db p ph).lock =
      if ph.locks then some p else if w.lock = some p then none else w.lock := rfl
  rw [hlock]
  by_cases hq : q = p
  · subst hq
    rw [move_phase_self]
    cases hl : ph.locks with
    | true => simp
    | false =>
      by_cases hw : w.lock = some q
      · simp [hw]
      · simp [hw]
  · rw [move_phase_ne w db ph hq, h.holder q]
    cases hl : ph.locks with
    | true =>
      rcases hfree hl with hn | hp
      · simp [hn, Ne.symm hq]
      · simp [hp]
    | false =>
      by_cases hw : w.lock = some p
      · simp [hw, Ne.symm hq]
      · simp [hw]

/-- the process `p` goes on with its own job; leases end, and none that another process was cleared
under -/
theorem Inv.move {w : World ι π ρ} (h : Inv w) {db : Db ι ρ} {p : π} {ph : Phase ι}
    (hjob : ∀ j, ph.job = some j → (w.phase p).job = some j)
    (hfree : ph.locks = true → w.lock = none ∨ w.lock = some p)
    (hends : ∀ id l, leaseOf db id = some l → leaseOf w.db id = some l)
    (hkeep : ∀ q j base, q ≠ p → w.phase q = .cleared j base → leaseOf db j.id = leaseOf w.db j.id)
    (hfine : ph.Fine db w.log) : Inv (w.move db p ph) := by
  have hjobs : ∀ q j, ((w.move db p ph).phase q).job = some j → (w.phase q).job = some j := by
    intro q j hj
    by_cases hq : q = p
    · subst hq
      rw [move_phase_self] at hj
      exact hjob j hj
    · rwa [move_phase_ne w db ph hq] at hj
  refine ⟨holder_move h db hfree, fun id l hl => h.stamped id l (hends id l hl),
    fun q j hj => h.jobStamped q j (hjobs q j hj),
    fun q r j k hj hk => h.unique q r j k (hjobs q j hj) (hjobs r k hk),
    fun q j l hj hl => h.agrees q j l (hjobs q j hj) (hends j.id l hl), fun q => ?_, h.once⟩
  show Phase.Fine db w.log _
  by_cases hq : q = p
  · subst hq
    rwa [move_phase_self]
  · rw [move_phase_ne w db ph hq]
    have hfq := h.fine q
    cases hphase : w.phase q with
    | cleared j base =>
      rw [hphase] at hfq
      exact ⟨hfq.1, by rw [hkeep q j base hq hphase]; exact hfq.2⟩
    | based j base => rw [hphase] at hfq; exact hfq
    | filing j base => rw [hphase] at hfq; exact hfq
    | idle | sweeping | swept | ready | claimed | locked | published | returned | finishing
    | handling => trivial

/-- the same with the rows unchanged -/
theorem Inv.move_same {w : World ι π ρ} (h : Inv w) {p : π} {ph : Phase ι}
    (hjob : ∀ j, ph.job = some j → (w.phase p).job = some j)
    (hfree : ph.locks = true → w.lock = none ∨ w.lock = some p)
    (hfine : ph.Fine w.db w.log) : Inv (w.move w.db p ph) :=
  h.move hjob hfree (fun _ _ hl => hl) (fun _ _ _ _ _ => rfl) hfine

/-- a process that held the lock may keep it -/
theorem Inv.keeps_lock {w : World ι π ρ} (h : Inv w) {p : π} {ph : Phase ι} (hp : w.phase p = ph)
    (hl : ph.locks = true) : w.lock = none ∨ w.lock = some p :=
  Or.inr ((h.holder p).mp (by rw [hp]; exact hl))

/-- ending the lease of `j`, the job of `p`, or nothing -/
theorem Inv.move_end {w : World ι π ρ} (h : Inv w) {db : Db ι ρ} {p : π} {j : Job ι}
    (hp : (w.phase p).job = some j)
    (hdb : (∀ k, leaseOf db k = leaseOf w.db k) ∨
      ∃ l, leaseOf w.db j.id = some l ∧ l.startedAt = j.lease.startedAt ∧
        ∀ k, leaseOf db k = if k = j.id then none else leaseOf w.db k) :
    Inv (w.move db p .idle) := by
  refine h.move nofun nofun ?_ ?_ trivial
  · intro id l hl
    rcases hdb with hsame | ⟨-, -, -, hend⟩
    · rw [← hsame, hl]
    · rw [hend] at hl
      by_cases hid : id = j.id
      · rw [if_pos hid] at hl; exact nomatch hl
      · rwa [if_neg hid] at hl
  · intro q k base hq hk
    rcases hdb with hsame | ⟨l, hl, hstamp, hend⟩
    · rw [hsame]
    · rw [hend]
      by_cases hid : k.id = j.id
      · -- the lease that ends is the one `q` was cleared under, so `q` is `p`
        have hcl : leaseOf w.db k.id = some k.lease := by
          have hf := h.fine q
          rw [hk] at hf
          exact hf.2
        rw [hid, hl] at hcl
        have hkl : k.lease.startedAt = j.lease.startedAt := by
          rw [← Option.some.inj hcl, hstamp]
        exact absurd (h.unique q p k j (by rw [hk]; rfl) hp hid hkl) hq
      · rw [if_neg hid]

/-- the rows change without a change of leases, and commits of no writer come in -/
theorem Inv.outside {w w' : World ι π ρ} (h : Inv w) (hlock : w'.lock = w.lock)
    (hphase : w'.phase = w.phase) (hstamps : w'.stamps = w.stamps)
    (hdb : leaseOf w'.db = leaseOf w.db) (hrec : ∀ id, recover w'.log id = recover w.log id)
    (hcom : ∀ id, commitsOf w'.log id = commitsOf w.log id) : Inv w' := by
  refine ⟨?_, ?_, ?_, ?_, ?_, ?_, ?_⟩
  · rw [hphase, hlock]; exact h.holder
  · rw [hdb, hstamps]; exact h.stamped
  · rw [hphase, hstamps]; exact h.jobStamped
  · rw [hphase]; exact h.unique
  · rw [hphase, hdb]; exact h.agrees
  · intro p
    rw [hphase]
    have hf := h.fine p
    cases hp : w.phase p with
    | based j base => rw [hp] at hf; exact (show recover base j.id = _ from hf).trans (hrec _).symm
    | filing j base => rw [hp] at hf; exact hf
    | cleared j base => rw [hp] at hf; exact ⟨hf.1, by rw [hdb]; exact hf.2⟩
    | idle | sweeping | swept | ready | claimed | locked | published | returned | finishing
    | handling => trivial
  · intro id
    rw [hcom]
    exact h.once id


/-! ## one action -/

theorem Inv.claim {w : World ι π ρ} (h : Inv w) {p : π} {id : ι} {clock : Time} {a : ℕ}
    {operation : Operation} {db : Db ι ρ} (hnew : clock ∉ w.stamps id) (hnone : leaseOf w.db id = none)
    (hdb : ∀ k, leaseOf db k = if k = id then some ⟨a, clock⟩ else leaseOf w.db k) :
    Inv { (w.move db p (.claimed ⟨id, operation, ⟨a, clock⟩⟩)) with
      stamps := Function.update w.stamps id (clock :: w.stamps id) } := by
  have hgrow : ∀ k t, t ∈ w.stamps k → t ∈ Function.update w.stamps id (clock :: w.stamps id) k := by
    intro k t ht
    by_cases hk : k = id
    · subst hk
      rw [Function.update_self]
      exact List.mem_cons_of_mem clock ht
    · rwa [Function.update_of_ne hk]
  have hself : clock ∈ Function.update w.stamps id (clock :: w.stamps id) id := by
    rw [Function.update_self]
    exact List.mem_cons_self
  -- the job of a process is the new one, or one it had before, whose clock value is older
  have hjobs : ∀ q j, ((w.move db p (.claimed ⟨id, operation, ⟨a, clock⟩⟩)).phase q).job = some j →
      (q = p ∧ j = ⟨id, operation, ⟨a, clock⟩⟩) ∨
        (q ≠ p ∧ (w.phase q).job = some j ∧ (j.id = id → j.lease.startedAt ≠ clock)) := by
    intro q j hj
    by_cases hq : q = p
    · subst hq
      rw [move_phase_self] at hj
      exact Or.inl ⟨rfl, (Option.some.inj hj).symm⟩
    · rw [move_phase_ne w db _ hq] at hj
      refine Or.inr ⟨hq, hj, fun hid hclock => hnew ?_⟩
      rw [← hclock, ← hid]
      exact h.jobStamped q j hj
  refine ⟨holder_move h db nofun, ?_, ?_, ?_, ?_, ?_, h.once⟩
  · intro k l hl
    replace hl := (hdb k).symm.trans hl
    by_cases hk : k = id
    · rw [if_pos hk] at hl
      rw [hk, ← Option.some.inj hl]
      exact hself
    · rw [if_neg hk] at hl
      exact hgrow k _ (h.stamped k l hl)
  · intro q j hj
    rcases hjobs q j hj with ⟨-, rfl⟩ | ⟨-, hold, -⟩
    · exact hself
    · exact hgrow j.id _ (h.jobStamped q j hold)
  · intro q r j k hj hk hid hstamp
    rcases hjobs q j hj with ⟨rfl, rfl⟩ | ⟨hq, hqj, hjnew⟩
    · rcases hjobs r k hk with ⟨rfl, rfl⟩ | ⟨hr, hrk, hknew⟩
      · rfl
      · exact absurd hstamp.symm (hknew hid.symm)
    · rcases hjobs r k hk with ⟨rfl, rfl⟩ | ⟨hr, hrk, hknew⟩
      · exact absurd hstamp (hjnew hid)
      · exact h.unique q r j k hqj hrk hid hstamp
  · intro q j l hj hl hstamp
    replace hl := (hdb j.id).symm.trans hl
    rcases hjobs q j hj with ⟨-, rfl⟩ | ⟨-, hold, hjnew⟩
    · rw [if_pos rfl] at hl
      exact (Option.some.inj hl).symm
    · by_cases hid : j.id = id
      · rw [if_pos hid] at hl
        rw [← Option.some.inj hl] at hstamp
        exact absurd hstamp.symm (hjnew hid)
      · rw [if_neg hid] at hl
        exact h.agrees q j l hold hl hstamp
  · intro q
    show Phase.Fine db w.log _
    by_cases hq : q = p
    · subst hq
      rw [move_phase_self]
      trivial
    · rw [move_phase_ne w db _ hq]
      have hf := h.fine q
      cases hphase : w.phase q with
      | cleared j base =>
        rw [hphase] at hf
        refine ⟨hf.1, ?_⟩
        have hid : j.id ≠ id := by
          intro hid
          have hl := hf.2
          rw [hid, hnone] at hl
          exact nomatch hl
        rw [hdb, if_neg hid]
        exact hf.2
      | based j base => rw [hphase] at hf; exact hf
      | filing j base => rw [hphase] at hf; exact hf
      | idle | sweeping | swept | ready | claimed | locked | published | returned | finishing
      | handling => trivial

/-- a publication: the lock keeps every other process out of its block, and the base had no commit
of the item -/
theorem Inv.publish {w : World ι π ρ} (h : Inv w) {p : π} {j : Job ι} {base : List (Commit ι)}
    (hp : w.phase p = .cleared j base) (hbase : base = w.log) (sha : Text) :
    Inv { (w.move w.db p (.published j ⟨sha, some j.id⟩)) with
      log := ⟨sha, some j.id⟩ :: w.log } := by
  have hf := h.fine p
  rw [hp] at hf
  have hlocks : (w.phase p).locks = true := by rw [hp]; rfl
  have hmove : Inv (w.move w.db p (.published j ⟨sha, some j.id⟩)) :=
    h.move_same (fun k hk => by rw [hp]; exact hk) (fun _ => h.keeps_lock hp rfl) trivial
  refine ⟨hmove.holder, hmove.stamped, hmove.jobStamped, hmove.unique, hmove.agrees, fun q => ?_,
    fun id => ?_⟩
  · show Phase.Fine w.db _ _
    by_cases hq : q = p
    · subst hq
      rw [move_phase_self]
      trivial
    · rw [move_phase_ne w w.db _ hq]
      have hfq := h.fine q
      cases hphase : w.phase q with
      | based k b => exact absurd (h.locks_unique (by rw [hphase]; rfl) hlocks) hq
      | filing k b => rw [hphase] at hfq; exact hfq
      | cleared k b => rw [hphase] at hfq; exact hfq
      | idle | sweeping | swept | ready | claimed | locked | published | returned | finishing
      | handling => trivial
  · show (commitsOf (⟨sha, some j.id⟩ :: w.log) id).length ≤ 1
    rw [commitsOf_cons]
    by_cases hid : id = j.id
    · rw [if_pos hid, hid, ← hbase, recover_eq_none.mp hf.1]
      exact le_refl 1
    · rw [if_neg hid]
      exact h.once id

/-- what the end of a job does to the leases -/
def Ends (db db' : Db ι ρ) (j : Job ι) : Prop :=
  (∀ k, leaseOf db' k = leaseOf db k) ∨
    ∃ l, leaseOf db j.id = some l ∧ l.startedAt = j.lease.startedAt ∧
      ∀ k, leaseOf db' k = if k = j.id then none else leaseOf db k

theorem ends_handleFault (now : Time) (db : Db ι ρ) (j : Job ι) (f : Fault) :
    Ends db (handleFault now db j f) j := by
  cases f with
  | error category text retryable freshBudget =>
    show Ends db (match failOrRetry now db j.id j.lease category text retryable
        (retryable && freshBudget) with
      | .ok (_, db') => db'
      | .error _ => db) j
    split
    · rename_i r db' hok
      obtain ⟨hl, hend⟩ := leaseOf_failOrRetry hok
      exact Or.inr ⟨j.lease, hl, rfl, hend⟩
    · exact Or.inl fun k => rfl
  | shutdown =>
    unfold handleFault
    cases hr : releaseClaim now db j.id j.lease.startedAt with
    | mk released db' =>
      cases released with
      | true =>
        obtain ⟨⟨a, ha⟩, hend⟩ := leaseOf_releaseClaim hr
        exact Or.inr ⟨⟨a, j.lease.startedAt⟩, ha, rfl, hend⟩
      | false =>
        rw [releaseClaim_false hr]
        exact Or.inl fun k => rfl
  | abort => exact Or.inl fun k => rfl

/-- the rows after `finish_landed`, unchanged when it raises -/
theorem ends_finishLanded (now : Time) (db : Db ι ρ) (j : Job ι) (r : WriteResult) :
    Ends db (match finishLanded now db j.id j.lease r.details.sourcePath r.commitSha
        r.details.changeId r.details.extraction r.details.report with
      | .ok (_, db') => db'
      | .error _ => db) j := by
  split
  · rename_i row db' hok
    obtain ⟨hl, hend⟩ := leaseOf_finishLanded hok
    exact Or.inr ⟨j.lease, hl, rfl, hend⟩
  · exact Or.inl fun k => rfl

theorem inv_step {w w' : World ι π ρ} (a : Action ι π ρ) (hi : Inv w) (h : step w a = some w') :
    Inv w' := by
  cases a with
  | enqueue id tenantId operation idempotencyKey submittedBy acl request now =>
    simp only [step] at h
    split at h
    · rename_i o db' hok
      obtain rfl := Option.some.inj h
      exact hi.outside rfl rfl rfl (leaseOf_insert_of_queued rfl hok) (fun _ => rfl) fun _ => rfl
    · obtain rfl := Option.some.inj h
      exact hi
  | retry id now =>
    simp only [step] at h
    split at h
    · rename_i r db' hok
      obtain rfl := Option.some.inj h
      exact hi.outside rfl rfl rfl (leaseOf_retryFailed hok) (fun _ => rfl) fun _ => rfl
    · obtain rfl := Option.some.inj h
      exact hi
  | environment env =>
    obtain rfl := Option.some.inj h
    exact hi.outside rfl rfl rfl rfl (fun _ => rfl) fun _ => rfl
  | foreign sha =>
    obtain rfl := Option.some.inj h
    exact hi.outside rfl rfl rfl rfl (recover_foreign w.log sha) (commitsOf_foreign w.log sha)
  | trySweep p =>
    simp only [step] at h
    split at h
    · obtain rfl := Option.some.inj h
      refine hi.move_same ?_ ?_ ?_
      · intro j hj
        split at hj <;> exact nomatch hj
      · intro hl
        split at hl
        · rename_i hfree
          exact Or.inl hfree
        · exact nomatch hl
      · split <;> trivial
    · exact nomatch h
  | sweep p now timeout batch rows =>
    simp only [step] at h
    split at h
    · rename_i hp
      obtain ⟨db', hdb, rfl⟩ := Option.map_eq_some_iff.mp h
      have hlease := leaseOf_releaseExpired hdb
      refine hi.move nofun (fun _ => hi.keeps_lock hp rfl) ?_ ?_ trivial
      · intro id l hl
        rw [hlease] at hl
        by_cases hid : id ∈ rows
        · rw [if_pos hid] at hl; exact nomatch hl
        · rwa [if_neg hid] at hl
      · -- a cleared process would hold the lock this one holds
        intro q j base hq hphase
        exact absurd (hi.locks_unique (by rw [hphase]; rfl) (by rw [hp]; rfl)) hq
    · exact nomatch h
  | endSweep p =>
    simp only [step] at h
    split at h
    · obtain rfl := Option.some.inj h
      exact hi.move_same nofun nofun trivial
    · exact nomatch h
  | claim p id now clock budget =>
    simp only [step] at h
    split at h
    · split at h
      · exact nomatch h
      · rename_i hp hnew
        obtain ⟨c, hc, rfl⟩ := Option.map_eq_some_iff.mp h
        obtain ⟨hnone, hdb⟩ := leaseOf_claimNext hc
        exact hi.claim hnew hnone hdb
    · exact nomatch h
  | noClaim p =>
    simp only [step] at h
    split at h
    · obtain rfl := Option.some.inj h
      exact hi.move_same nofun nofun trivial
    · exact nomatch h
  | tryLock p =>
    simp only [step] at h
    split at h
    · rename_i j hp
      obtain rfl := Option.some.inj h
      refine hi.move_same ?_ ?_ ?_
      · intro k hk
        rw [hp]
        split at hk <;> exact hk
      · intro hl
        split at hl
        · rename_i hfree
          exact Or.inl hfree
        · exact nomatch hl
      · split <;> trivial
    · exact nomatch h
  | readBase p =>
    simp only [step] at h
    split at h
    · rename_i j hp
      obtain rfl := Option.some.inj h
      exact hi.move_same (fun k hk => by rw [hp]; exact hk) (fun _ => hi.keeps_lock hp rfl) rfl
    · exact nomatch h
  | reconcile p d =>
    simp only [step] at h
    split at h
    · rename_i j base hp
      obtain rfl := Option.some.inj h
      refine hi.move_same ?_ (fun _ => hi.keeps_lock hp rfl) ?_
      · intro k hk
        rw [hp]
        split at hk
        · exact hk
        · split at hk <;> exact hk
      · split
        · trivial
        · rename_i hnone
          split
          · trivial
          · exact hnone
    · exact nomatch h
  | extract p extraction =>
    simp only [step] at h
    split at h
    · rename_i j base hp
      obtain rfl := Option.some.inj h
      have hlease := leaseOf_recordExtraction w.db j.id extraction
      have hf := hi.fine p
      rw [hp] at hf
      exact hi.move (fun k hk => by rw [hp]; exact hk) (fun _ => hi.keeps_lock hp rfl)
        (fun id l hl => by rw [← hlease, hl]) (fun _ _ _ _ _ => by rw [hlease]) hf
    · exact nomatch h
  | clear p =>
    simp only [step] at h
    split at h
    · rename_i j base hp
      obtain rfl := Option.some.inj h
      have hf := hi.fine p
      rw [hp] at hf
      refine hi.move_same ?_ (fun _ => hi.keeps_lock hp rfl) ?_
      · intro k hk
        rw [hp]
        split at hk <;> exact hk
      · split
        · rename_i hheld
          exact ⟨hf, holdsLease_iff.mp hheld⟩
        · trivial
    · exact nomatch h
  | publish p sha =>
    simp only [step] at h
    split at h
    · rename_i j base hp
      split at h
      · rename_i hbase
        obtain rfl := Option.some.inj h
        exact hi.publish hp hbase sha
      · exact nomatch h
    · exact nomatch h
  | noChange p d =>
    simp only [step] at h
    split at h
    · rename_i j base hp
      split at h
      · obtain rfl := Option.some.inj h
        exact hi.move_same (fun k hk => by rw [hp]; exact hk) (fun _ => hi.keeps_lock hp rfl)
          trivial
      · exact nomatch h
    · exact nomatch h
  | record p d =>
    simp only [step] at h
    split at h
    · rename_i j c hp
      obtain rfl := Option.some.inj h
      exact hi.move_same (fun k hk => by rw [hp]; exact hk) (fun _ => hi.keeps_lock hp rfl) trivial
    · exact nomatch h
  | unlock p =>
    simp only [step] at h
    split at h
    · rename_i j r hp
      obtain rfl := Option.some.inj h
      exact hi.move_same (fun k hk => by rw [hp]; exact hk) nofun trivial
    · exact nomatch h
  | finish p now =>
    simp only [step] at h
    split at h
    · rename_i j r hp
      obtain rfl := Option.some.inj h
      exact hi.move_end (by rw [hp]; rfl) (ends_finishLanded now w.db j r)
    · exact nomatch h
  | raise p f =>
    simp only [step] at h
    split at h
    · exact nomatch h
    · obtain ⟨j, hj, rfl⟩ := Option.map_eq_some_iff.mp h
      exact hi.move_same (fun k hk => by rw [hj]; exact hk) nofun trivial
  | handle p now =>
    simp only [step] at h
    split at h
    · rename_i j f hp
      obtain rfl := Option.some.inj h
      exact hi.move_end (by rw [hp]; rfl) (ends_handleFault now w.db j f)
    · exact nomatch h
  | crash p =>
    obtain rfl := Option.some.inj h
    exact hi.move_same nofun nofun trivial

/-! ## every run -/

/-- the invariant in every state a run reaches -/
theorem inv_exec {env : Env} {as : List (Action ι π ρ)} {w : World ι π ρ}
    (h : Runs.exec step (init env) as = some w) : Inv w :=
  Runs.exec_invariant (fun _ a _ hi hs => inv_step a hi hs) (inv_init env) h


/-- an answer of yes means the lease is in force -/
theorem leasedCall_true {w : World ι π ρ} (hi : Inv w) {a : Action ι π ρ} {id : ι} {l : Lease}
    (h : leasedCall w a = some (id, l, true)) : leaseOf w.db id = some l := by
  cases a with
  | clear p =>
    simp only [leasedCall] at h
    split at h
    · obtain ⟨rfl, rfl, hheld⟩ := by simpa using h
      exact holdsLease_iff.mp hheld
    · cases h
  | publish p sha =>
    simp only [leasedCall] at h
    split at h
    · rename_i j base hp
      obtain ⟨rfl, rfl, -⟩ := by simpa using h
      have hf := hi.fine p
      rw [hp] at hf
      exact hf.2
    · cases h
  | finish p now =>
    simp only [leasedCall] at h
    split at h
    · rename_i j r hp
      obtain ⟨rfl, rfl, hok⟩ := by simpa using h
      cases hres : finishLanded now w.db j.id j.lease r.details.sourcePath r.commitSha
          r.details.changeId r.details.extraction r.details.report with
      | ok u => exact (leaseOf_finishLanded hres).1
      | error e => rw [hres] at hok; cases hok
    · cases h
  | handle p now =>
    simp only [leasedCall] at h
    split at h
    · rename_i j category text retryable freshBudget hp
      obtain ⟨rfl, rfl, hok⟩ := by simpa using h
      cases hres : failOrRetry now w.db j.id j.lease category text retryable
          (retryable && freshBudget) with
      | ok u => exact (leaseOf_failOrRetry hres).1
      | error e => rw [hres] at hok; cases hok
    · -- `release_claim` compares the clock value only, which names one claim
      rename_i j hp
      obtain ⟨rfl, rfl, hok⟩ := by simpa using h
      obtain ⟨⟨b, hb⟩, -⟩ := leaseOf_releaseClaim (Prod.ext hok rfl :
        releaseClaim now w.db j.id j.lease.startedAt = (true, _))
      rw [hb, hi.agrees p j ⟨b, j.lease.startedAt⟩ (by rw [hp]; rfl) hb rfl]
    · cases h
  | enqueue | retry | environment | foreign | trySweep | sweep | endSweep | claim | noClaim | tryLock
  | readBase | reconcile | extract | noChange | record | unlock | raise | crash => cases h

/-- a refused call changes neither the rows nor the history -/
theorem leasedCall_false {w w' : World ι π ρ} {a : Action ι π ρ} {id : ι} {l : Lease}
    (hs : step w a = some w') (h : leasedCall w a = some (id, l, false)) :
    w'.db = w.db ∧ w'.log = w.log := by
  cases a with
  | clear p =>
    simp only [step] at hs
    split at hs
    · obtain rfl := Option.some.inj hs
      exact ⟨rfl, rfl⟩
    · exact nomatch hs
  | publish p sha =>
    simp only [step] at hs
    split at hs
    · rename_i j base hp
      simp only [leasedCall, hp] at h
      split at hs
      · rename_i hbase
        simp [hbase] at h
      · exact nomatch hs
    · exact nomatch hs
  | finish p now =>
    simp only [step] at hs
    split at hs
    · rename_i j r hp
      simp only [leasedCall, hp] at h
      obtain rfl := Option.some.inj hs
      split
      · rename_i row db' hok
        rw [hok] at h
        simp [Except.isOk, Except.toBool] at h
      · exact ⟨rfl, rfl⟩
    · exact nomatch hs
  | handle p now =>
    simp only [step] at hs
    split at hs
    · rename_i j f hp
      simp only [leasedCall, hp] at h
      obtain rfl := Option.some.inj hs
      refine ⟨?_, rfl⟩
      show handleFault now w.db j f = w.db
      cases f with
      | error category text retryable freshBudget =>
        show (match failOrRetry now w.db j.id j.lease category text retryable
            (retryable && freshBudget) with
          | .ok (_, db') => db'
          | .error _ => w.db) = w.db
        split
        · rename_i row db' hok
          simp [hok, Except.isOk, Except.toBool] at h
        · rfl
      | shutdown =>
        obtain ⟨-, -, hno⟩ := by simpa using h
        exact releaseClaim_false (Prod.ext hno rfl :
          releaseClaim now w.db j.id j.lease.startedAt = (false, _))
      | abort => rfl
    · exact nomatch hs
  | enqueue | retry | environment | foreign | trySweep | sweep | endSweep | claim | noClaim | tryLock
  | readBase | reconcile | extract | noChange | record | unlock | raise | crash => exact nomatch h

theorem rewrites_handleFault (now : Time) (db : Db ι ρ) (j : Job ι) (f : Fault) :
    Rewrites db (handleFault now db j f) := by
  cases f with
  | error category text retryable freshBudget =>
    show Rewrites db (match failOrRetry now db j.id j.lease category text retryable
        (retryable && freshBudget) with
      | .ok (_, db') => db'
      | .error _ => db)
    split
    · rename_i r db' hok
      exact rewrites_failOrRetry hok
    · exact Rewrites.refl db
  | shutdown => exact rewrites_releaseClaim now j.lease.startedAt db j.id
  | abort => exact Rewrites.refl db

/-- what an action does to the rows -/
theorem db_step {w w' : World ι π ρ} (a : Action ι π ρ) (h : step w a = some w') :
    Rewrites w.db w'.db ∨ ∃ id r o, insert w.db id r = .ok (o, w'.db) ∧
      ∃ tenantId operation idempotencyKey submittedBy acl request now,
        a = .enqueue id tenantId operation idempotencyKey submittedBy acl request now ∧
          r = insertRow tenantId operation idempotencyKey submittedBy acl request now := by
  cases a with
  | enqueue id tenantId operation idempotencyKey submittedBy acl request now =>
    simp only [step] at h
    split at h
    · rename_i o db' hok
      obtain rfl := Option.some.inj h
      exact Or.inr ⟨id, _, o, hok, tenantId, operation, idempotencyKey, submittedBy, acl, request, now, rfl, rfl⟩
    · obtain rfl := Option.some.inj h
      exact Or.inl (Rewrites.refl w.db)
  | retry id now =>
    simp only [step] at h
    split at h
    · rename_i r db' hok
      obtain rfl := Option.some.inj h
      exact Or.inl (rewrites_retryFailed hok)
    · obtain rfl := Option.some.inj h
      exact Or.inl (Rewrites.refl w.db)
  | sweep p now timeout batch rows =>
    simp only [step] at h
    split at h
    · obtain ⟨db', hdb, rfl⟩ := Option.map_eq_some_iff.mp h
      exact Or.inl (rewrites_releaseExpired hdb)
    · cases h
  | claim p id now clock budget =>
    simp only [step] at h
    split at h
    · split at h
      · cases h
      · obtain ⟨c, hc, rfl⟩ := Option.map_eq_some_iff.mp h
        exact Or.inl (rewrites_claimNext hc)
    · cases h
  | extract p extraction =>
    simp only [step] at h
    split at h
    · rename_i j base hp
      obtain rfl := Option.some.inj h
      exact Or.inl (rewrites_recordExtraction w.db j.id extraction)
    · cases h
  | finish p now =>
    simp only [step] at h
    split at h
    · rename_i j r hp
      obtain rfl := Option.some.inj h
      left
      show Rewrites w.db (match finishLanded now w.db j.id j.lease r.details.sourcePath
          r.commitSha r.details.changeId r.details.extraction r.details.report with
        | .ok (_, db') => db'
        | .error _ => w.db)
      split
      · rename_i row db' hok
        exact rewrites_finishLanded hok
      · exact Rewrites.refl w.db
    · cases h
  | publish p sha =>
    simp only [step] at h
    split at h
    · split at h
      · obtain rfl := Option.some.inj h
        exact Or.inl (Rewrites.refl w.db)
      · cases h
    · cases h
  | noChange p d =>
    simp only [step] at h
    split at h
    · split at h
      · obtain rfl := Option.some.inj h
        exact Or.inl (Rewrites.refl w.db)
      · cases h
    · cases h
  | raise p f =>
    simp only [step] at h
    split at h
    · cases h
    · obtain ⟨j, hj, rfl⟩ := Option.map_eq_some_iff.mp h
      exact Or.inl (Rewrites.refl w.db)
  | handle p now =>
    simp only [step] at h
    split at h
    · rename_i j f hp
      obtain rfl := Option.some.inj h
      exact Or.inl (rewrites_handleFault now w.db j f)
    · cases h
  | environment | foreign | crash =>
    obtain rfl := Option.some.inj h
    exact Or.inl (Rewrites.refl w.db)
  | trySweep | endSweep | noClaim | tryLock | readBase | reconcile | clear | record | unlock =>
    simp only [step] at h
    split at h
    · obtain rfl := Option.some.inj h
      exact Or.inl (Rewrites.refl w.db)
    · cases h

theorem onward_step {w w' : World ι π ρ} (a : Action ι π ρ) (h : step w a = some w') :
    Onward w.db w'.db := by
  rcases db_step a h with hr | ⟨id, r, o, hok, -⟩
  · exact hr.onward
  · exact onward_insert hok

/-- over a run every row stays, with its request, and stays landed once it is -/
theorem onward_exec {w w' : World ι π ρ} {as : List (Action ι π ρ)}
    (h : Runs.exec step w as = some w') : Onward w.db w'.db :=
  Runs.exec_stable (I := fun _ => True) (R := fun s t => Onward s.db t.db)
    (fun s => Onward.refl s.db) (fun _ _ _ => Onward.trans) (fun _ _ _ _ _ => trivial)
    (fun _ a _ _ hs => onward_step a hs) trivial h

theorem keyed_step {w w' : World ι π ρ} (a : Action ι π ρ) (hk : Keyed w.db)
    (h : step w a = some w') : Keyed w'.db := by
  rcases db_step a h with hr | ⟨id, r, o, hok, -⟩
  · exact hk.rewrites hr
  · exact hk.insert hok

theorem keyed_exec {w w' : World ι π ρ} {as : List (Action ι π ρ)} (hk : Keyed w.db)
    (h : Runs.exec step w as = some w') : Keyed w'.db :=
  Runs.exec_invariant (I := fun w => Keyed w.db) (fun _ a _ hi hs => keyed_step a hi hs) hk h

def Landed (db : Db ι ρ) (id : ι) : Prop := ∃ r, db.lookup id = some r ∧ r.status = .landed

/-- **The fenced queue.**  In every state a run reaches, a call under a lease succeeds only when that
lease is the one in force, and otherwise writes nothing; an item has at most one commit; a claim of an
item with a commit returns that commit, and no process is left that could publish another; and what
has landed stays landed. -/
theorem fenced_queue {env : Env} {as : List (Action ι π ρ)} {w : World ι π ρ}
    (h : Runs.exec step (init env) as = some w) :
    (∀ a id l, leasedCall w a = some (id, l, true) → leaseOf w.db id = some l) ∧
    (∀ a w' id l, step w a = some w' → leasedCall w a = some (id, l, false) →
      w'.db = w.db ∧ w'.log = w.log) ∧
    (∀ id, (commitsOf w.log id).length ≤ 1) ∧
    (∀ p d j base w' c, w.phase p = .based j base → step w (.reconcile p d) = some w' →
      c ∈ w.log → c.operation = some j.id → w'.phase p = .returned j ⟨c.sha, d⟩) ∧
    (∀ p sha w' j base, w.phase p = .cleared j base → step w (.publish p sha) = some w' →
      commitsOf w.log j.id = []) ∧
    (∀ bs w' id, Runs.exec step w bs = some w' → Landed w.db id → Landed w'.db id) := by
  have hi := inv_exec h
  refine ⟨fun a id l => leasedCall_true hi, fun a w' id l => leasedCall_false, hi.once, ?_, ?_, ?_⟩
  · intro p d j base w' c hp hs hc hop
    have hf : recover base j.id = recover w.log j.id := by
      have := hi.fine p
      rwa [hp] at this
    simp only [step, hp, hf, recover_of_mem (hi.once j.id) hc hop] at hs
    rw [← Option.some.inj hs, move_phase_self]
  · intro p sha w' j base hp hs
    have hf := hi.fine p
    rw [hp] at hf
    simp only [step, hp] at hs
    split at hs
    · rename_i hbase
      rw [← hbase]
      exact recover_eq_none.mp hf.1
    · exact nomatch hs
  · rintro bs w' id hrun ⟨r, hr, hs⟩
    obtain ⟨r', hr', hrr⟩ := onward_exec hrun id r hr
    exact ⟨r', hr', hrr.landed hs⟩

end

/-- a writer that publishes and stops, and the claim that recovers its commit -/
def crashedRun : List (Action ℕ Bool Unit) :=
  let d : Details := ⟨none, [], [], []⟩
  [.enqueue 1 ['t'] .capture ['k'] ['s'] none () 0,
    .trySweep false, .sweep false 0 900 100 [], .endSweep false, .claim false 1 5 6 60,
    .tryLock false, .readBase false, .reconcile false d, .clear false, .publish false ['a'],
    .crash false, .trySweep true, .sweep true (seconds 1000) 900 100 [1], .endSweep true,
    .claim true 1 (seconds 1000) (seconds 1001) 60, .tryLock true, .readBase true,
    .reconcile true d, .unlock true, .finish true (seconds 1002)]

def openEnv : Env := ⟨fun _ => true, fun _ _ => false⟩

theorem fenced_queue_crashedRun :
    ∃ w, Runs.exec step (init openEnv) crashedRun = some w ∧ Landed w.db 1 ∧
      ∀ id, (commitsOf w.log id).length ≤ 1 := by
  have hrun : (Runs.exec step (init openEnv) crashedRun).any
      (fun w => (w.db.lookup 1).any fun r => r.status == .landed) = true := by decide +kernel
  obtain ⟨w, hw, hl⟩ := (Option.any_eq_true _ _).mp hrun
  obtain ⟨r, hr, hs⟩ := (Option.any_eq_true _ _).mp hl
  exact ⟨w, hw, ⟨r, hr, beq_iff_eq.mp hs⟩, (fenced_queue hw).2.2.1⟩

end Writers
