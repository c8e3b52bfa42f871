import Stigmergy.Capture.Attempts
import Stigmergy.Capture.Writers

/-!
# How often an item is filed

The writers at the queue with their clocks.  A claim sets the deadline of an item at most one operation
budget ahead, a lease ends unasked only after the visibility timeout, and `check_domains` lets this timeout
be no less than the budget and some headroom.  So a claim that lost its lease before it filed has no budget.

* `Rowwise`, `rowwise_step`   what an action does to the rows, and under which lease;
* `Goes`, `goes_step`         how a process comes to where it is;
* `Thirds`                    a third attempt writes nothing and ends with a commit there was, or fails;
* `step`, `filingsAfter`      actions in time, and the leases an item was filed under;
* `Tally`, `Counted`          no two of these are one attempt;
* `filed_twice`               over every run an item is filed at most twice between two retries.
-/

set_option linter.unusedSectionVars false

namespace Writers

open Queue

namespace Phase
variable {ι : Type*}

/-- a claim that has not begun to write -/
def waiting : Phase ι → Option (Job ι)
  | claimed j | locked j | based j _ => some j
  | _ => none

/-- an operation filed from scratch -/
def writes : Phase ι → Option (Job ι)
  | filing j _ | cleared j _ | published j _ => some j
  | _ => none

/-- a result to finish with -/
def brings : Phase ι → Option (Job ι × WriteResult)
  | returned j r | finishing j r => some (j, r)
  | _ => none

theorem job_of_waiting {ph : Phase ι} {j : Job ι} (h : ph.waiting = some j) : ph.job = some j := by
  cases ph with
  | claimed | locked | based => exact h
  | _ => exact nomatch h

theorem job_of_writes {ph : Phase ι} {j : Job ι} (h : ph.writes = some j) : ph.job = some j := by
  cases ph with
  | filing | cleared | published => exact h
  | _ => exact nomatch h

theorem job_of_brings {ph : Phase ι} {j : Job ι} {r : WriteResult} (h : ph.brings = some (j, r)) :
    ph.job = some j := by
  cases ph with
  | returned | finishing => rw [← (Prod.mk.inj (Option.some.inj h)).1]; rfl
  | _ => exact nomatch h

end Phase

section
variable {ι π ρ : Type*} [DecidableEq ι] [DecidableEq π]

/-- the claim an action hands back -/
def handedBack (w : World ι π ρ) : Action ι π ρ → Option (Job ι)
  | .handle p now =>
    match w.phase p with
    | .handling j .shutdown => if (releaseClaim now w.db j.id j.lease.startedAt).1 then some j else none
    | _ => none
  | _ => none

/-- what an action makes of the rows -/
inductive Rowwise (w : World ι π ρ) : Action ι π ρ → Db ι ρ → Prop where
  | same (a : Action ι π ρ) (hnone : handedBack w a = none) : Rowwise w a w.db
  | enqueue {id : ι} {tenantId : Text} {operation : Operation} {idempotencyKey submittedBy : Text}
      {acl : Option (List Text)} {request : ρ} {now : Time} (hnone : w.db.lookup id = none) :
      Rowwise w (.enqueue id tenantId operation idempotencyKey submittedBy acl request now)
        (w.db.insert id (insertRow tenantId operation idempotencyKey submittedBy acl request now))
  | retry {id : ι} {now : Time} {r : Row ρ} {db : Db ι ρ} (hok : retryFailed now w.db id = .ok (r, db)) :
      Rowwise w (.retry id now) db
  | sweep {p : π} {now : Time} {timeout batch : ℕ} {rows : List ι} {db : Db ι ρ}
      (hdb : releaseExpired now timeout batch w.db rows = some db) : Rowwise w (.sweep p now timeout batch rows) db
  | claim {p : π} {id : ι} {now clock : Time} {budget : ℕ} {r : Row ρ} {db : Db ι ρ}
      (hdb : claimNext w.env now clock budget w.db id = some (r, db)) :
      Rowwise w (.claim p id now clock budget) db
  | extract {p : π} {id : ι} {extraction : Text} {db : Db ι ρ} (hc : Changed .kept w.db db id) :
      Rowwise w (.extract p extraction) db
  | finish {p : π} {now : Time} {j : Job ι} {r : WriteResult} {db : Db ι ρ} (hp : w.phase p = .finishing j r)
      (hl : leaseOf w.db j.id = some j.lease) (hc : Changed (.landed r.commitSha) w.db db j.id) :
      Rowwise w (.finish p now) db
  | handle {p : π} {now : Time} {j : Job ι} {f : Fault} {db : Db ι ρ} (hp : w.phase p = .handling j f)
      (hf : f ≠ .shutdown) (hl : leaseOf w.db j.id = some j.lease)
      (hc : Changed .requeued w.db db j.id ∨ Changed .failed w.db db j.id) : Rowwise w (.handle p now) db
  | handBack {p : π} {now : Time} {j : Job ι} {db : Db ι ρ} (hp : w.phase p = .handling j .shutdown)
      (hl : leaseOf w.db j.id = some j.lease) (hr : releaseClaim now w.db j.id j.lease.startedAt = (true, db)) :
      Rowwise w (.handle p now) db

theorem rowwise_handleFault {w : World ι π ρ} (hi : Inv w) {p : π} (now : Time) {j : Job ι} {f : Fault}
    (hp : w.phase p = .handling j f) : Rowwise w (.handle p now) (handleFault now w.db j f) := by
  cases f with
  | error category text retryable freshBudget =>
    rw [handleFault]
    split
    · rename_i r db' hok
      exact .handle hp nofun (leaseOf_failOrRetry hok).1 (changed_failOrRetry hok)
    · exact .same _ (by simp only [handedBack, hp])
  | shutdown =>
    unfold handleFault
    cases hr : releaseClaim now w.db j.id j.lease.startedAt with
    | mk released db' =>
      cases released with
      | true =>
        -- the clock value alone names the claim
        obtain ⟨⟨b, hb⟩, -⟩ := leaseOf_releaseClaim hr
        refine .handBack hp ?_ hr
        rw [hb, hi.agrees p j ⟨b, j.lease.startedAt⟩ (by rw [hp]; rfl) hb rfl]
      | false =>
        rw [releaseClaim_false hr]
        exact .same _ (by simp [handedBack, hp, hr])
  | abort => exact .same _ (by simp only [handedBack, hp])

theorem rowwise_step {w w' : World ι π ρ} (a : Action ι π ρ) (hi : Inv w) (h : step w a = some w') :
    Rowwise w a w'.db := by
  cases a with
  | enqueue id tenantId operation idempotencyKey submittedBy acl request now =>
    simp only [step] at h
    split at h
    · rename_i o db' hok
      obtain rfl := Option.some.inj h
      cases o with
      | none =>
        rw [show ({ w with db := db' } : World ι π ρ).db = w.db from insert_eq_nothing hok]
        exact .same _ rfl
      | some q =>
        obtain ⟨-, rfl, hnone, -⟩ := insert_eq_ok hok
        exact .enqueue hnone
    · obtain rfl := Option.some.inj h
      exact .same _ rfl
  | retry id now =>
    simp only [step] at h
    split at h
    · rename_i r db' hok
      obtain rfl := Option.some.inj h
      exact .retry hok
    · obtain rfl := Option.some.inj h
      exact .same _ rfl
  | sweep p now timeout batch rows =>
    simp only [step] at h
    split at h
    · obtain ⟨db', hdb, rfl⟩ := Option.map_eq_some_iff.mp h
      exact .sweep hdb
    · cases h
  | claim p id now clock budget =>
    simp only [step] at h
    split at h
    · split at h
      · cases h
      · obtain ⟨c, hc, rfl⟩ := Option.map_eq_some_iff.mp h
        exact .claim hc
    · cases h
  | extract p extraction =>
    simp only [step] at h
    split at h
    · rename_i j base hp
      obtain rfl := Option.some.inj h
      rcases changed_recordExtraction w.db j.id extraction with hsame | hc
      · show Rowwise w _ (recordExtraction w.db j.id extraction)
        rw [hsame]
        exact .same _ rfl
      · exact .extract hc
    · cases h
  | finish p now =>
    simp only [step] at h
    split at h
    · rename_i j r hp
      obtain rfl := Option.some.inj h
      split
      · rename_i row db' hok
        exact .finish hp (leaseOf_finishLanded hok).1 (changed_finishLanded hok)
      · exact .same _ rfl
    · cases h
  | publish p sha =>
    simp only [step] at h
    split at h
    · split at h
      · obtain rfl := Option.some.inj h
        exact .same _ rfl
      · cases h
    · cases h
  | noChange p d =>
    simp only [step] at h
    split at h
    · split at h
      · obtain rfl := Option.some.inj h
        exact .same _ rfl
      · cases h
    · cases h
  | raise p f =>
    simp only [step] at h
    split at h
    · cases h
    · obtain ⟨j, hj, rfl⟩ := Option.map_eq_some_iff.mp h
      exact .same _ rfl
  | handle p now =>
    simp only [step] at h
    split at h
    · rename_i j f hp
      obtain rfl := Option.some.inj h
      exact rowwise_handleFault hi now hp
    · cases h
  | environment | foreign | crash =>
    obtain rfl := Option.some.inj h
    exact .same _ rfl
  | trySweep | endSweep | noClaim | tryLock | readBase | reconcile | clear | record | unlock =>
    simp only [step] at h
    split at h
    · obtain rfl := Option.some.inj h
      exact .same _ rfl
    · cases h

/-- how the process `q` comes to a phase -/
inductive Goes (w : World ι π ρ) (q : π) : Action ι π ρ → Phase ι → Prop where
  | stays (a : Action ι π ρ) : Goes w q a (w.phase q)
  | rests {a : Action ι π ρ} {ph : Phase ι} (h : ph.job = none) : Goes w q a ph
  | claims {id : ι} {now clock : Time} {budget : ℕ} {r : Row ρ} {db : Db ι ρ}
      (hdb : claimNext w.env now clock budget w.db id = some (r, db)) :
      Goes w q (.claim q id now clock budget) (.claimed ⟨id, r.operation, ⟨r.attempts, clock⟩⟩)
  | waits {a : Action ι π ρ} {j : Job ι} {ph : Phase ι} (h : (w.phase q).waiting = some j)
      (h' : ph.waiting = some j) : Goes w q a ph
  | files {d : Details} {j : Job ι} {base : List (Commit ι)} (hp : w.phase q = .based j base)
      (hnone : recover base j.id = none) (hfew : j.lease.attempts ≤ DEFAULT_MAX_ATTEMPTS) :
      Goes w q (.reconcile q d) (.filing j base)
  | writes {a : Action ι π ρ} {j : Job ι} {ph : Phase ι} (h : (w.phase q).writes = some j)
      (h' : ph.writes = some j) : Goes w q a ph
  | recovers {d : Details} {j : Job ι} {base : List (Commit ι)} {c : Commit ι} (hp : w.phase q = .based j base)
      (hc : recover base j.id = some c) : Goes w q (.reconcile q d) (.returned j ⟨c.sha, d⟩)
  | wrote {a : Action ι π ρ} {j : Job ι} (r : WriteResult) (h : (w.phase q).writes = some j) :
      Goes w q a (.returned j r)
  | brings {a : Action ι π ρ} {j : Job ι} {r : WriteResult} (h : (w.phase q).brings = some (j, r)) :
      Goes w q a (.finishing j r)
  | handles {a : Action ι π ρ} {j : Job ι} (f : Fault) (h : (w.phase q).job = some j) :
      Goes w q a (.handling j f)

theorem Goes.move {w : World ι π ρ} {a : Action ι π ρ} {p : π} {ph : Phase ι} (h : Goes w p a ph) (db : Db ι ρ)
    (q : π) : Goes w q a ((w.move db p ph).phase q) := by
  by_cases hq : q = p
  · subst hq
    rw [move_phase_self]
    exact h
  · rw [move_phase_ne w db ph hq]
    exact .stays a

theorem goes_step {w w' : World ι π ρ} (a : Action ι π ρ) (h : step w a = some w') (q : π) :
    Goes w q a (w'.phase q) := by
  cases a with
  | enqueue | retry =>
    simp only [step] at h
    split at h
    · obtain rfl := Option.some.inj h
      exact .stays _
    · obtain rfl := Option.some.inj h
      exact .stays _
  | environment | foreign =>
    obtain rfl := Option.some.inj h
    exact .stays _
  | crash p =>
    obtain rfl := Option.some.inj h
    exact Goes.move (.rests rfl) w.db q
  | trySweep p =>
    simp only [step] at h
    split at h
    · obtain rfl := Option.some.inj h
      refine Goes.move (.rests ?_) w.db q
      split <;> rfl
    · cases h
  | sweep p now timeout batch rows =>
    simp only [step] at h
    split at h
    · obtain ⟨db', hdb, rfl⟩ := Option.map_eq_some_iff.mp h
      exact Goes.move (.rests rfl) w.db q
    · cases h
  | endSweep p =>
    simp only [step] at h
    split at h
    · obtain rfl := Option.some.inj h
      exact Goes.move (.rests rfl) w.db q
    · cases h
  | claim p id now clock budget =>
    simp only [step] at h
    split at h
    · split at h
      · cases h
      · obtain ⟨⟨r, db⟩, hc, rfl⟩ := Option.map_eq_some_iff.mp h
        exact Goes.move (.claims hc) db q
    · cases h
  | noClaim p =>
    simp only [step] at h
    split at h
    · obtain rfl := Option.some.inj h
      exact Goes.move (.rests rfl) w.db q
    · cases h
  | tryLock p =>
    simp only [step] at h
    split at h
    · rename_i j hp
      obtain rfl := Option.some.inj h
      refine Goes.move ?_ w.db q
      split
      · exact .waits (by rw [hp]; rfl) rfl
      · exact .handles _ (by rw [hp]; rfl)
    · cases h
  | readBase p =>
    simp only [step] at h
    split at h
    · rename_i j hp
      obtain rfl := Option.some.inj h
      exact Goes.move (.waits (by rw [hp]; rfl) rfl) w.db q
    · cases h
  | reconcile p d =>
    simp only [step] at h
    split at h
    · rename_i j base hp
      obtain rfl := Option.some.inj h
      refine Goes.move ?_ w.db q
      split
      · rename_i c hc
        exact .recovers hp hc
      · rename_i hnone
        split
        · exact .handles _ (by rw [hp]; rfl)
        · rename_i hfew
          exact .files hp hnone (Nat.le_of_not_lt hfew)
    · cases h
  | extract p extraction =>
    simp only [step] at h
    split at h
    · rename_i j base hp
      obtain rfl := Option.some.inj h
      exact Goes.move (.writes (by rw [hp]; rfl) rfl) w.db q
    · cases h
  | clear p =>
    simp only [step] at h
    split at h
    · rename_i j base hp
      obtain rfl := Option.some.inj h
      refine Goes.move ?_ w.db q
      split
      · exact .writes (by rw [hp]; rfl) rfl
      · exact .handles _ (by rw [hp]; rfl)
    · cases h
  | publish p sha =>
    simp only [step] at h
    split at h
    · rename_i j base hp
      split at h
      · obtain rfl := Option.some.inj h
        exact Goes.move (.writes (by rw [hp]; rfl) rfl) w.db q
      · cases h
    · cases h
  | noChange p d =>
    simp only [step] at h
    split at h
    · rename_i j base hp
      split at h
      · obtain rfl := Option.some.inj h
        exact Goes.move (.wrote _ (by rw [hp]; rfl)) w.db q
      · cases h
    · cases h
  | record p d =>
    simp only [step] at h
    split at h
    · rename_i j c hp
      obtain rfl := Option.some.inj h
      exact Goes.move (.wrote _ (by rw [hp]; rfl)) w.db q
    · cases h
  | unlock p =>
    simp only [step] at h
    split at h
    · rename_i j r hp
      obtain rfl := Option.some.inj h
      exact Goes.move (.brings (by rw [hp]; rfl)) w.db q
    · cases h
  | finish p now =>
    simp only [step] at h
    split at h
    · obtain rfl := Option.some.inj h
      exact Goes.move (.rests rfl) w.db q
    · cases h
  | raise p f =>
    simp only [step] at h
    split at h
    · cases h
    · obtain ⟨j, hj, rfl⟩ := Option.map_eq_some_iff.mp h
      exact Goes.move (.handles _ hj) w.db q
  | handle p now =>
    simp only [step] at h
    split at h
    · obtain rfl := Option.some.inj h
      exact Goes.move (.rests rfl) w.db q
    · cases h

/-- the history only grows -/
theorem log_step {w w' : World ι π ρ} (a : Action ι π ρ) (h : step w a = some w') : w.log ⊆ w'.log := by
  cases a with
  | foreign sha =>
    obtain rfl := Option.some.inj h
    exact List.subset_cons_self ⟨sha, none⟩ w.log
  | publish p sha =>
    simp only [step] at h
    split at h
    · rename_i j base hp
      split at h
      · obtain rfl := Option.some.inj h
        exact List.subset_cons_self ⟨sha, some j.id⟩ w.log
      · cases h
    · cases h
  | environment | crash =>
    obtain rfl := Option.some.inj h
    exact List.Subset.refl w.log
  | claim p id now clock budget =>
    simp only [step] at h
    split at h
    · split at h
      · cases h
      · obtain ⟨c, hc, rfl⟩ := Option.map_eq_some_iff.mp h
        exact List.Subset.refl w.log
    · cases h
  | sweep p now timeout batch rows =>
    simp only [step] at h
    split at h
    · obtain ⟨db', hdb, rfl⟩ := Option.map_eq_some_iff.mp h
      exact List.Subset.refl w.log
    · cases h
  | noChange p d =>
    simp only [step] at h
    split at h
    · split at h
      · obtain rfl := Option.some.inj h
        exact List.Subset.refl w.log
      · cases h
    · cases h
  | raise p f =>
    simp only [step] at h
    split at h
    · cases h
    · obtain ⟨j, hj, rfl⟩ := Option.map_eq_some_iff.mp h
      exact List.Subset.refl w.log
  | enqueue | retry =>
    simp only [step] at h
    split at h
    · obtain rfl := Option.some.inj h
      exact List.Subset.refl w.log
    · obtain rfl := Option.some.inj h
      exact List.Subset.refl w.log
  | trySweep | endSweep | noClaim | tryLock | readBase | reconcile | extract | clear | record | unlock | finish
  | handle =>
    simp only [step] at h
    split at h
    · obtain rfl := Option.some.inj h
      exact List.Subset.refl w.log
    · cases h

/-! ## every row of a run -/

theorem sound_rowwise {w : World ι π ρ} {a : Action ι π ρ} {db : Db ι ρ} (hs : Sound w.db)
    (h : Rowwise w a db) : Sound db := by
  cases h with
  | same => exact hs
  | enqueue hnone =>
    intro k r hr
    rw [Table.lookup_insert_eq] at hr
    split at hr
    · rw [← Option.some.inj hr]
      exact ok_insertRow ..
    · exact hs k r hr
  | retry hok => exact hs.becomes (changed_retryFailed hok).becomes
  | sweep hdb => exact hs.becomes (becomes_releaseExpired hdb)
  | claim hdb => exact hs.becomes (changed_claimNext hdb).2.becomes
  | extract hc => exact hs.becomes hc.becomes
  | finish hp hl hc => exact hs.becomes hc.becomes
  | handle hp hf hl hc =>
    rcases hc with hc | hc
    · exact hs.becomes hc.becomes
    · exact hs.becomes hc.becomes
  | handBack hp hl hr => exact hs.becomes (changed_releaseClaim hr).becomes

/-! ## the third attempt -/

/-- a commit of the branch that names the item -/
def Published (log : List (Commit ι)) (id : ι) (sha : Text) : Prop :=
  ∃ c ∈ log, c.operation = some id ∧ c.sha = sha

/-- a third attempt writes nothing, and brings or has brought a commit there is -/
structure Thirds (w : World ι π ρ) : Prop where
  writes : ∀ p j, (w.phase p).writes = some j → j.lease.attempts ≤ DEFAULT_MAX_ATTEMPTS
  brings : ∀ p j r, (w.phase p).brings = some (j, r) → DEFAULT_MAX_ATTEMPTS < j.lease.attempts →
    Published w.log j.id r.commitSha
  landed : ∀ id r, w.db.lookup id = some r → r.status = .landed → DEFAULT_MAX_ATTEMPTS < r.attempts →
    Published w.log id r.commitSha

theorem Published.mono {log log' : List (Commit ι)} {id : ι} {sha : Text} (h : Published log id sha)
    (hsub : log ⊆ log') : Published log' id sha := by
  obtain ⟨c, hc, hop, hsha⟩ := h
  exact ⟨c, hsub hc, hop, hsha⟩

theorem published_of_recover {log : List (Commit ι)} {id : ι} {c : Commit ι} (h : recover log id = some c) :
    Published log id c.sha := by
  have hop : (c.operation == some id) = true :=
    List.find?_some (p := fun e : Commit ι => e.operation == some id) h
  exact ⟨c, List.mem_of_find?_eq_some h, beq_iff_eq.mp hop, rfl⟩

theorem thirds_init (env : Env) : Thirds (init env : World ι π ρ) where
  writes := nofun
  brings := nofun
  landed := fun _ _ h => nomatch h

theorem Phase.writes_of_waiting {ph : Phase ι} {j : Job ι} (h : ph.waiting = some j) : ph.writes = none := by
  cases ph with
  | claimed | locked | based => rfl
  | _ => exact nomatch h

theorem Phase.brings_of_waiting {ph : Phase ι} {j : Job ι} (h : ph.waiting = some j) : ph.brings = none := by
  cases ph with
  | claimed | locked | based => rfl
  | _ => exact nomatch h

theorem Phase.brings_of_writes {ph : Phase ι} {j : Job ι} (h : ph.writes = some j) : ph.brings = none := by
  cases ph with
  | filing | cleared | published => rfl
  | _ => exact nomatch h

theorem writes_step {w w' : World ι π ρ} (a : Action ι π ρ) (ht : Thirds w) (h : step w a = some w') (q : π)
    {j : Job ι} (hj : (w'.phase q).writes = some j) : j.lease.attempts ≤ DEFAULT_MAX_ATTEMPTS := by
  have hg := goes_step a h q
  generalize w'.phase q = ph at hg hj
  cases hg with
  | stays => exact ht.writes q j hj
  | rests hrest => rw [Phase.job_of_writes hj] at hrest; exact nomatch hrest
  | waits hw hw' => rw [Phase.writes_of_waiting hw'] at hj; exact nomatch hj
  | files hp hnone hfew => rw [← Option.some.inj hj]; exact hfew
  | writes hw hw' =>
    rw [← Option.some.inj (hw'.symm.trans hj)]
    exact ht.writes q _ hw
  | claims | recovers | wrote | brings | handles => exact nomatch hj

theorem brings_step {w w' : World ι π ρ} (a : Action ι π ρ) (hi : Inv w) (ht : Thirds w)
    (h : step w a = some w') (q : π) {j : Job ι} {r : WriteResult} (hj : (w'.phase q).brings = some (j, r))
    (hthird : DEFAULT_MAX_ATTEMPTS < j.lease.attempts) : Published w'.log j.id r.commitSha := by
  have hg := goes_step a h q
  have hlog := log_step a h
  generalize w'.phase q = ph at hg hj
  cases hg with
  | stays => exact (ht.brings q j r hj hthird).mono hlog
  | rests hrest => rw [Phase.job_of_brings hj] at hrest; exact nomatch hrest
  | waits hw hw' => rw [Phase.brings_of_waiting hw'] at hj; exact nomatch hj
  | writes hw hw' => rw [Phase.brings_of_writes hw'] at hj; exact nomatch hj
  | recovers hp hc =>
    obtain ⟨rfl, rfl⟩ := Prod.mk.inj (Option.some.inj hj)
    -- the base knows the commits of the item the branch has
    have hfine := hi.fine q
    rw [hp] at hfine
    exact (published_of_recover (hfine.symm.trans hc)).mono hlog
  | wrote r' hw =>
    obtain ⟨rfl, rfl⟩ := Prod.mk.inj (Option.some.inj hj)
    exact absurd (ht.writes q _ hw) (Nat.not_le_of_lt hthird)
  | brings hb =>
    obtain ⟨rfl, rfl⟩ := Prod.mk.inj (Option.some.inj hj)
    exact (ht.brings q _ _ hb hthird).mono hlog
  | claims | files | handles => exact nomatch hj

/-- a row that is landed after a change which lands none -/
theorem landed_changed {log : List (Commit ι)} {k : Kind} {db db' : Db ι ρ} {i : ι} (hc : Changed k db db' i)
    (hk : ∀ sha, k ≠ .landed sha)
    (ht : ∀ id r, db.lookup id = some r → r.status = .landed → DEFAULT_MAX_ATTEMPTS < r.attempts →
      Published log id r.commitSha) {id : ι} {r : Row ρ} (hr : db'.lookup id = some r) (hs : r.status = .landed)
    (hthird : DEFAULT_MAX_ATTEMPTS < r.attempts) : Published log id r.commitSha := by
  obtain ⟨p, p', hp, hch, rfl⟩ := hc
  rw [Table.lookup_insert_eq] at hr
  split at hr
  · rename_i hid
    obtain rfl := Option.some.inj hr
    obtain ⟨hps, ha, hcommit⟩ := hch.landed_of hk hs
    rw [hid, hcommit]
    exact ht i p hp hps (by rw [← ha]; exact hthird)
  · exact ht id r hr hs hthird

theorem landed_step {w : World ι π ρ} {a : Action ι π ρ} {db : Db ι ρ} (ht : Thirds w)
    (h : Rowwise w a db) {id : ι} {r : Row ρ} (hr : db.lookup id = some r) (hs : r.status = .landed)
    (hthird : DEFAULT_MAX_ATTEMPTS < r.attempts) : Published w.log id r.commitSha := by
  cases h with
  | same => exact ht.landed id r hr hs hthird
  | enqueue hnone =>
    rw [Table.lookup_insert_eq] at hr
    split at hr
    · rw [← Option.some.inj hr] at hs
      exact nomatch hs
    · exact ht.landed id r hr hs hthird
  | retry hok => exact landed_changed (changed_retryFailed hok) nofun ht.landed hr hs hthird
  | sweep hdb =>
    rcases lookup_releaseExpired hdb id with hsame | ⟨q, hq, hexp, hq'⟩
    · exact ht.landed id r (hsame ▸ hr) hs hthird
    · rw [hq'] at hr
      rw [← Option.some.inj hr, expire_status] at hs
      split at hs <;> exact nomatch hs
  | claim hdb => exact landed_changed (changed_claimNext hdb).2 nofun ht.landed hr hs hthird
  | extract hc => exact landed_changed hc nofun ht.landed hr hs hthird
  | @finish p now j res db hp hl hc =>
    obtain ⟨q, q', hq, hch, rfl⟩ := hc
    rw [Table.lookup_insert_eq] at hr
    split at hr
    · rename_i hid
      obtain rfl := Option.some.inj hr
      cases hch with
      | landed was status attempts lease finish budget commit =>
        -- the row that lands has the attempts of the lease it lands under
        rw [leaseOf_of_lookup hq] at hl
        have hla := (of_fenced (fenced_iff.mpr hl)).2.1
        rw [hid, commit]
        exact ht.brings p j res (by rw [hp]; rfl) (by rw [← hla, ← attempts]; exact hthird)
    · exact ht.landed id r hr hs hthird
  | handle hp hf hl hc =>
    rcases hc with hc | hc
    · exact landed_changed hc nofun ht.landed hr hs hthird
    · exact landed_changed hc nofun ht.landed hr hs hthird
  | handBack hp hl hback => exact landed_changed (changed_releaseClaim hback) nofun ht.landed hr hs hthird

theorem thirds_step {w w' : World ι π ρ} (a : Action ι π ρ) (hi : Inv w) (ht : Thirds w)
    (h : step w a = some w') : Thirds w' where
  writes := fun q _ hj => writes_step a ht h q hj
  brings := fun q _ _ hj hthird => brings_step a hi ht h q hj hthird
  landed := fun _ _ hr hs hthird =>
    (landed_step ht (rowwise_step a hi h) hr hs hthird).mono (log_step a h)

end

end Writers

namespace Filings

open Queue Writers

def CAPTURE_TIMEOUT_S : ℕ := 180
def GATE_BUDGET_S : ℕ := 120
def VISIBILITY_HEADROOM_S : ℕ := 180

def operationBudgetS (timeoutS : ℕ) : ℕ := CAPTURE_TIMEOUT_S + timeoutS + GATE_BUDGET_S

def minimumVisibilityTimeoutS (timeoutS : ℕ) : ℕ := operationBudgetS timeoutS + VISIBILITY_HEADROOM_S

/-- settings that pass `check_domains` -/
structure Settings where
  timeoutS : ℕ
  visibilityTimeoutS : ℕ
  positive : 1 ≤ timeoutS
  /-- "visibility timeout must outlive one writer operation" -/
  outlives : minimumVisibilityTimeoutS timeoutS ≤ visibilityTimeoutS

section
variable (ι π ρ : Type*)

structure State where
  world : World ι π ρ
  /-- the clock of the database -/
  time : Time
  /-- `budget_deadline_at` of the item a process claimed last -/
  deadline : π → Option Time
  /-- the leases an item was filed from scratch under since its last retry, less those handed back -/
  filings : ι → List Lease

inductive Action where
  | tick (d : ℕ)
  /-- an action of the queue or of a process whose own clock shows `reading` -/
  | act (a : Writers.Action ι π ρ) (reading : Time)

end

section
variable {ι π ρ : Type*} [DecidableEq ι] [DecidableEq π]

def init (env : Env) : State ι π ρ where
  world := Writers.init env
  time := 0
  deadline := fun _ => none
  filings := fun _ => []

/-- the clocks and settings an action can have: `now()` is the start of a transaction, a claim reads
`clock_timestamp()`, and the clock of a process is behind by less than the headroom -/
def timely (S : Settings) (time reading : Time) : Writers.Action ι π ρ → Bool
  | .sweep _ now visibilityTimeoutS _ _ => decide (now ≤ time) && visibilityTimeoutS == S.visibilityTimeoutS
  | .claim _ _ _ clock budget => clock == time && budget == operationBudgetS S.timeoutS
  | .reconcile _ _ => decide (time ≤ reading + seconds VISIBILITY_HEADROOM_S)
  | _ => true

/-- `hard_deadline(_remaining_operation_budget_s(item))` raises before the operation begins -/
def exhausted (deadline : Option Time) (reading : Time) : Bool := deadline.all fun t => decide (t ≤ reading)

/-- the action of a process that looks at its budget before it files -/
def within (w : World ι π ρ) (deadline : π → Option Time) (reading : Time) :
    Writers.Action ι π ρ → Writers.Action ι π ρ
  | .reconcile p d =>
    match w.phase p with
    | .based j base =>
      if (recover base j.id).isNone && decide (j.lease.attempts ≤ DEFAULT_MAX_ATTEMPTS) &&
          exhausted (deadline p) reading
      then .raise p writerDeadline
      else .reconcile p d
    | _ => .reconcile p d
  | a => a

def deadlineAfter (db : Db ι ρ) (deadline : π → Option Time) : Writers.Action ι π ρ → π → Option Time
  | .claim p id _ _ _ => Function.update deadline p ((db.lookup id).bind Row.budgetDeadlineAt)
  | _ => deadline

/-- a filing is counted when it begins, not when its claim is handed back, and from the last retry on -/
def filingsAfter (w w' : World ι π ρ) (filings : ι → List Lease) : Writers.Action ι π ρ → ι → List Lease
  | .retry id now =>
    match retryFailed now w.db id with
    | .ok _ => Function.update filings id []
    | .error _ => filings
  | .reconcile p _ =>
    match w'.phase p with
    | .filing j _ => Function.update filings j.id (filings j.id ++ [j.lease])
    | _ => filings
  | .handle p now =>
    match handedBack w (.handle p now) with
    | some j => Function.update filings j.id ((filings j.id).erase j.lease)
    | none => filings
  | _ => filings

def step (S : Settings) (s : State ι π ρ) : Action ι π ρ → Option (State ι π ρ)
  | .tick d => some { s with time := s.time + d }
  | .act a reading =>
    if timely S s.time reading a then
      (Writers.step s.world (within s.world s.deadline reading a)).map fun w =>
        { s with
          world := w
          deadline := deadlineAfter w.db s.deadline a
          filings := filingsAfter s.world w s.filings a }
    else none

/-! ## the filings of one item -/

/-- what is counted of an item: claims under different attempts, the first or the second, none after the
attempts of the row, and of the claim in force only that one -/
structure Tally (o : Option (Row ρ)) (ls : List Lease) : Prop where
  distinct : (ls.map Lease.attempts).Nodup
  early : ∀ l ∈ ls, 1 ≤ l.attempts ∧ l.attempts ≤ DEFAULT_MAX_ATTEMPTS
  past : ∀ l ∈ ls, ∃ r, o = some r ∧ l.attempts ≤ r.attempts ∧
    ∀ k, r.lease = some k → l.attempts = k.attempts → l = k

theorem Tally.nil (o : Option (Row ρ)) : Tally o [] where
  distinct := List.nodup_nil
  early := fun _ hl => nomatch hl
  past := fun _ hl => nomatch hl

/-- the attempts are distinct and one of two -/
theorem Tally.length_le {o : Option (Row ρ)} {ls : List Lease} (h : Tally o ls) : ls.length ≤ 2 := by
  have hsub : ls.map Lease.attempts ⊆ [1, 2] := by
    intro n hn
    obtain ⟨l, hl, rfl⟩ := List.mem_map.mp hn
    obtain ⟨hpos, hfew⟩ := h.early l hl
    rw [List.mem_cons, List.mem_singleton]
    unfold DEFAULT_MAX_ATTEMPTS at hfew
    omega
  have hlen := (List.subperm_of_subset h.distinct hsub).length_le
  rwa [List.length_map] at hlen

/-- a row that moves on: no fewer attempts, and a lease in force is the old one or a later attempt -/
theorem Tally.later {r r' : Row ρ} {ls : List Lease} (h : Tally (some r) ls) (ha : r.attempts ≤ r'.attempts)
    (hl : ∀ k, r'.lease = some k → r.lease = some k ∨ r.attempts < k.attempts) : Tally (some r') ls where
  distinct := h.distinct
  early := h.early
  past := fun l hmem => by
    obtain ⟨q, hq, hle, hcur⟩ := h.past l hmem
    obtain rfl := Option.some.inj hq
    refine ⟨r', rfl, Nat.le_trans hle ha, fun k hk heq => ?_⟩
    rcases hl k hk with hsame | hlt
    · exact hcur k hsame heq
    · omega

theorem lease_of_some {r : Row ρ} {k : Lease} (h : r.lease = some k) :
    r.status = .processing ∧ r.attempts = k.attempts ∧ r.leaseStartedAt = some k.startedAt :=
  of_fenced (fenced_iff.mpr h)

/-- every change but a hand-back and a retry -/
theorem Tally.change {k : Kind} {r r' : Row ρ} {ls : List Lease} (h : Tally (some r) ls) (hc : Change k r r')
    (hk : k ≠ .handedBack) (hk' : k ≠ .retried) : Tally (some r') ls := by
  cases hc with
  | kept status attempts lease =>
    refine h.later (Nat.le_of_eq attempts.symm) fun l hl => Or.inl ?_
    rw [← hl]
    unfold Row.lease
    rw [status, attempts, lease]
  | claimed was status attempts lease =>
    refine h.later (by rw [attempts]; exact Nat.le_succ _) fun l hl => Or.inr ?_
    rw [← (lease_of_some hl).2.1, attempts]
    exact Nat.lt_succ_self _
  | requeued was few status attempts =>
    refine h.later (Nat.le_of_eq attempts.symm) fun l hl => ?_
    rw [lease_of_status status nofun] at hl
    exact nomatch hl
  | landed was status attempts =>
    refine h.later (Nat.le_of_eq attempts.symm) fun l hl => ?_
    rw [lease_of_status status nofun] at hl
    exact nomatch hl
  | failed was status attempts =>
    refine h.later (Nat.le_of_eq attempts.symm) fun l hl => ?_
    rw [lease_of_status status nofun] at hl
    exact nomatch hl
  | handedBack => exact absurd rfl hk
  | retried => exact absurd rfl hk'

theorem Tally.nodup {o : Option (Row ρ)} {ls : List Lease} (h : Tally o ls) : ls.Nodup :=
  List.Nodup.of_map Lease.attempts h.distinct

/-- the claim handed back is the one in force, so the others have fewer attempts -/
theorem Tally.handedBack {r r' : Row ρ} {l : Lease} {ls : List Lease} (h : Tally (some r) ls)
    (hc : Change .handedBack r r') (hl : r.lease = some l) : Tally (some r') (ls.erase l) := by
  cases hc with
  | handedBack was status attempts lease =>
    refine ⟨h.distinct.sublist (List.Sublist.map _ List.erase_sublist),
      fun k hk => h.early k (List.mem_of_mem_erase hk), fun k hk => ?_⟩
    obtain ⟨hne, hmem⟩ := h.nodup.mem_erase_iff.mp hk
    obtain ⟨q, hq, hle, hcur⟩ := h.past k hmem
    obtain rfl := Option.some.inj hq
    refine ⟨r', rfl, ?_, fun m hm => ?_⟩
    · have hlt : k.attempts ≠ l.attempts := fun heq => hne (hcur l hl heq)
      have hla := (lease_of_some hl).2.1
      rw [attempts]
      omega
    · rw [lease_of_status status nofun] at hm
      exact nomatch hm

theorem Tally.files {r : Row ρ} {l : Lease} {ls : List Lease} (h : Tally (some r) ls) (hl : r.lease = some l)
    (hpos : 1 ≤ l.attempts) (hfew : l.attempts ≤ DEFAULT_MAX_ATTEMPTS) (hnew : l ∉ ls) :
    Tally (some r) (ls ++ [l]) := by
  have happ : ∀ k ∈ ls ++ [l], k ∈ ls ∨ k = l := fun k hk => by
    rwa [List.mem_append, List.mem_singleton] at hk
  refine ⟨?_, ?_, ?_⟩
  · rw [List.map_append, List.map_cons, List.map_nil]
    refine List.Nodup.append h.distinct (List.nodup_singleton _) ?_
    intro n hn hn'
    obtain ⟨k, hk, rfl⟩ := List.mem_map.mp hn
    obtain ⟨q, hq, -, hcur⟩ := h.past k hk
    obtain rfl := Option.some.inj hq
    rw [hcur l hl (List.mem_singleton.mp hn')] at hk
    exact hnew hk
  · intro k hk
    rcases happ k hk with hmem | rfl
    · exact h.early k hmem
    · exact ⟨hpos, hfew⟩
  · intro k hk
    rcases happ k hk with hmem | rfl
    · exact h.past k hmem
    · refine ⟨r, rfl, Nat.le_of_eq (lease_of_some hl).2.1.symm, fun m hm _ => ?_⟩
      exact Option.some.inj (hl.symm.trans hm)

theorem Tally.changed {k : Kind} {db db' : Db ι ρ} {i : ι} {f : ι → List Lease}
    (h : ∀ id, Tally (db.lookup id) (f id)) (hc : Changed k db db' i) (hk : k ≠ .handedBack) (hk' : k ≠ .retried)
    (id : ι) : Tally (db'.lookup id) (f id) := by
  obtain ⟨r, r', hr, hch, rfl⟩ := hc
  rw [Table.lookup_insert_eq]
  by_cases hid : id = i
  · subst hid
    rw [if_pos rfl]
    have ht := h id
    rw [hr] at ht
    exact ht.change hch hk hk'
  · rw [if_neg hid]
    exact h id

/-! ## the invariant -/

/-- what holds in every state -/
structure Counted (S : Settings) (s : State ι π ρ) : Prop where
  inv : Inv s.world
  sound : Sound s.world.db
  thirds : Thirds s.world
  /-- no deadline is further ahead than one budget -/
  budget : ∀ id r t, s.world.db.lookup id = some r → r.budgetDeadlineAt = some t →
    t ≤ s.time + seconds (operationBudgetS S.timeoutS)
  deadline : ∀ p j t, (s.world.phase p).job = some j → s.deadline p = some t →
    t ≤ j.lease.startedAt + seconds (operationBudgetS S.timeoutS)
  /-- a claim that has not begun to write is in force and not counted, or its lease has expired -/
  waiting : ∀ p j, (s.world.phase p).waiting = some j →
    (leaseOf s.world.db j.id = some j.lease ∧ j.lease ∉ s.filings j.id) ∨
      j.lease.startedAt + seconds S.visibilityTimeoutS < s.time
  tally : ∀ id, Tally (s.world.db.lookup id) (s.filings id)

theorem counted_init (S : Settings) (env : Env) : Counted S (init env : State ι π ρ) where
  inv := inv_init env
  sound := sound_empty
  thirds := thirds_init env
  budget := fun _ _ _ h => nomatch h
  deadline := nofun
  waiting := nofun
  tally := fun _ => Tally.nil _

theorem Counted.tick {S : Settings} {s : State ι π ρ} (h : Counted S s) (d : ℕ) :
    Counted S { s with time := s.time + d } where
  inv := h.inv
  sound := h.sound
  thirds := h.thirds
  budget := fun id r t hr ht =>
    Nat.le_trans (h.budget id r t hr ht) (Nat.add_le_add_right (Nat.le_add_right s.time d) _)
  deadline := h.deadline
  waiting := fun p j hj => by
    rcases h.waiting p j hj with hin | hlate
    · exact Or.inl hin
    · exact Or.inr (Nat.lt_of_lt_of_le hlate (Nat.le_add_right s.time d))
  tally := h.tally

/-! ## one action -/

/-- the lease of a claim that waits ends by a sweep only, after its timeout -/
theorem lease_kept {w : World ι π ρ} {a : Writers.Action ι π ρ} {db : Db ι ρ} (hi : Inv w) (h : Rowwise w a db)
    {q : π} {k : Job ι} (hq : (w.phase q).waiting = some k) (hl : leaseOf w.db k.id = some k.lease) :
    leaseOf db k.id = some k.lease ∨ ∃ p now timeout batch rows,
      a = .sweep p now timeout batch rows ∧ k.lease.startedAt + seconds timeout < now := by
  have hapart : ∀ p j, (w.phase p).job = some j → (w.phase p).waiting = none →
      leaseOf w.db j.id = some j.lease → k.id ≠ j.id := by
    intro p j hj hnone hlj hid
    rw [hid, hlj] at hl
    obtain rfl := hi.unique q p k j (Phase.job_of_waiting hq) hj hid (by rw [Option.some.inj hl])
    rw [hq] at hnone
    exact nomatch hnone
  cases h with
  | same => exact Or.inl hl
  | @enqueue id _ _ _ _ _ _ _ hnone =>
    left
    rw [leaseOf_insert, if_neg, hl]
    rintro rfl
    rw [leaseOf, hnone] at hl
    exact nomatch hl
  | retry hok => rw [leaseOf_retryFailed hok]; exact Or.inl hl
  | @sweep p now timeout batch rows db hdb =>
    rcases lookup_releaseExpired hdb k.id with hsame | ⟨r, hr, hexp, -⟩
    · left
      rw [leaseOf, hsame]
      exact hl
    · right
      rw [leaseOf_of_lookup hr] at hl
      unfold expired at hexp
      rw [(lease_of_some hl).2.2, Option.any_some, Bool.and_eq_true, decide_eq_true_eq] at hexp
      exact ⟨p, now, timeout, batch, rows, rfl, hexp.2⟩
  | claim hdb =>
    obtain ⟨hnone, hlook⟩ := leaseOf_claimNext hdb
    left
    rw [hlook, if_neg, hl]
    rintro hid
    rw [← hid, hl] at hnone
    exact nomatch hnone
  | extract hc =>
    obtain ⟨r, r', hr, hch, rfl⟩ := hc
    cases hch with
    | kept status attempts lease =>
      have hsame : r'.lease = r.lease := by
        unfold Row.lease
        rw [status, attempts, lease]
      rw [leaseOf_insert_same (hsame.trans (leaseOf_of_lookup hr).symm)]
      exact Or.inl hl
  | @finish p now j r db hp hlj hc =>
    obtain ⟨r, r', hr, hch, rfl⟩ := hc
    rw [leaseOf_insert, if_neg (hapart p j (by rw [hp]; rfl) (by rw [hp]; rfl) hlj)]
    exact Or.inl hl
  | @handle p now j f db hp hf hlj hc =>
    left
    rcases hc with ⟨r, r', hr, hch, rfl⟩ | ⟨r, r', hr, hch, rfl⟩
    all_goals
      rw [leaseOf_insert, if_neg (hapart p j (by rw [hp]; rfl) (by rw [hp]; rfl) hlj)]
      exact hl
  | @handBack p now j db hp hlj hr =>
    rw [(leaseOf_releaseClaim hr).2, if_neg (hapart p j (by rw [hp]; rfl) (by rw [hp]; rfl) hlj)]
    exact Or.inl hl

theorem reconcile_files {w w' : World ι π ρ} {p : π} {d : Details} {j : Job ι} {base : List (Commit ι)}
    (h : Writers.step w (.reconcile p d) = some w') (hp : w'.phase p = .filing j base) :
    w'.db = w.db ∧ w.phase p = .based j base ∧ recover base j.id = none ∧
      j.lease.attempts ≤ DEFAULT_MAX_ATTEMPTS := by
  simp only [Writers.step] at h
  split at h
  · rename_i k b hk
    obtain rfl := Option.some.inj h
    rw [move_phase_self] at hp
    refine ⟨rfl, ?_⟩
    split at hp
    · cases hp
    · rename_i hnone
      split at hp
      · cases hp
      · rename_i hfew
        injection hp with hj hb
        subst hj hb
        exact ⟨hk, hnone, Nat.le_of_not_lt hfew⟩
  · cases h

theorem claim_claims {w w' : World ι π ρ} {p : π} {id : ι} {now clock : Time} {budget : ℕ}
    (h : Writers.step w (.claim p id now clock budget) = some w') : ∃ r,
      claimNext w.env now clock budget w.db id = some (r, w'.db) ∧
        w'.phase p = .claimed ⟨id, r.operation, ⟨r.attempts, clock⟩⟩ := by
  simp only [Writers.step] at h
  split at h
  · split at h
    · cases h
    · obtain ⟨⟨r, db⟩, hc, rfl⟩ := Option.map_eq_some_iff.mp h
      exact ⟨r, hc, Function.update_self ..⟩
  · cases h

/-- the action taken is the one asked for, or an empty budget ends it -/
theorem within_cases (w : World ι π ρ) (deadline : π → Option Time) (reading : Time) (a : Writers.Action ι π ρ) :
    within w deadline reading a = a ∨
      ∃ p d, a = .reconcile p d ∧ within w deadline reading a = .raise p writerDeadline := by
  unfold within
  split
  · rename_i p d
    split
    · split
      · exact Or.inr ⟨p, d, rfl, rfl⟩
      · exact Or.inl rfl
    · exact Or.inl rfl
  · exact Or.inl rfl

/-- a claim whose lease has expired has no budget left, whatever the clock of its process shows -/
theorem exhausted_of_expired {S : Settings} {start time reading : Time} {deadline : Option Time}
    (hdeadline : ∀ t, deadline = some t → t ≤ start + seconds (operationBudgetS S.timeoutS))
    (hexp : start + seconds S.visibilityTimeoutS < time)
    (hclock : time ≤ reading + seconds VISIBILITY_HEADROOM_S) : exhausted deadline reading = true := by
  cases deadline with
  | none => rfl
  | some t =>
    have hlate : ∀ b n v x y z u : ℕ, b + n ≤ v → x ≤ y + b * 1000000 → y + v * 1000000 < z →
        z ≤ u + n * 1000000 → x ≤ u := by
      intro b n v x y z u hlives hx hz hu
      omega
    exact decide_eq_true (hlate _ _ _ t start time reading S.outlives (hdeadline t rfl) hexp hclock)

/-- a filing begins under a lease that is in force and was not counted -/
theorem Counted.files {S : Settings} {s : State ι π ρ} {w : World ι π ρ} (h : Counted S s) {reading : Time} {p : π}
    {d : Details} {j : Job ι} {base : List (Commit ι)}
    (htimely : timely S s.time reading (.reconcile p d : Writers.Action ι π ρ) = true)
    (hw : Writers.step s.world (within s.world s.deadline reading (.reconcile p d)) = some w)
    (hp : w.phase p = .filing j base) :
    w.db = s.world.db ∧ s.world.phase p = .based j base ∧ leaseOf s.world.db j.id = some j.lease ∧
      j.lease ∉ s.filings j.id ∧ j.lease.attempts ≤ DEFAULT_MAX_ATTEMPTS := by
  rcases within_cases s.world s.deadline reading (.reconcile p d) with hsame | ⟨q, d', heq, hraise⟩
  · have hwithin := hsame
    rw [hsame] at hw
    obtain ⟨hdb, hbased, hnone, hfew⟩ := reconcile_files hw hp
    refine ⟨hdb, hbased, ?_⟩
    have hwait : (s.world.phase p).waiting = some j := by rw [hbased]; rfl
    rcases h.waiting p j hwait with ⟨hin, hnew⟩ | hlate
    · exact ⟨hin, hnew, hfew⟩
    · exfalso
      have hex := exhausted_of_expired (h.deadline p j · (Phase.job_of_waiting hwait)) hlate
        (of_decide_eq_true htimely)
      simp only [within, hbased, hnone, Option.isNone_none, decide_eq_true hfew, hex, Bool.and_self, if_true]
        at hwithin
      cases hwithin
  · -- the process raised, and files nothing
    injection heq with hpq hd
    subst hpq hd
    rw [hraise] at hw
    simp only [Writers.step] at hw
    split at hw
    · cases hw
    · obtain ⟨k, hk, rfl⟩ := Option.map_eq_some_iff.mp hw
      rw [move_phase_self] at hp
      cases hp

theorem mem_filingsAfter {w w' : World ι π ρ} {f : ι → List Lease} {a : Writers.Action ι π ρ} {id : ι} {l : Lease}
    (h : l ∈ filingsAfter w w' f a id) : l ∈ f id ∨ ∃ p d j base,
      a = .reconcile p d ∧ w'.phase p = .filing j base ∧ id = j.id ∧ l = j.lease := by
  have hupdate : ∀ (k : ι) (ls : List Lease), l ∈ Function.update f k ls id → l ∈ f id ∨ id = k ∧ l ∈ ls := by
    intro k ls hl
    by_cases hid : id = k
    · subst hid
      rw [Function.update_self] at hl
      exact Or.inr ⟨rfl, hl⟩
    · rw [Function.update_of_ne hid] at hl
      exact Or.inl hl
  cases a with
  | retry k now =>
    cases hres : retryFailed now w.db k with
    | ok u =>
      simp only [filingsAfter, hres] at h
      rcases hupdate k [] h with hl | ⟨-, hl⟩
      · exact Or.inl hl
      · exact nomatch hl
    | error e =>
      simp only [filingsAfter, hres] at h
      exact Or.inl h
  | reconcile p d =>
    cases hp : w'.phase p with
    | filing j base =>
      simp only [filingsAfter, hp] at h
      rcases hupdate j.id _ h with hl | ⟨rfl, hl⟩
      · exact Or.inl hl
      · rw [List.mem_append, List.mem_singleton] at hl
        rcases hl with hl | hl
        · exact Or.inl hl
        · exact Or.inr ⟨p, d, j, base, rfl, hp, rfl, hl⟩
    | _ =>
      simp only [filingsAfter, hp] at h
      exact Or.inl h
  | handle p now =>
    cases hj : handedBack w (.handle p now) with
    | some j =>
      simp only [filingsAfter, hj] at h
      rcases hupdate j.id _ h with hl | ⟨rfl, hl⟩
      · exact Or.inl hl
      · exact Or.inl (List.mem_of_mem_erase hl)
    | none =>
      simp only [filingsAfter, hj] at h
      exact Or.inl h
  | _ => exact Or.inl h

theorem budget_changed {B : Time} {k : Kind} {db db' : Db ι ρ} {i : ι} (hc : Changed k db db' i)
    (hk : ∀ clock b, k = .claimed clock b → clock + seconds (max 1 b) ≤ B)
    (h : ∀ id r t, db.lookup id = some r → r.budgetDeadlineAt = some t → t ≤ B) :
    ∀ id r t, db'.lookup id = some r → r.budgetDeadlineAt = some t → t ≤ B := by
  obtain ⟨r, r', hr, hch, rfl⟩ := hc
  intro id q t hq ht
  rw [Table.lookup_insert_eq] at hq
  split at hq
  · obtain rfl := Option.some.inj hq
    have hold : ∀ t, r.budgetDeadlineAt = some t → t ≤ B := fun t => h i r t hr
    cases hch with
    | kept _ _ _ _ budget => exact hold t (by rw [← budget, ht])
    | claimed _ _ _ _ _ budget =>
      rw [budget] at ht
      cases hb : r.budgetDeadlineAt with
      | some u => rw [hb] at ht; exact hold t (by rw [hb]; exact ht)
      | none =>
        rw [hb] at ht
        rw [← Option.some.inj ht]
        exact hk _ _ rfl
    | requeued _ _ _ _ _ _ budget =>
      rcases budget with hb | hb
      · rw [hb] at ht; exact nomatch ht
      · exact hold t (by rw [← hb, ht])
    | handedBack _ _ _ _ _ budget => rw [budget] at ht; exact nomatch ht
    | landed _ _ _ _ _ budget => exact hold t (by rw [← budget, ht])
    | failed _ _ _ _ _ budget => exact hold t (by rw [← budget, ht])
    | retried _ _ _ _ _ budget => rw [budget] at ht; exact nomatch ht
  · exact h id q t hq ht

theorem budget_rowwise {B : Time} {w : World ι π ρ} {a : Writers.Action ι π ρ} {db : Db ι ρ} (hr : Rowwise w a db)
    (hk : ∀ p id now clock b, a = .claim p id now clock b → clock + seconds (max 1 b) ≤ B)
    (h : ∀ id r t, w.db.lookup id = some r → r.budgetDeadlineAt = some t → t ≤ B) :
    ∀ id r t, db.lookup id = some r → r.budgetDeadlineAt = some t → t ≤ B := by
  cases hr with
  | same => exact h
  | enqueue hnone =>
    intro k r t hlook ht
    rw [Table.lookup_insert_eq] at hlook
    split at hlook
    · rw [← Option.some.inj hlook] at ht
      exact nomatch ht
    · exact h k r t hlook ht
  | retry hok => exact budget_changed (changed_retryFailed hok) nofun h
  | sweep hdb =>
    intro id r t hlook ht
    rcases lookup_releaseExpired hdb id with hsame | ⟨q, hq, hexp, hq'⟩
    · exact h id r t (hsame ▸ hlook) ht
    · rw [hq'] at hlook
      refine h id q t hq ?_
      rw [← ht, ← Option.some.inj hlook]
      unfold expire
      split <;> rfl
  | claim hdb =>
    refine budget_changed (changed_claimNext hdb).2 ?_ h
    intro clock b heq
    injection heq with hclock hb
    subst hclock hb
    exact hk _ _ _ _ _ rfl
  | extract hc => exact budget_changed hc nofun h
  | finish hp hl hc => exact budget_changed hc nofun h
  | handle hp hf hl hc =>
    rcases hc with hc | hc
    · exact budget_changed hc nofun h
    · exact budget_changed hc nofun h
  | handBack hp hl hback => exact budget_changed (changed_releaseClaim hback) nofun h

/-- the counted filings after an action on the rows -/
theorem tally_rowwise {S : Settings} {s : State ι π ρ} {w : World ι π ρ} {a : Writers.Action ι π ρ} {db : Db ι ρ}
    (h : Counted S s) (hr : Rowwise s.world a db) (hfile : ∀ p d, a ≠ .reconcile p d) (id : ι) :
    Tally (db.lookup id) (filingsAfter s.world w s.filings a id) := by
  cases hr with
  | same _ hnone =>
    cases a with
    | retry k now =>
      cases hres : retryFailed now s.world.db k with
      | ok u =>
        simp only [filingsAfter, hres]
        by_cases hid : id = k
        · subst hid
          rw [Function.update_self]
          exact Tally.nil _
        · rw [Function.update_of_ne hid]
          exact h.tally id
      | error e =>
        simp only [filingsAfter, hres]
        exact h.tally id
    | reconcile p d => exact absurd rfl (hfile p d)
    | handle p now =>
      simp only [filingsAfter, hnone]
      exact h.tally id
    | _ => exact h.tally id
  | @enqueue k _ _ _ _ _ _ _ hnone =>
    show Tally _ (s.filings id)
    rw [Table.lookup_insert_eq]
    by_cases hid : id = k
    · subst hid
      -- an item that is not there was never filed
      have hempty : s.filings id = [] := by
        refine List.eq_nil_iff_forall_not_mem.mpr fun l hl => ?_
        obtain ⟨r, hlook, -⟩ := (h.tally id).past l hl
        rw [hnone] at hlook
        exact nomatch hlook
      rw [hempty]
      exact Tally.nil _
    · rw [if_neg hid]
      exact h.tally id
  | @retry k now r db hok =>
    obtain ⟨q, q', hq, hch, rfl⟩ := changed_retryFailed hok
    simp only [filingsAfter, hok]
    by_cases hid : id = k
    · subst hid
      rw [Function.update_self]
      exact Tally.nil _
    · rw [Function.update_of_ne hid, Table.lookup_insert_eq, if_neg hid]
      exact h.tally id
  | @sweep p now timeout batch rows db hdb =>
    show Tally _ (s.filings id)
    have ht := h.tally id
    rcases lookup_releaseExpired hdb id with hsame | ⟨r, hlook, hexp, hlook'⟩
    · rw [hsame]
      exact ht
    · rw [hlook] at ht
      rw [hlook']
      unfold expired at hexp
      rw [Bool.and_eq_true, beq_iff_eq] at hexp
      rcases change_expire now hexp.1 with hc | hc
      · exact ht.change hc nofun nofun
      · exact ht.change hc nofun nofun
  | claim hdb => exact Tally.changed h.tally (changed_claimNext hdb).2 nofun nofun id
  | extract hc => exact Tally.changed h.tally hc nofun nofun id
  | finish hp hl hc => exact Tally.changed h.tally hc nofun nofun id
  | @handle p now j f db hp hf hl hc =>
    have hnone : handedBack s.world (.handle p now) = none := by
      cases f with
      | shutdown => exact absurd rfl hf
      | _ => simp only [handedBack, hp]
    simp only [filingsAfter, hnone]
    rcases hc with hc | hc
    · exact Tally.changed h.tally hc nofun nofun id
    · exact Tally.changed h.tally hc nofun nofun id
  | @handBack p now j db hp hl hback =>
    have hsome : handedBack s.world (.handle p now) = some j := by
      simp only [handedBack, hp, hback, if_true]
    obtain ⟨r, r', hlook, hch, rfl⟩ := changed_releaseClaim hback
    simp only [filingsAfter, hsome]
    by_cases hid : id = j.id
    · subst hid
      rw [Function.update_self, Table.lookup_insert_eq, if_pos rfl]
      have ht := h.tally j.id
      rw [hlook] at ht
      exact ht.handedBack hch (by rw [← leaseOf_of_lookup hlook, hl])
    · rw [Function.update_of_ne hid, Table.lookup_insert_eq, if_neg hid]
      exact h.tally id

/-- a claim has at least one second -/
theorem max_budget (S : Settings) : max 1 (operationBudgetS S.timeoutS) = operationBudgetS S.timeoutS :=
  max_eq_right (Nat.le_trans S.positive (Nat.le_trans (Nat.le_add_left _ _) (Nat.le_add_right _ GATE_BUDGET_S)))

theorem Counted.claimed {S : Settings} {s : State ι π ρ} {w : World ι π ρ} (h : Counted S s) {id : ι} {now : Time}
    {r : Row ρ}
    (hdb : claimNext s.world.env now s.time (operationBudgetS S.timeoutS) s.world.db id = some (r, w.db)) :
    (∀ t, r.budgetDeadlineAt = some t → t ≤ s.time + seconds (operationBudgetS S.timeoutS)) ∧
      leaseOf w.db id = some ⟨r.attempts, s.time⟩ ∧ (⟨r.attempts, s.time⟩ : Lease) ∉ s.filings id := by
  obtain ⟨hlook, p₀, p₁, hp₀, hch, hins⟩ := changed_claimNext hdb
  refine ⟨fun t ht => ?_, ?_, fun hmem => ?_⟩
  · refine budget_changed (changed_claimNext hdb).2 ?_ h.budget id r t hlook ht
    intro clock b heq
    injection heq with hclock hb
    subst hclock hb
    rw [max_budget]
  · rw [(leaseOf_claimNext hdb).2, if_pos rfl]
  · -- an earlier filing had fewer attempts
    obtain ⟨p, hp, hle, -⟩ := (h.tally id).past _ hmem
    obtain rfl := Option.some.inj (hp₀.symm.trans hp)
    rw [hins, AList.lookup_insert] at hlook
    obtain rfl := Option.some.inj hlook
    cases hch with
    | claimed was status attempts =>
      rw [attempts] at hle
      exact Nat.not_succ_le_self _ hle

theorem job_of_goes {w : World ι π ρ} {q : π} {a : Writers.Action ι π ρ} {ph : Phase ι} (hg : Goes w q a ph)
    (hnew : ∀ id now clock b, a ≠ .claim q id now clock b) {j : Job ι} (hj : ph.job = some j) :
    (w.phase q).job = some j := by
  cases hg with
  | stays => exact hj
  | rests hrest => rw [hrest] at hj; exact nomatch hj
  | claims => exact absurd rfl (hnew _ _ _ _)
  | waits hw hw' =>
    rw [← Option.some.inj ((Phase.job_of_waiting hw').symm.trans hj)]
    exact Phase.job_of_waiting hw
  | writes hw hw' =>
    rw [← Option.some.inj ((Phase.job_of_writes hw').symm.trans hj)]
    exact Phase.job_of_writes hw
  | files hp | recovers hp => rw [hp]; exact hj
  | wrote r hw => rw [← Option.some.inj hj]; exact Phase.job_of_writes hw
  | brings hb => rw [← Option.some.inj hj]; exact Phase.job_of_brings hb
  | handles f hh => rw [← Option.some.inj hj]; exact hh

theorem waiting_of_goes {w : World ι π ρ} {q : π} {a : Writers.Action ι π ρ} {ph : Phase ι} (hg : Goes w q a ph)
    (hnew : ∀ id now clock b, a ≠ .claim q id now clock b) {j : Job ι} (hj : ph.waiting = some j) :
    (w.phase q).waiting = some j := by
  cases hg with
  | stays => exact hj
  | rests hrest => rw [Phase.job_of_waiting hj] at hrest; exact nomatch hrest
  | claims => exact absurd rfl (hnew _ _ _ _)
  | waits hw hw' => rw [← Option.some.inj (hw'.symm.trans hj)]; exact hw
  | writes hw hw' => rw [Phase.writes_of_waiting hj] at hw'; exact nomatch hw'
  | files | recovers | wrote | brings | handles => exact nomatch hj

section
variable {S : Settings} {s : State ι π ρ} {w : World ι π ρ} {a : Writers.Action ι π ρ} {reading : Time}

/-- a claim is taken as it is asked for -/
theorem claim_timely (htimely : timely S s.time reading a = true) {p : π} {id : ι} {now clock : Time} {b : ℕ}
    (h : within s.world s.deadline reading a = .claim p id now clock b) :
    a = .claim p id now clock b ∧ clock = s.time ∧ b = operationBudgetS S.timeoutS := by
  rcases within_cases s.world s.deadline reading a with hsame | ⟨q, d, -, hraise⟩
  · rw [hsame] at h
    subst h
    unfold timely at htimely
    rw [Bool.and_eq_true, beq_iff_eq, beq_iff_eq] at htimely
    exact ⟨rfl, htimely⟩
  · rw [hraise] at h
    exact nomatch h

theorem sweep_timely (htimely : timely S s.time reading a = true) {p : π} {now : Time} {timeout batch : ℕ}
    {rows : List ι} (h : within s.world s.deadline reading a = .sweep p now timeout batch rows) :
    now ≤ s.time ∧ timeout = S.visibilityTimeoutS := by
  rcases within_cases s.world s.deadline reading a with hsame | ⟨q, d, -, hraise⟩
  · rw [hsame] at h
    subst h
    unfold timely at htimely
    rw [Bool.and_eq_true, decide_eq_true_eq, beq_iff_eq] at htimely
    exact htimely
  · rw [hraise] at h
    exact nomatch h

/-- the process claims now -/
theorem claim_taken (htimely : timely S s.time reading a = true)
    (hw : Writers.step s.world (within s.world s.deadline reading a) = some w) {p : π} {id : ι} {now clock : Time}
    {b : ℕ} (h : within s.world s.deadline reading a = .claim p id now clock b) : ∃ r,
      a = .claim p id now clock b ∧
      claimNext s.world.env now s.time (operationBudgetS S.timeoutS) s.world.db id = some (r, w.db) ∧
        w.phase p = .claimed ⟨id, r.operation, ⟨r.attempts, s.time⟩⟩ := by
  obtain ⟨ha, rfl, rfl⟩ := claim_timely htimely h
  rw [h] at hw
  obtain ⟨r, hdb, hp⟩ := claim_claims hw
  exact ⟨r, ha, hdb, hp⟩

theorem Counted.deadline_act (h : Counted S s) (htimely : timely S s.time reading a = true)
    (hw : Writers.step s.world (within s.world s.deadline reading a) = some w) {p : π} {j : Job ι} {t : Time}
    (hj : (w.phase p).job = some j) (ht : deadlineAfter w.db s.deadline a p = some t) :
    t ≤ j.lease.startedAt + seconds (operationBudgetS S.timeoutS) := by
  by_cases hclaim : ∃ id now clock b, within s.world s.deadline reading a = .claim p id now clock b
  · obtain ⟨id, now, clock, b, heq⟩ := hclaim
    obtain ⟨r, rfl, hdb, hp⟩ := claim_taken htimely hw heq
    rw [hp] at hj
    obtain rfl := Option.some.inj hj
    simp only [deadlineAfter, Function.update_self, (changed_claimNext hdb).1, Option.bind_some] at ht
    exact (h.claimed hdb).1 t ht
  · have hnew : ∀ id now clock b, within s.world s.deadline reading a ≠ .claim p id now clock b :=
      fun id now clock b heq => hclaim ⟨id, now, clock, b, heq⟩
    have hold := job_of_goes (goes_step _ hw p) hnew hj
    have hsame : deadlineAfter w.db s.deadline a p = s.deadline p := by
      cases a with
      | claim q id now clock b =>
        refine Function.update_of_ne ?_ _ _
        rintro rfl
        exact hnew id now clock b rfl
      | _ => rfl
    exact h.deadline p j t hold (by rw [← hsame, ht])

theorem Counted.waiting_act (h : Counted S s) (htimely : timely S s.time reading a = true)
    (hw : Writers.step s.world (within s.world s.deadline reading a) = some w) {q : π} {k : Job ι}
    (hk : (w.phase q).waiting = some k) :
    (leaseOf w.db k.id = some k.lease ∧ k.lease ∉ filingsAfter s.world w s.filings a k.id) ∨
      k.lease.startedAt + seconds S.visibilityTimeoutS < s.time := by
  have hinv := inv_step _ h.inv hw
  -- a filing that begins is of another claim
  have hnew : k.lease ∉ s.filings k.id → k.lease ∉ filingsAfter s.world w s.filings a k.id := by
    intro hold hmem
    rcases mem_filingsAfter hmem with hin | ⟨p, d, j, base, rfl, hp, hid, hl⟩
    · exact hold hin
    · obtain rfl := hinv.unique q p k j (Phase.job_of_waiting hk) (by rw [hp]; rfl) hid (by rw [hl])
      rw [hp] at hk
      exact nomatch hk
  by_cases hclaim : ∃ id now clock b, within s.world s.deadline reading a = .claim q id now clock b
  · obtain ⟨id, now, clock, b, heq⟩ := hclaim
    obtain ⟨r, -, hdb, hp⟩ := claim_taken htimely hw heq
    rw [hp] at hk
    obtain rfl := Option.some.inj hk
    obtain ⟨-, hl, hfresh⟩ := h.claimed hdb
    exact Or.inl ⟨hl, hnew hfresh⟩
  · have hold := waiting_of_goes (goes_step _ hw q) (fun id now clock b heq => hclaim ⟨id, now, clock, b, heq⟩) hk
    rcases h.waiting q k hold with ⟨hin, hout⟩ | hlate
    · rcases lease_kept h.inv (rowwise_step _ h.inv hw) hold hin with hl | ⟨p, now, timeout, batch, rows, heq, hexp⟩
      · exact Or.inl ⟨hl, hnew hout⟩
      · obtain ⟨hnow, rfl⟩ := sweep_timely htimely heq
        exact Or.inr (Nat.lt_of_lt_of_le hexp hnow)
    · exact Or.inr hlate

theorem Counted.tally_act (h : Counted S s) (htimely : timely S s.time reading a = true)
    (hw : Writers.step s.world (within s.world s.deadline reading a) = some w) (id : ι) :
    Tally (w.db.lookup id) (filingsAfter s.world w s.filings a id) := by
  have hrows := rowwise_step _ h.inv hw
  by_cases hrec : ∃ p d, a = .reconcile p d
  · obtain ⟨p, d, rfl⟩ := hrec
    -- neither the reconciliation nor the deadline touches a row
    have hdb : w.db = s.world.db := by
      rcases within_cases s.world s.deadline reading (.reconcile p d) with hsame | ⟨q, d', -, hraise⟩
      · rw [hsame] at hrows
        generalize w.db = db at hrows ⊢
        cases hrows with
        | same => rfl
      · rw [hraise] at hrows
        generalize w.db = db at hrows ⊢
        cases hrows with
        | same => rfl
    rw [hdb]
    cases hp : w.phase p with
    | filing j base =>
      obtain ⟨-, -, hl, hnew, hfew⟩ := h.files htimely hw hp
      simp only [filingsAfter, hp]
      by_cases hid : id = j.id
      · subst hid
        rw [Function.update_self]
        have ht := h.tally j.id
        cases hlook : s.world.db.lookup j.id with
        | none =>
          rw [leaseOf, hlook] at hl
          exact nomatch hl
        | some r =>
          rw [leaseOf_of_lookup hlook] at hl
          rw [hlook] at ht
          obtain ⟨hs, ha, -⟩ := lease_of_some hl
          exact ht.files hl (by rw [← ha]; exact (h.sound j.id r hlook).claimed hs) hfew hnew
      · rw [Function.update_of_ne hid]
        exact h.tally id
    | _ =>
      simp only [filingsAfter, hp]
      exact h.tally id
  · have hsame : within s.world s.deadline reading a = a := by
      rcases within_cases s.world s.deadline reading a with hsame | ⟨p, d, ha, -⟩
      · exact hsame
      · exact absurd ⟨p, d, ha⟩ hrec
    rw [hsame] at hrows
    exact tally_rowwise h hrows (fun p d ha => hrec ⟨p, d, ha⟩) id

theorem Counted.act {t : State ι π ρ} (h : Counted S s) (hs : step S s (.act a reading) = some t) :
    Counted S t := by
  simp only [step] at hs
  split at hs
  · rename_i htimely
    obtain ⟨w, hw, rfl⟩ := Option.map_eq_some_iff.mp hs
    have hrows := rowwise_step _ h.inv hw
    refine ⟨inv_step _ h.inv hw, sound_rowwise h.sound hrows, thirds_step _ h.inv h.thirds hw, ?_,
      fun p j t => h.deadline_act htimely hw, fun p j => h.waiting_act htimely hw, h.tally_act htimely hw⟩
    refine budget_rowwise hrows ?_ h.budget
    intro p id now clock b heq
    obtain ⟨-, rfl, rfl⟩ := claim_timely htimely heq
    rw [max_budget]
  · exact nomatch hs

theorem counted_step {t : State ι π ρ} {x : Action ι π ρ} (h : Counted S s) (hs : step S s x = some t) :
    Counted S t := by
  cases x with
  | tick d =>
    obtain rfl := Option.some.inj hs
    exact h.tick d
  | act a reading => exact h.act hs

end

/-! ## every run -/

theorem counted_exec {S : Settings} {env : Env} {as : List (Action ι π ρ)} {s : State ι π ρ}
    (h : Runs.exec (step S) (init env) as = some s) : Counted S s :=
  Runs.exec_invariant (fun _ _ _ hc hs => counted_step hc hs) (counted_init S env) h

/-- **Rows and filings.**  After any calls by any callers every row has a lease just while it is processed, a
finish time just when it has landed or failed, and at most three attempts.  And in every state a run of writers
reaches: what is filed from scratch is filed by a first or second attempt; a row with three attempts is being
processed, has failed, or has landed with a commit of the branch that names it; and since its last retry no item
was filed from scratch more than twice, claims handed back left out. -/
theorem filed_twice (S : Settings) (env : Env) :
    (∀ (cs : List (Call ι ρ)) (db : Db ι ρ), Runs.exec Call.apply ∅ cs = some db →
      ∀ id r, db.lookup id = some r →
        (r.leaseStartedAt.isSome = true ↔ r.status = .processing) ∧
        (r.finishedAt.isSome = true ↔ r.status = .landed ∨ r.status = .failed) ∧ r.attempts ≤ 3) ∧
    ∀ (as : List (Action ι π ρ)) (s : State ι π ρ), Runs.exec (step S) (init env) as = some s →
      (∀ id r, s.world.db.lookup id = some r → r.Ok) ∧
      (∀ p j, (s.world.phase p).writes = some j → j.lease.attempts ≤ 2) ∧
      (∀ id r, s.world.db.lookup id = some r → r.attempts = 3 → r.status = .processing ∨ r.status = .failed ∨
        r.status = .landed ∧ Published s.world.log id r.commitSha) ∧
      ∀ id, (s.filings id).length ≤ 2 := by
  refine ⟨fun cs db h id r hr => ?_, fun as s h => ?_⟩
  · have hok := sound_calls h id r hr
    exact ⟨hok.lease, hok.finish, hok.attempts⟩
  · have hc := counted_exec h
    refine ⟨hc.sound, hc.thirds.writes, fun id r hr ha => ?_, fun id => (hc.tally id).length_le⟩
    cases hs : r.status with
    | queued =>
      have hfew := (hc.sound id r hr).queued hs
      rw [ha] at hfew
      exact absurd hfew (by decide)
    | processing => exact Or.inl rfl
    | failed => exact Or.inr (Or.inl rfl)
    | landed => exact Or.inr (Or.inr ⟨rfl, hc.thirds.landed id r hr hs (by rw [ha]; decide)⟩)

end

def defaultSettings : Settings where
  timeoutS := 300
  visibilityTimeoutS := 780
  positive := by decide
  outlives := by decide

/-- a filing that fails for a while, one whose process stops, and the attempt that finds no commit -/
def thirdRun : List (Action ℕ Bool Unit) :=
  let d : Details := ⟨none, [], [], []⟩
  let acts (reading : Time) : List (Writers.Action ℕ Bool Unit) → List (Action ℕ Bool Unit) :=
    List.map (Action.act · reading)
  acts 0 [.enqueue 1 ['t'] .capture ['k'] ['s'] none () 0, .trySweep false, .sweep false 0 780 100 [],
    .endSweep false, .claim false 1 0 0 600, .tryLock false, .readBase false, .reconcile false d,
    .raise false (.error ['x'] ['y'] true true), .handle false 0] ++
  .tick (seconds 20) :: acts (seconds 20) [.trySweep false, .sweep false 0 780 100 [], .endSweep false,
    .claim false 1 (seconds 20) (seconds 20) 600, .tryLock false, .readBase false, .reconcile false d,
    .crash false] ++
  .tick (seconds 980) :: acts (seconds 1000) [.trySweep true, .sweep true (seconds 1000) 780 100 [1],
    .endSweep true, .claim true 1 (seconds 1000) (seconds 1000) 600, .tryLock true, .readBase true,
    .reconcile true d, .handle true (seconds 1000)]

theorem filed_twice_thirdRun : ∃ s, Runs.exec (step defaultSettings) (init openEnv) thirdRun = some s ∧
    (s.filings 1).length = 2 ∧ (∃ r, s.world.db.lookup 1 = some r ∧ r.attempts = 3 ∧ r.status = .failed) ∧
    ∀ id, (s.filings id).length ≤ 2 := by
  have hrun : (Runs.exec (step defaultSettings) (init openEnv) thirdRun).any
      (fun s => (s.filings 1).length == 2 && (s.world.db.lookup 1).any
        fun r => r.attempts == 3 && r.status == .failed) = true := by decide +kernel
  obtain ⟨s, hs, hlast⟩ := (Option.any_eq_true _ _).mp hrun
  rw [Bool.and_eq_true, beq_iff_eq] at hlast
  obtain ⟨r, hr, hthird⟩ := (Option.any_eq_true _ _).mp hlast.2
  rw [Bool.and_eq_true, beq_iff_eq, beq_iff_eq] at hthird
  exact ⟨s, hs, hlast.1, ⟨r, hr, hthird⟩, ((filed_twice defaultSettings openEnv).2 thirdRun s hs).2.2.2⟩

end Filings
