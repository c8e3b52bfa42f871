import Mathlib.Logic.Function.Basic
import Stigmergy.Lib.Runs

/-!
# The writer sleeps, and is woken

`kernel/wake.py`, called by whatever queues work for the writer, and the idle stop of `librarian/worker.py`: the
threads of any number of processes, the machines of the writer and the work in the tables, every action under one
lock, one statement or one call of the Machines API.

* `step`             one action of a process, of a thread, of a machine, of an operator;
* `Machine.sees`     the writer on the machine will still query the table;
* `Round.reaches`    what a round does next brings the machine it has come to back;
* `Steady`           the condition: work is committed before `writer` is called for it, every thread starts, and no
                     call of the API fails but a start of a machine that is not stopped;
* `work_is_seen`     over every run along `Steady`: when no request is open, some writer sees each table with work;
* `rounds_serve`     over every run in which threads start: at most one round at a time, and each request has one
                     that began after it.

A watch ends with a timeout only when the machine is not one that was already going down when the watch began.
-/

set_option linter.unusedSectionVars false

namespace Wake

/-! ## Machines -/

inductive Table where
  | captureQueue | layerErasures | workspaceErasures | tenants | indexHealth
deriving DecidableEq

/-- the tables `_pending_work` queries, in its order -/
def PENDING : List Table := [.captureQueue, .layerErasures, .workspaceErasures, .tenants, .indexHealth]

inductive Phase where
  | stopped
  | starting
  | up
  /-- in `_may_stop`, with the tables that are still to be queried -/
  | looking (left : List Table)
  | stopping
deriving DecidableEq

/-- a writer machine, and how often its writer has announced a stop -/
structure Machine where
  phase : Phase
  looks : ℕ
deriving DecidableEq

namespace Machine

def sees (x : Machine) (t : Table) : Bool :=
  match x.phase with
  | .starting | .up => true
  | .looking left => left.contains t
  | .stopped | .stopping => false

def leaving (x : Machine) : Bool :=
  match x.phase with
  | .looking _ | .stopping => true
  | .stopped | .starting | .up => false

/-- stopped, or going down since before the `n`th announcement was answered -/
def due (x : Machine) (n : ℕ) : Bool := x.phase == .stopped || (x.leaving && x.looks == n)

end Machine

/-- the state the Machines API lists -/
inductive Seen where
  | stopped | running
deriving DecidableEq

def Machine.seen (x : Machine) : Seen := if x.phase = .stopped then .stopped else .running

/-! ## Processes -/

section
variable (ι π : Type*)

/-- where a thread is in `_rounds` and in `wake_round` -/
inductive Round where
  | top
  | listing
  | going (todo : List (ι × Seen))
  /-- waiting for the machine to stop; `since` are its announcements when the wait began -/
  | watching (m : ι) (since : ℕ) (todo : List (ι × Seen))
  | posting (m : ι) (todo : List (ι × Seen))
deriving DecidableEq

/-- the globals of `kernel/wake.py` in one process, its threads, and its callers that have yet to call `writer` -/
structure Proc where
  calls : ℕ
  requested : Bool
  running : Bool
  spawning : ℕ
  threads : List (Round ι)
  /-- the calls of `writer`, and how many of them the last round began after -/
  asked : ℕ
  served : ℕ

structure World where
  proc : π → Proc ι
  machine : ι → Machine
  pending : List Table
  /-- queued in a transaction that is still open -/
  hidden : List Table

inductive Action where
  | queue (p : π) (t : Table)
  /-- work is queued and `writer` called before the transaction is over -/
  | insert (p : π) (t : Table)
  | commit (t : Table)
  /-- the work is done, or gone -/
  | settle (t : Table)
  | own (m : ι) (t : Table)
  | call (p : π)
  | spawn (p : π)
  | spawnFails (p : π)
  | take (p : π) (i : ℕ)
  | list (p : π) (i : ℕ)
  | next (p : π) (i : ℕ)
  | gone (p : π) (i : ℕ)
  | still (p : π) (i : ℕ)
  | post (p : π) (i : ℕ)
  | fail (p : π) (i : ℕ)
  | boot (m : ι)
  | announce (m : ι)
  | look (m : ι)
  | exit (m : ι)
  | halt (m : ι)

end

section
variable {ι π : Type*} [DecidableEq ι] [DecidableEq π]

namespace World

def setProc (w : World ι π) (p : π) (q : Proc ι) : World ι π := { w with proc := Function.update w.proc p q }

def setMachine (w : World ι π) (m : ι) (x : Machine) : World ι π :=
  { w with machine := Function.update w.machine m x }

def setRound (w : World ι π) (p : π) (i : ℕ) (r : Round ι) : World ι π :=
  w.setProc p { w.proc p with threads := (w.proc p).threads.set i r }

end World

/-- `writer`, under the lock -/
def Proc.writer (q : Proc ι) : Proc ι :=
  if q.running then { q with requested := true, asked := q.asked + 1 }
  else { q with requested := true, asked := q.asked + 1, running := true, spawning := q.spawning + 1 }

/-- the head of the loop of `_rounds`, under the lock -/
def Proc.top (q : Proc ι) (i : ℕ) : Proc ι :=
  if q.requested then { q with requested := false, served := q.asked, threads := q.threads.set i .listing }
  else { q with running := false, threads := q.threads.eraseIdx i }

variable (fleet : List ι)

/-- one action; `fleet` are the machines of the writer as the API lists them -/
def step (w : World ι π) : Action ι π → Option (World ι π)
  | .queue p t =>
    some ({ w with pending := t :: w.pending }.setProc p { w.proc p with calls := (w.proc p).calls + 1 })
  | .insert p t =>
    some ({ w with hidden := t :: w.hidden }.setProc p { w.proc p with calls := (w.proc p).calls + 1 })
  | .commit t =>
    if t ∈ w.hidden then some { w with hidden := w.hidden.erase t, pending := t :: w.pending } else none
  | .settle t => some { w with pending := w.pending.erase t }
  | .own m t => if m ∈ fleet ∧ (w.machine m).phase = .up then some { w with pending := t :: w.pending } else none
  | .call p =>
    if (w.proc p).calls = 0 then none
    else some (w.setProc p { w.proc p with calls := (w.proc p).calls - 1 }.writer)
  | .spawn p =>
    if (w.proc p).spawning = 0 then none
    else some (w.setProc p { w.proc p with
      spawning := (w.proc p).spawning - 1
      threads := (w.proc p).threads ++ [.top] })
  | .spawnFails p =>
    if (w.proc p).spawning = 0 then none
    else some (w.setProc p { w.proc p with spawning := (w.proc p).spawning - 1 })
  | .take p i =>
    match (w.proc p).threads[i]? with
    | some .top => some (w.setProc p ((w.proc p).top i))
    | _ => none
  | .list p i =>
    match (w.proc p).threads[i]? with
    | some .listing => some (w.setRound p i (.going (fleet.map fun m => (m, (w.machine m).seen))))
    | _ => none
  | .next p i =>
    match (w.proc p).threads[i]? with
    | some (.going []) => some (w.setRound p i .top)
    | some (.going ((m, .stopped) :: todo)) => some (w.setRound p i (.posting m todo))
    | some (.going ((m, .running) :: todo)) => some (w.setRound p i (.watching m (w.machine m).looks todo))
    | _ => none
  | .gone p i =>
    match (w.proc p).threads[i]? with
    | some (.watching m _ todo) =>
      if (w.machine m).phase = .stopped then some (w.setRound p i (.posting m todo)) else none
    | _ => none
  | .still p i =>
    match (w.proc p).threads[i]? with
    | some (.watching m since todo) =>
      if (w.machine m).due since then none else some (w.setRound p i (.going todo))
    | _ => none
  | .post p i =>
    match (w.proc p).threads[i]? with
    | some (.posting m todo) =>
      if (w.machine m).phase = .stopped then
        some ((w.setMachine m { w.machine m with phase := .starting }).setRound p i (.going todo))
      else some (w.setRound p i (.going todo))
    | _ => none
  | .fail p i =>
    match (w.proc p).threads[i]? with
    | some .top | none => none
    | some _ => some (w.setRound p i .top)
  | .boot m =>
    if (w.machine m).phase = .starting then some (w.setMachine m { w.machine m with phase := .up }) else none
  | .announce m =>
    if (w.machine m).phase = .up then some (w.setMachine m ⟨.looking PENDING, (w.machine m).looks + 1⟩) else none
  | .look m =>
    match (w.machine m).phase with
    | .looking (t :: left) =>
      some (w.setMachine m { w.machine m with phase := if t ∈ w.pending then .up else .looking left })
    | _ => none
  | .exit m =>
    if (w.machine m).phase = .looking [] then some (w.setMachine m { w.machine m with phase := .stopping }) else none
  | .halt m =>
    if (w.machine m).phase = .stopping then some (w.setMachine m { w.machine m with phase := .stopped }) else none

/-- nothing is queued, nobody has called `writer`; the machines are anywhere -/
structure Init (w : World ι π) : Prop where
  pending : w.pending = []
  hidden : w.hidden = []
  proc : ∀ p, w.proc p = ⟨0, false, false, 0, [], 0, 0⟩

/-- no request is open: nobody is about to call `writer`, and the process has no thread -/
def Proc.Quiet (q : Proc ι) : Prop := q.calls = 0 ∧ q.running = false

/-! ## Threads -/

/-- the threads of a process agree with its globals -/
structure Proc.Ok (q : Proc ι) : Prop where
  one : q.spawning + q.threads.length = if q.running then 1 else 0
  runs : q.requested = true → q.running = true
  kept : q.requested = false → q.served = q.asked

theorem Proc.Ok.single {q : Proc ι} (h : q.Ok) {i : ℕ} {r : Round ι} (hr : q.threads[i]? = some r) :
    i = 0 ∧ q.threads = [r] ∧ q.spawning = 0 ∧ q.running = true := by
  obtain ⟨hi, hget⟩ := List.getElem?_eq_some_iff.mp hr
  have hone := h.one
  have hrun : q.running = true := by
    cases hq : q.running with
    | true => rfl
    | false =>
      rw [hq, if_neg Bool.false_ne_true] at hone
      omega
  rw [hrun, if_pos rfl] at hone
  obtain ⟨r', hr'⟩ := List.length_eq_one_iff.mp (show q.threads.length = 1 by omega)
  have hi : i = 0 := by omega
  subst hi
  rw [hr'] at hr
  rw [hr', Option.some.inj hr]
  exact ⟨rfl, rfl, by omega, hrun⟩

theorem Proc.Ok.set {q : Proc ι} (h : q.Ok) (i : ℕ) (r : Round ι) : { q with threads := q.threads.set i r }.Ok := by
  refine ⟨?_, h.runs, h.kept⟩
  show q.spawning + (q.threads.set i r).length = _
  rw [List.length_set]
  exact h.one

theorem Proc.Ok.calls {q : Proc ι} (h : q.Ok) (n : ℕ) : { q with calls := n }.Ok := ⟨h.one, h.runs, h.kept⟩

theorem Proc.Ok.writer {q : Proc ι} (h : q.Ok) : q.writer.Ok := by
  have hone := h.one
  unfold Proc.writer
  split
  · next hrun =>
    refine ⟨h.one, fun _ => hrun, ?_⟩
    intro hnone
    cases hnone
  · next hrun =>
    rw [if_neg hrun] at hone
    refine ⟨?_, fun _ => rfl, ?_⟩
    · show q.spawning + 1 + q.threads.length = if true then 1 else 0
      rw [if_pos rfl]
      omega
    · intro hnone
      cases hnone

theorem Proc.Ok.top {q : Proc ι} (h : q.Ok) {i : ℕ} {r : Round ι} (hr : q.threads[i]? = some r) :
    (q.top i).Ok := by
  obtain ⟨hi, hone, hspawn, hrun⟩ := h.single hr
  subst hi
  unfold Proc.top
  split
  · refine ⟨?_, ?_, fun _ => rfl⟩
    · show q.spawning + (q.threads.set 0 .listing).length = _
      rw [List.length_set]
      exact h.one
    · intro hnone
      cases hnone
  · next hreq =>
    refine ⟨?_, fun hasked => absurd hasked hreq, h.kept⟩
    show q.spawning + (q.threads.eraseIdx 0).length = if false then 1 else 0
    rw [hone, hspawn]
    rfl

theorem Proc.Ok.spawn {q : Proc ι} (h : q.Ok) (hs : q.spawning ≠ 0) :
    { q with spawning := q.spawning - 1, threads := q.threads ++ [Round.top] }.Ok := by
  refine ⟨?_, h.runs, h.kept⟩
  show q.spawning - 1 + (q.threads ++ [Round.top]).length = _
  rw [List.length_append, List.length_singleton, ← h.one]
  omega

variable {fleet}

/-- an action leaves every process in order -/
theorem ok_step {w v : World ι π} {a : Action ι π} (hok : ∀ p, (w.proc p).Ok) (ha : ∀ p, a ≠ .spawnFails p)
    (h : step fleet w a = some v) (p : π) : (v.proc p).Ok := by
  have hset : ∀ (u : World ι π) p' q, u.proc = w.proc → q.Ok → ((u.setProc p' q).proc p).Ok := by
    intro u p' q hu hq
    show (Function.update u.proc p' q p).Ok
    rw [hu]
    by_cases heq : p = p'
    · subst heq
      rw [Function.update_self]
      exact hq
    · rw [Function.update_of_ne heq]
      exact hok p
  cases a with
  | queue p' t | insert p' t =>
    obtain rfl := Option.some.inj h
    exact hset _ p' _ rfl ((hok p').calls _)
  | settle t =>
    obtain rfl := Option.some.inj h
    exact hok p
  | commit t | own m t | boot m | announce m | look m | exit m | halt m =>
    simp only [step] at h
    split at h
    · obtain rfl := Option.some.inj h
      exact hok p
    · cases h
  | call p' =>
    simp only [step] at h
    split at h
    · cases h
    · obtain rfl := Option.some.inj h
      exact hset w p' _ rfl ((hok p').calls _).writer
  | spawn p' =>
    simp only [step] at h
    split at h
    · cases h
    · next hs =>
      obtain rfl := Option.some.inj h
      exact hset w p' _ rfl ((hok p').spawn hs)
  | spawnFails p' => exact absurd rfl (ha p')
  | take p' i =>
    simp only [step] at h
    split at h
    · next hr =>
      obtain rfl := Option.some.inj h
      exact hset w p' _ rfl ((hok p').top hr)
    · cases h
  | list p' i | next p' i | gone p' i | still p' i | fail p' i =>
    simp only [step] at h
    repeat' split at h
    all_goals first
      | (cases h; done)
      | (obtain rfl := Option.some.inj h; exact hset w p' _ rfl ((hok p').set _ _))
  | post p' i =>
    simp only [step] at h
    split at h
    · split at h
      · obtain rfl := Option.some.inj h
        exact hset (w.setMachine _ _) p' _ rfl ((hok p').set _ _)
      · obtain rfl := Option.some.inj h
        exact hset w p' _ rfl ((hok p').set _ _)
    · cases h

theorem Init.ok {w : World ι π} (h : Init w) (p : π) : (w.proc p).Ok := by
  rw [h.proc p]
  exact ⟨rfl, fun hnone => hnone, fun _ => rfl⟩

/-- one round at a time, and every request has a round that began after it -/
theorem rounds_serve {w v : World ι π} {as : List (Action ι π)} (hw : Init w)
    (hrun : Runs.exec (step fleet) w as = some v)
    (hspawn : Runs.along (step fleet) (fun _ a => ∀ p, a ≠ .spawnFails p) w as) (p : π) :
    (v.proc p).threads.length ≤ 1 ∧
      ((v.proc p).running = false → (v.proc p).requested = false ∧ (v.proc p).served = (v.proc p).asked) := by
  have hok : ∀ p, (v.proc p).Ok :=
    Runs.exec_invariant_along (fun _ _ _ hok ha h => ok_step hok ha h) hw.ok hspawn hrun
  have hone := (hok p).one
  constructor
  · split at hone <;> omega
  · intro hrun
    have hreq : (v.proc p).requested = false := by
      rw [← Bool.not_eq_true]
      intro hasked
      rw [(hok p).runs hasked] at hrun
      cases hrun
    exact ⟨hreq, (hok p).kept hreq⟩

/-! ## Machines that come back -/

section
variable (fleet : List ι) (machine : ι → Machine)

/-- what the round does next brings back the machine it has come to -/
def Round.reaches : Round ι → Prop
  | .top | .going [] => False
  | .listing => True
  | .going ((m, .stopped) :: _) | .posting m _ => m ∈ fleet ∧ (machine m).phase = .stopped
  | .going ((m, .running) :: _) => m ∈ fleet
  | .watching m since _ => m ∈ fleet ∧ (machine m).due since = true

/-- a request of the process is open, or a round under way -/
def Proc.Covers (q : Proc ι) : Prop := 0 < q.calls ∨ q.requested = true ∨ ∃ r ∈ q.threads, r.reaches fleet machine

end

variable (fleet) in
def Covered (w : World ι π) (t : Table) : Prop :=
  (∃ m ∈ fleet, (w.machine m).sees t = true) ∨ ∃ p, (w.proc p).Covers fleet w.machine

theorem reaches_setMachine {machine : ι → Machine} {m : ι} {x : Machine} {r : Round ι}
    (hstop : (machine m).phase = .stopped → x.phase = .stopped)
    (hdue : ∀ n, (machine m).due n = true → x.due n = true) (h : r.reaches fleet machine) :
    r.reaches fleet (Function.update machine m x) := by
  have hphase : ∀ m', (machine m').phase = .stopped → (Function.update machine m x m').phase = .stopped := by
    intro m' hm'
    by_cases heq : m' = m
    · subst heq
      rw [Function.update_self]
      exact hstop hm'
    · rw [Function.update_of_ne heq]
      exact hm'
  match r, h with
  | .listing, h => exact h
  | .going ((m', .stopped) :: _), h => exact ⟨h.1, hphase m' h.2⟩
  | .posting m' _, h => exact ⟨h.1, hphase m' h.2⟩
  | .going ((m', .running) :: _), h => exact h
  | .watching m' since _, h =>
    refine ⟨h.1, ?_⟩
    by_cases heq : m' = m
    · subst heq
      rw [Function.update_self]
      exact hdue since h.2
    · rw [Function.update_of_ne heq]
      exact h.2

/-- only a round that has come to the machine depends on it -/
theorem reaches_or {machine : ι → Machine} {m : ι} (x : Machine) {r : Round ι} (h : r.reaches fleet machine) :
    r.reaches fleet (Function.update machine m x) ∨ m ∈ fleet := by
  by_cases hm : m ∈ fleet
  · exact Or.inr hm
  left
  have hsame : ∀ m' ∈ fleet, Function.update machine m x m' = machine m' := by
    intro m' hm'
    refine Function.update_of_ne ?_ _ _
    rintro rfl
    exact hm hm'
  match r, h with
  | .listing, h => exact h
  | .going ((m', .stopped) :: _), h => exact ⟨h.1, (hsame m' h.1).symm ▸ h.2⟩
  | .posting m' _, h => exact ⟨h.1, (hsame m' h.1).symm ▸ h.2⟩
  | .going ((m', .running) :: _), h => exact h
  | .watching m' since _, h => exact ⟨h.1, (hsame m' h.1).symm ▸ h.2⟩

/-- a machine that goes on seeing the table, and comes to see it or is still to be brought back -/
theorem Covered.setMachine {w : World ι π} {t : Table} {m : ι} {x : Machine} (hc : Covered fleet w t)
    (hsees : (w.machine m).sees t = true → x.sees t = true)
    (hback : x.sees t = true ∨ ((w.machine m).phase = .stopped → x.phase = .stopped) ∧
      ∀ n, (w.machine m).due n = true → x.due n = true) : Covered fleet (w.setMachine m x) t := by
  rcases hc with ⟨m', hm', hsee⟩ | ⟨p, hcalls | hreq | ⟨r, hr, hreach⟩⟩
  · refine Or.inl ⟨m', hm', ?_⟩
    show (Function.update w.machine m x m').sees t = true
    by_cases heq : m' = m
    · subst heq
      rw [Function.update_self]
      exact hsees hsee
    · rw [Function.update_of_ne heq]
      exact hsee
  · exact Or.inr ⟨p, Or.inl hcalls⟩
  · exact Or.inr ⟨p, Or.inr (Or.inl hreq)⟩
  · rcases hback with hsee | ⟨hstop, hdue⟩
    · rcases reaches_or x hreach with hreach | hm
      · exact Or.inr ⟨p, Or.inr (Or.inr ⟨r, hr, hreach⟩)⟩
      · refine Or.inl ⟨m, hm, ?_⟩
        show (Function.update w.machine m x m).sees t = true
        rw [Function.update_self]
        exact hsee
    · exact Or.inr ⟨p, Or.inr (Or.inr ⟨r, hr, reaches_setMachine hstop hdue hreach⟩)⟩

theorem Covered.setProc {w : World ι π} {t : Table} {p : π} {q : Proc ι} (hc : Covered fleet w t)
    (h : (w.proc p).Covers fleet w.machine →
      q.Covers fleet w.machine ∨ ∃ m ∈ fleet, (w.machine m).sees t = true) :
    Covered fleet (w.setProc p q) t := by
  rcases hc with hsee | ⟨p', hp'⟩
  · exact Or.inl hsee
  have hself : Function.update w.proc p q p = q := Function.update_self _ _ _
  by_cases heq : p' = p
  · subst heq
    rcases h hp' with hq | hsee
    · refine Or.inr ⟨p', ?_⟩
      show (Function.update w.proc p' q p').Covers fleet w.machine
      rw [hself]
      exact hq
    · exact Or.inl hsee
  · refine Or.inr ⟨p', ?_⟩
    show (Function.update w.proc p q p').Covers fleet w.machine
    rw [Function.update_of_ne heq]
    exact hp'

/-- the one thread of a process goes on to `r'` -/
theorem Covered.setRound {w : World ι π} {t : Table} {p : π} {i : ℕ} {r r' : Round ι} (hc : Covered fleet w t)
    (hok : (w.proc p).Ok) (hr : (w.proc p).threads[i]? = some r)
    (h : r.reaches fleet w.machine → r'.reaches fleet w.machine ∨ ∃ m ∈ fleet, (w.machine m).sees t = true) :
    Covered fleet (w.setRound p i r') t := by
  obtain ⟨rfl, hone, -, -⟩ := hok.single hr
  refine hc.setProc fun hq => ?_
  rcases hq with hcalls | hreq | ⟨s, hs, hreach⟩
  · exact Or.inl (Or.inl hcalls)
  · exact Or.inl (Or.inr (Or.inl hreq))
  · rw [hone, List.mem_singleton] at hs
    subst hs
    rcases h hreach with hreach | hsee
    · refine Or.inl (Or.inr (Or.inr ⟨r', ?_, hreach⟩))
      show r' ∈ (w.proc p).threads.set 0 r'
      rw [hone]
      exact List.mem_cons_self
    · exact Or.inr hsee

/-! ## What every action keeps -/

/-- work is committed before `writer` is called, threads start, and only a start of a machine that is not stopped
fails -/
def Steady (w : World ι π) : Action ι π → Prop
  | .insert _ _ | .spawnFails _ => False
  | .fail p i => ∃ m todo, (w.proc p).threads[i]? = some (.posting m todo) ∧ (w.machine m).phase ≠ .stopped
  | _ => True

variable (fleet) in
structure Inv (w : World ι π) : Prop where
  ok : ∀ p, (w.proc p).Ok
  hidden : w.hidden = []
  covered : ∀ t ∈ w.pending, Covered fleet w t

theorem Init.inv {w : World ι π} (h : Init w) : Inv fleet w where
  ok := h.ok
  hidden := h.hidden
  covered := by
    intro t ht
    rw [h.pending] at ht
    cases ht

theorem looks_due {x y : Machine} (hy : y.leaving = true) (hl : y.looks = x.looks) (hx : x.phase ≠ .stopped) (n : ℕ)
    (h : x.due n = true) : y.due n = true := by
  unfold Machine.due at h ⊢
  rw [Bool.or_eq_true, Bool.and_eq_true] at h ⊢
  rcases h with h | h
  · exact absurd (beq_iff_eq.mp h) hx
  · exact Or.inr ⟨hy, hl ▸ h.2⟩

/-- the writer's own way: up, announced, looking, down -/
theorem covered_machine {w v : World ι π} {a : Action ι π} {m : ι}
    (ha : a = .boot m ∨ a = .announce m ∨ a = .look m ∨ a = .exit m ∨ a = .halt m)
    (h : step fleet w a = some v) {t : Table} (ht : t ∈ w.pending) (hc : Covered fleet w t) : Covered fleet v t := by
  rcases ha with rfl | rfl | rfl | rfl | rfl
  · simp only [step] at h
    split at h
    · obtain rfl := Option.some.inj h
      exact hc.setMachine (fun _ => rfl) (Or.inl rfl)
    · cases h
  · simp only [step] at h
    split at h
    · obtain rfl := Option.some.inj h
      have hall : Machine.sees ⟨.looking PENDING, (w.machine m).looks + 1⟩ t = true := by
        cases t <;> rfl
      exact hc.setMachine (fun _ => hall) (Or.inl hall)
    · cases h
  · simp only [step] at h
    split at h
    · next t' left hphase =>
      obtain rfl := Option.some.inj h
      split
      · exact hc.setMachine (fun _ => rfl) (Or.inl rfl)
      · next ht' =>
        refine hc.setMachine ?_ (Or.inr ⟨fun hstop => ?_, ?_⟩)
        · intro hsee
          unfold Machine.sees at hsee ⊢
          rw [hphase] at hsee
          have hmem := List.contains_iff_mem.mp hsee
          rcases List.mem_cons.mp hmem with rfl | hmem
          · exact absurd ht ht'
          · exact List.contains_iff_mem.mpr hmem
        · rw [hphase] at hstop
          cases hstop
        · refine looks_due rfl rfl ?_
          rw [hphase]
          exact Phase.noConfusion
    · cases h
  · simp only [step] at h
    split at h
    · next hphase =>
      obtain rfl := Option.some.inj h
      refine hc.setMachine ?_ (Or.inr ⟨fun hstop => ?_, ?_⟩)
      · intro hsee
        unfold Machine.sees at hsee
        rw [hphase] at hsee
        cases hsee
      · rw [hphase] at hstop
        cases hstop
      · refine looks_due rfl rfl ?_
        rw [hphase]
        exact Phase.noConfusion
    · cases h
  · simp only [step] at h
    split at h
    · next hphase =>
      obtain rfl := Option.some.inj h
      refine hc.setMachine ?_ (Or.inr ⟨fun _ => rfl, fun _ _ => rfl⟩)
      intro hsee
      unfold Machine.sees at hsee
      rw [hphase] at hsee
      cases hsee
    · cases h

/-- a thread's way through `_rounds` -/
theorem covered_thread (hfleet : fleet ≠ []) {w v : World ι π} {a : Action ι π} {p : π} {i : ℕ}
    (ha : a = .take p i ∨ a = .list p i ∨ a = .next p i ∨ a = .gone p i ∨ a = .still p i ∨ a = .post p i ∨
      a = .fail p i) (hok : (w.proc p).Ok) (hs : Steady w a)
    (h : step fleet w a = some v) {t : Table} (hc : Covered fleet w t) : Covered fleet v t := by
  rcases ha with rfl | rfl | rfl | rfl | rfl | rfl | rfl
  · simp only [step] at h
    split at h
    · next hr =>
      obtain rfl := Option.some.inj h
      obtain ⟨rfl, hone, -, -⟩ := hok.single hr
      refine hc.setProc fun hq => Or.inl ?_
      unfold Proc.top
      split
      · refine Or.inr (Or.inr ⟨.listing, ?_, trivial⟩)
        show Round.listing ∈ (w.proc p).threads.set 0 .listing
        rw [hone]
        exact List.mem_cons_self
      · next hreq =>
        rcases hq with hcalls | hasked | ⟨r, hmem, hreach⟩
        · exact Or.inl hcalls
        · exact absurd hasked hreq
        · rw [hone, List.mem_singleton] at hmem
          subst hmem
          exact hreach.elim
    · cases h
  · simp only [step] at h
    split at h
    · next hr =>
      obtain rfl := Option.some.inj h
      refine hc.setRound hok hr fun _ => Or.inl ?_
      obtain ⟨m, others, rfl⟩ := List.exists_cons_of_ne_nil hfleet
      show Round.reaches (m :: others) w.machine (.going ((m, (w.machine m).seen) :: _))
      unfold Machine.seen
      split
      · next hstop => exact ⟨List.mem_cons_self, hstop⟩
      · exact List.mem_cons_self
    · cases h
  · simp only [step] at h
    split at h
    · next hr =>
      obtain rfl := Option.some.inj h
      exact hc.setRound hok hr fun hreach => hreach.elim
    · next hr =>
      obtain rfl := Option.some.inj h
      exact hc.setRound hok hr fun hreach => Or.inl hreach
    · next m todo hr =>
      obtain rfl := Option.some.inj h
      refine hc.setRound hok hr fun hm => ?_
      by_cases hdue : (w.machine m).due (w.machine m).looks = true
      · exact Or.inl ⟨hm, hdue⟩
      -- the machine comes up, or is up: its writer has every table before it
      · refine Or.inr ⟨m, hm, ?_⟩
        unfold Machine.due Machine.leaving at hdue
        unfold Machine.sees
        cases hphase : (w.machine m).phase with
        | starting | up => rfl
        | stopped | looking | stopping => simp [hphase] at hdue
    · cases h
  · simp only [step] at h
    split at h
    · next hr =>
      split at h
      · next hstop =>
        obtain rfl := Option.some.inj h
        exact hc.setRound hok hr fun hreach => Or.inl ⟨hreach.1, hstop⟩
      · cases h
    · cases h
  · simp only [step] at h
    split at h
    · next hr =>
      split at h
      · cases h
      · next hdue =>
        obtain rfl := Option.some.inj h
        exact hc.setRound hok hr fun hreach => absurd hreach.2 hdue
    · cases h
  · simp only [step] at h
    split at h
    · next m todo hr =>
      split at h
      · obtain rfl := Option.some.inj h
        refine Covered.setRound (w := w.setMachine m _) (hc.setMachine (fun _ => rfl) (Or.inl rfl)) hok hr ?_
        intro hreach
        have hphase : (Function.update w.machine m { w.machine m with phase := .starting } m).phase = .stopped :=
          hreach.2
        rw [Function.update_self] at hphase
        cases hphase
      · next hstop =>
        obtain rfl := Option.some.inj h
        exact hc.setRound hok hr fun hreach => absurd hreach.2 hstop
    · cases h
  · obtain ⟨m, todo, hr, hstop⟩ := hs
    simp only [step, hr] at h
    obtain rfl := Option.some.inj h
    exact hc.setRound hok hr fun hreach => absurd hreach.2 hstop

theorem inv_step (hfleet : fleet ≠ []) {w v : World ι π} {a : Action ι π} (hi : Inv fleet w) (hs : Steady w a)
    (h : step fleet w a = some v) : Inv fleet v := by
  have hspawn : ∀ p, a ≠ .spawnFails p := by
    rintro p rfl
    exact hs
  refine ⟨ok_step hi.ok hspawn h, ?_, ?_⟩
  · cases a with
    | insert => exact hs.elim
    | queue | settle =>
      obtain rfl := Option.some.inj h
      exact hi.hidden
    | commit t =>
      simp only [step, hi.hidden, List.not_mem_nil, if_false] at h
      cases h
    | _ =>
      simp only [step] at h
      repeat' split at h
      all_goals first
        | (cases h; done)
        | (obtain rfl := Option.some.inj h; exact hi.hidden)
  · intro t ht
    cases a with
    | insert | spawnFails => exact hs.elim
    | queue p t' =>
      obtain rfl := Option.some.inj h
      refine Or.inr ⟨p, Or.inl ?_⟩
      show 0 < (Function.update w.proc p _ p).calls
      rw [Function.update_self]
      exact Nat.succ_pos _
    | commit t' =>
      simp only [step, hi.hidden, List.not_mem_nil, if_false] at h
      cases h
    | settle t' =>
      obtain rfl := Option.some.inj h
      exact hi.covered t (List.mem_of_mem_erase ht)
    | own m t' =>
      simp only [step] at h
      split at h
      · next hup =>
        obtain rfl := Option.some.inj h
        refine Or.inl ⟨m, hup.1, ?_⟩
        show (w.machine m).sees t = true
        unfold Machine.sees
        rw [hup.2]
      · cases h
    | call p =>
      simp only [step] at h
      split at h
      · cases h
      · obtain rfl := Option.some.inj h
        refine (hi.covered t ht).setProc fun _ => Or.inl (Or.inr (Or.inl ?_))
        unfold Proc.writer
        split <;> rfl
    | spawn p =>
      simp only [step] at h
      split at h
      · cases h
      · obtain rfl := Option.some.inj h
        refine (hi.covered t ht).setProc fun hq => Or.inl ?_
        rcases hq with hcalls | hreq | ⟨r, hr, hreach⟩
        · exact Or.inl hcalls
        · exact Or.inr (Or.inl hreq)
        · exact Or.inr (Or.inr ⟨r, List.mem_append_left _ hr, hreach⟩)
    | take p i | list p i | next p i | gone p i | still p i | post p i | fail p i =>
      have hpending : v.pending = w.pending := by
        simp only [step] at h
        repeat' split at h
        all_goals first
          | (cases h; done)
          | (obtain rfl := Option.some.inj h; rfl)
      exact covered_thread (p := p) (i := i) hfleet (by simp) (hi.ok p) hs h (hi.covered t (hpending ▸ ht))
    | boot m | announce m | look m | exit m | halt m =>
      have hpending : v.pending = w.pending := by
        simp only [step] at h
        split at h
        · obtain rfl := Option.some.inj h
          rfl
        · cases h
      have ht : t ∈ w.pending := hpending ▸ ht
      exact covered_machine (m := m) (by simp) h ht (hi.covered t ht)

end

/-! ## A machine that is going down -/

/-- one process, one machine, whose writer is up -/
def awake : World Unit Unit := ⟨fun _ => ⟨0, false, false, 0, [], 0, 0⟩, fun _ => ⟨.up, 0⟩, [], []⟩

/-- a capture is queued after the last look, and the machine stops within the watch -/
def restarted : List (Action Unit Unit) :=
  [.announce (), .look (), .look (), .queue () .captureQueue, .call (), .spawn (), .take () 0, .list () 0,
    .look (), .look (), .look (), .next () 0, .exit (), .halt (), .gone () 0, .post () 0, .next () 0, .take () 0,
    .boot ()]

/-- nothing in it can fail -/
def clean : Action Unit Unit → Bool
  | .insert _ _ | .spawnFails _ | .fail _ _ => false
  | _ => true

theorem steady_of_clean (w : World Unit Unit) (a : Action Unit Unit) (h : clean a = true) : Steady w a := by
  cases a with
  | insert | spawnFails | fail => cases h
  | _ => trivial

theorem rounds_serve_restarted : ∃ v, Runs.exec (step [()]) awake restarted = some v ∧
    (v.proc ()).threads.length ≤ 1 ∧ ((v.proc ()).running = false →
      (v.proc ()).requested = false ∧ (v.proc ()).served = (v.proc ()).asked) := by
  have hspawn : Runs.along (step [()]) (fun _ a => ∀ p, a ≠ .spawnFails p) awake restarted := by
    refine Runs.along_of_check (p := fun _ a => clean a) (fun _ a ha p heq => ?_) (by decide)
    subst heq
    cases ha
  refine ⟨_, rfl, ?_⟩
  exact rounds_serve ⟨rfl, rfl, fun _ => rfl⟩ (show Runs.exec (step [()]) awake restarted = some _ from rfl) hspawn ()

/-- the door for uploads queues a capture in an open transaction: the watch is over before the row is committed, the
writer looks and stops, and nothing wakes it -/
example : ∃ v, Runs.exec (step [()]) awake
    [.insert () .captureQueue, .call (), .spawn (), .take () 0, .list () 0, .next () 0, .still () 0, .next () 0,
      .take () 0, .announce (), .look (), .look (), .look (), .look (), .look (), .exit (), .halt (),
      .commit .captureQueue] = some v ∧
    (v.proc ()).Quiet ∧ v.pending = [.captureQueue] ∧ (v.machine ()).phase = .stopped :=
  ⟨_, rfl, ⟨rfl, rfl⟩, rfl, rfl⟩

end Wake
