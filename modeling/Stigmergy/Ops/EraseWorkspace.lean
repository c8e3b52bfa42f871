import Stigmergy.Lib.Runs
import Stigmergy.Ops.Erasure

/-!
# Deleting a workspace

`ops/erase_workspace.py`: the requests in `workspace_erasures` and the pass of the single writer that
carries one out, cut wherever it can stop: each action changes one system or is one statement.

* `tenantTables`     the tables of the isolation policy, children first;
* `step`             one action of an operator, of other people, of the writer;
* `Safe`             one open request a workspace; a request whose repository is gone never fails; rows go
                     with their workspace; nothing another workspace has or needs is removed;
* `Recorded`         the condition: no attempt gives up on a removal that was not recorded, and no row that
                     needs an object appears between its check and its deletion;
* `deletions_safe`   `Safe` over every run along `Recorded`;
* `not_deletions_safe`   eight attempts, of which the first removes the repository and stops.

`removals` keeps what was removed for which request, newest first.  Workspace ids are never made twice.
-/

set_option linter.unusedSectionVars false

namespace EraseWorkspace

open Erasure (Status)

def MAX_ATTEMPTS : ℕ := 8
def BACKOFF_BASE : Time := 60000000
def BACKOFF_CAP : Time := 3600000000

/-! ## Rows -/

inductive TenantStatus where
  | provisioning | active | suspended
deriving DecidableEq

/-- a row of `tenants` -/
structure Tenant where
  slug : Text
  name : Text
  status : TenantStatus
  repo : Text
  slackTeamId : Option Text

/-- what a row of a tenant table says about evidence -/
inductive Content where
  | artifact (originalRef readableRef : Text) (live : Bool)
  | queued (capture landed : Bool) (requested extracted : List Text)
  | upload (blobRef stagingRef : Text) (consumed : Bool) (expiresAt : Time)
  | change (exactPatchRef : Text)
  | layerErasure (garbage : List Text)
  | other (table : Text)
deriving DecidableEq

namespace Content

def table : Content → Text
  | artifact _ _ _ => "capture_artifacts".toList
  | queued _ _ _ _ => "capture_queue".toList
  | upload _ _ _ _ => "upload_sessions".toList
  | change _ => "knowledge_changes".toList
  | layerErasure _ => "layer_erasures".toList
  | other table => table

/-- `_tenant_refs`: what the row points at -/
def refs : Content → List Text
  | artifact originalRef readableRef _ => [originalRef, readableRef]
  | queued _ _ requested extracted => requested ++ extracted
  | upload blobRef stagingRef _ _ => [blobRef, stagingRef]
  | change exactPatchRef => [exactPatchRef]
  | layerErasure garbage => garbage
  | other _ => []

/-- the query of `is_live` on one row -/
def needs (now : Time) (ref : Text) : Content → Bool
  | artifact originalRef readableRef live => live && (originalRef == ref || readableRef == ref)
  | queued capture landed requested extracted =>
    capture && !landed && (requested.contains ref || extracted.contains ref)
  | upload blobRef _ consumed expiresAt => !consumed && decide (now ≤ expiresAt) && blobRef == ref
  | change exactPatchRef => exactPatchRef == ref
  | layerErasure _ => false
  | other _ => false

/-- time only takes needs away -/
theorem needs_mono {now later : Time} (h : now ≤ later) {ref : Text} {c : Content}
    (hc : c.needs later ref = true) : c.needs now ref = true := by
  cases c with
  | upload blobRef stagingRef consumed expiresAt =>
    simp only [needs, Bool.and_eq_true, decide_eq_true_eq] at hc ⊢
    exact ⟨⟨hc.1.1, h.trans hc.1.2⟩, hc.2⟩
  | _ => exact hc

end Content

structure Receipt where
  repository : Option Text
  rows : Option (List (Text × ℕ))
  searchIndexesDropped : ℕ
  evidenceDeleted : ℕ
  checkoutRemoved : Bool

section
variable (ι τ : Type*)

structure Row where
  tenant : τ
  content : Content
deriving DecidableEq

/-- a row of `workspace_erasures` -/
structure Request where
  id : ι
  workspaceId : τ
  slug : Text
  name : Text
  repo : Text
  status : Status
  requestedBy : Text
  requestedAt : Time
  startedAt : Option Time
  finishedAt : Option Time
  attempts : ℕ
  nextAttemptAt : Time
  repoDeleted : Bool
  rowsDeleted : Bool
  garbage : List Text
  receipt : Receipt
  error : Text

inductive Removal where
  | repo (id : ι) (repo : Text)
  | row (id : ι) (row : Row τ)
  /-- an object, and the other workspaces that need it -/
  | object (id : ι) (ref : Text) (neededBy : List τ)

/-- where the writer is in `run`; the request as the row has it, and the receipt so far -/
inductive Phase where
  | idle
  | begun (r : Request ι τ)
  | eligible (r : Request ι τ)
  | removed (r : Request ι τ) (receipt : Receipt)
  | recorded (r : Request ι τ) (receipt : Receipt)
  | rowless (r : Request ι τ) (receipt : Receipt)
  | unindexed (r : Request ι τ) (receipt : Receipt)
  | collecting (r : Request ι τ) (receipt : Receipt) (todo : List Text) (deleted : ℕ)
  /-- the object was found unneeded; its deletion comes next -/
  | deleting (r : Request ι τ) (receipt : Receipt) (ref : Text) (todo : List Text) (deleted : ℕ)
  | collected (r : Request ι τ) (receipt : Receipt)
  | forgotten (r : Request ι τ) (receipt : Receipt)
  | failing (r : Request ι τ) (refused : Bool) (reason : Text)

structure World where
  tenants : AList fun _ : τ => Tenant
  issued : List τ
  rows : List (Row τ)
  repos : List Text
  store : List Text
  /-- the search indexes and the checkouts, by workspace -/
  indexes : List τ
  checkouts : List τ
  requests : List (Request ι τ)
  now : Time
  phase : Phase ι τ
  removals : List (Removal ι τ)

inductive Action where
  | tick (time : Time)
  | create (workspace : τ) (tenant : Tenant)
  | provision (workspace : τ)
  /-- whoever changes the status, the console or not -/
  | setStatus (workspace : τ) (status : TenantStatus)
  | write (row : Row τ)
  | unwrite (row : Row τ)
  | put (ref : Text)
  | index (workspace : τ)
  | checkout (workspace : τ)
  /-- `known` is the workspace as the console has read it -/
  | request (id : ι) (workspace : τ) (known : Tenant) (confirm actor : Text)
  | claim
  | check
  /-- the repository is removed; the writer may not hear of it -/
  | remove (configured heard : Bool)
  | record
  | deleteRows
  | dropIndexes
  | collect (configured : Bool)
  | examine
  | delete
  | clear
  | forget
  | finish
  | raise (kind message : Text)
  | fail
  | stop

end

section
variable {ι τ : Type*} [DecidableEq ι] [DecidableEq τ]

/-! ## The requests -/

def Request.isOpen (r : Request ι τ) : Bool := r.status == .queued || r.status == .running

def NOT_SUSPENDED : Text := "the workspace is no longer suspended; nothing was deleted".toList
def OWNS_SLACK : Text := "the workspace owns the deployment's Slack app; nothing was deleted".toList

/-- what tells people that nothing was deleted -/
def REFUSALS : List Text := [NOT_SUSPENDED, OWNS_SLACK]

/-- a team that is there and not empty -/
def ownsSlack (team : Option Text) : Bool := team.any fun t => !t.isEmpty

/-- `_ineligible` -/
def ineligible (tenants : AList fun _ : τ => Tenant) (workspace : τ) : Option Text :=
  match tenants.lookup workspace with
  | none => none
  | some t =>
    if t.status ≠ .suspended then some NOT_SUSPENDED
    else if ownsSlack t.slackTeamId then some OWNS_SLACK
    else none

def emptyReceipt : Receipt := ⟨none, none, 0, 0, false⟩

def newRequest (id : ι) (workspace : τ) (known : Tenant) (actor : Text) (now : Time) : Request ι τ :=
  { id := id, workspaceId := workspace, slug := known.slug, name := known.name, repo := known.repo,
    status := .queued, requestedBy := actor, requestedAt := now, startedAt := none, finishedAt := none,
    attempts := 0, nextAttemptAt := now, repoDeleted := false, rowsDeleted := false, garbage := [],
    receipt := emptyReceipt, error := [] }

def hasOpen (requests : List (Request ι τ)) (workspace : τ) : Bool :=
  requests.any fun r => r.isOpen && r.workspaceId == workspace

def request (tenants : AList fun _ : τ => Tenant) (requests : List (Request ι τ)) (now : Time) (id : ι)
    (workspace : τ) (known : Tenant) (confirm actor : Text) : Except Text (List (Request ι τ)) :=
  if ownsSlack known.slackTeamId then
    .error "this workspace owns the deployment's Slack app and cannot be deleted from the console".toList
  else if Text.strip confirm ≠ known.slug then .error "type the workspace's slug exactly to confirm".toList
  else if (ineligible tenants workspace).isSome then
    .error "suspend the workspace before deleting it".toList
  else if hasOpen requests workspace then .error "this workspace is already being deleted".toList
  else .ok (requests ++ [newRequest id workspace known actor now])

def due (now : Time) (r : Request ι τ) : Bool := r.isOpen && decide (r.nextAttemptAt ≤ now)

def backoff (attempts : ℕ) : Time := min BACKOFF_CAP (BACKOFF_BASE * 2 ^ min attempts 16)

def claimed (now : Time) (r : Request ι τ) : Request ι τ :=
  { r with status := .running, attempts := r.attempts + 1, startedAt := r.startedAt <|> some now,
           nextAttemptAt := now + backoff r.attempts }

/-- `UPDATE … WHERE id = …` -/
def update (id : ι) (f : Request ι τ → Request ι τ) (requests : List (Request ι τ)) :
    List (Request ι τ) :=
  requests.map fun r => if r.id = id then f r else r

/-- `claim`: the oldest due request, marked running -/
def claim (requests : List (Request ι τ)) (now : Time) : Option (Request ι τ × List (Request ι τ)) :=
  (requests.find? (due now)).map fun r => (claimed now r, update r.id (claimed now) requests)

/-! ### what `_record` sets -/

def recordRepo (receipt : Receipt) (r : Request ι τ) : Request ι τ :=
  { r with repoDeleted := true, receipt := receipt }

def recordRows (refs : List Text) (receipt : Receipt) (r : Request ι τ) : Request ι τ :=
  { r with rowsDeleted := true, garbage := refs, receipt := receipt }

def recordCollected (receipt : Receipt) (r : Request ι τ) : Request ι τ :=
  { r with garbage := [], receipt := receipt }

def finished (receipt : Receipt) (now : Time) (r : Request ι τ) : Request ι τ :=
  { r with status := .succeeded, finishedAt := some now, receipt := receipt, error := [] }

/-- the decision of `fail`: what ends for good -/
def isFinal (r : Request ι τ) (refused : Bool) : Bool :=
  !r.repoDeleted && (refused || decide (MAX_ATTEMPTS ≤ r.attempts))

def failed (refused : Bool) (reason : Text) (now : Time) (r : Request ι τ) : Request ι τ :=
  if isFinal r refused then { r with status := .failed, error := reason, finishedAt := some now }
  else { r with status := .queued, error := reason }

/-! ## The rows of a workspace -/

/-- the tables no other of them refers to -/
def leaves (fks : List (Text × Text)) (tables : List Text) : List Text :=
  sortedSet (tables.filter fun t => !fks.any fun e => tables.contains e.1 && e.2 == t && e.1 != e.2)

/-- the tables that are left without the leaves -/
def inner (fks : List (Text × Text)) (tables : List Text) : List Text :=
  tables.filter fun t => !(leaves fks tables).contains t

theorem length_inner {fks : List (Text × Text)} {tables : List Text}
    (h : (leaves fks tables).isEmpty = false) : (inner fks tables).length < tables.length := by
  obtain ⟨t, ht⟩ := List.exists_mem_of_ne_nil _ (List.isEmpty_eq_false_iff.mp h)
  refine List.length_filter_lt_length_iff_exists.mpr ⟨t, ?_, ?_⟩
  · exact (List.mem_filter.mp (mem_sortedSet.mp ht)).1
  · rw [List.contains_iff_mem.mpr ht]
    exact Bool.false_ne_true

/-- `_tenant_tables`: a table that references another before it -/
def tenantTables (fks : List (Text × Text)) (tables : List Text) : Except Text (List Text) :=
  if tables.isEmpty then .ok []
  else if _h : (leaves fks tables).isEmpty = false then
    (tenantTables fks (inner fks tables)).map (leaves fks tables ++ ·)
  else .error "the tenant tables reference each other in a cycle".toList
termination_by tables.length
decreasing_by exact length_inner _h

/-- every table of the policy is among them -/
theorem mem_tenantTables {fks : List (Text × Text)} {tables ordered : List Text}
    (h : tenantTables fks tables = .ok ordered) (t : Text) : t ∈ ordered ↔ t ∈ tables := by
  induction tables using tenantTables.induct fks generalizing ordered with
  | case1 tables hempty =>
    rw [tenantTables, if_pos hempty] at h
    rw [← Except.ok.inj h, List.isEmpty_iff.mp hempty]
  | case2 tables hne hleaves ih =>
    rw [tenantTables, if_neg hne, dif_pos hleaves] at h
    obtain ⟨rest, hrest, rfl⟩ := Checks.map_eq_ok h
    rw [List.mem_append, ih hrest, inner, List.mem_filter]
    by_cases hmem : t ∈ leaves fks tables
    · exact ⟨fun _ => (List.mem_filter.mp (mem_sortedSet.mp hmem)).1, fun _ => Or.inl hmem⟩
    · have hnot : (leaves fks tables).contains t = false := Bool.eq_false_iff.mpr fun hc =>
        hmem (List.contains_iff_mem.mp hc)
      rw [hnot]
      exact ⟨fun hor => hor.elim (fun hm => absurd hm hmem) And.left, fun ht => Or.inr ⟨ht, rfl⟩⟩
  | case3 tables hne hleaves =>
    rw [tenantTables, if_neg hne, dif_neg hleaves] at h
    exact nomatch h

def rowsOf (rows : List (Row τ)) (workspace : τ) : List (Row τ) := rows.filter fun r => r.tenant == workspace

/-- `_tenant_refs` -/
def tenantRefs (rows : List (Row τ)) (workspace : τ) : List Text :=
  sortedSet (((rowsOf rows workspace).flatMap fun r => r.content.refs).filter fun ref => !ref.isEmpty)

/-- the rows a table has lost, for the tables that had any -/
def countRows (rows : List (Row τ)) (workspace : τ) (tables : List Text) : List (Text × ℕ) :=
  (tables.map fun t => (t, ((rowsOf rows workspace).filter fun r => r.content.table == t).length)).filter
    fun e => e.2 != 0

/-- the deletions of `_delete_rows` -/
def deleteRows (rows : List (Row τ)) (workspace : τ) (tables : List Text) : List (Row τ) :=
  rows.filter fun r => !(r.tenant == workspace && tables.contains r.content.table)

def isLive (rows : List (Row τ)) (now : Time) (ref : Text) : Bool := rows.any fun r => r.content.needs now ref

/-- the workspaces that need an object -/
def neededBy (rows : List (Row τ)) (now : Time) (ref : Text) : List τ :=
  ((rows.filter fun r => r.content.needs now ref).map Row.tenant).dedup

/-! ## Steps -/

/-- the request of an attempt that can stop with an error -/
def Phase.attempt : Phase ι τ → Option (Request ι τ)
  | .idle | .failing _ _ _ => none
  | .begun r | .eligible r | .removed r _ | .recorded r _ | .rowless r _ | .unindexed r _
  | .collecting r _ _ _ | .deleting r _ _ _ _ | .collected r _ | .forgotten r _ => some r

/-- `f"{error.__class__.__name__}: {str(error)[:300]}"` -/
def reasonOf (kind message : Text) : Text := kind ++ ':' :: ' ' :: message.take 300

variable (fks : List (Text × Text)) (policies : List Text)

/-- the statement of `_delete_rows`, all of it or nothing -/
def stepRows (w : World ι τ) (r : Request ι τ) (receipt : Receipt) : World ι τ :=
  match tenantTables fks policies with
  | .error e => { w with phase := .failing r false (reasonOf "RuntimeError".toList e) }
  | .ok tables =>
    let left := deleteRows w.rows r.workspaceId tables
    if (rowsOf left r.workspaceId).isEmpty then
      let refs := tenantRefs w.rows r.workspaceId
      let receipt := { receipt with rows := some (countRows w.rows r.workspaceId tables) }
      { w with
        rows := left
        tenants := w.tenants.erase r.workspaceId
        requests := update r.id (recordRows refs receipt) w.requests
        phase := .rowless (recordRows refs receipt r) receipt
        removals := (rowsOf w.rows r.workspaceId).map (.row r.id) ++ w.removals }
    else { w with phase := .failing r false (reasonOf "ForeignKeyViolation".toList []) }

def step (w : World ι τ) : Action ι τ → Option (World ι τ)
  | .tick time => some { w with now := w.now + time }
  | .create workspace tenant =>
    if workspace ∈ w.issued ∨
        (w.tenants.entries.any fun e => e.2.slug == tenant.slug || e.2.repo == tenant.repo) = true then none
    else some { w with issued := workspace :: w.issued, tenants := w.tenants.insert workspace tenant }
  | .provision workspace =>
    match w.tenants.lookup workspace with
    | some t => if t.status = .provisioning then
        some { w with repos := t.repo :: w.repos, tenants := w.tenants.insert workspace { t with status := .active } }
      else none
    | none => none
  | .setStatus workspace status =>
    (w.tenants.lookup workspace).map fun t =>
      { w with tenants := w.tenants.insert workspace { t with status := status } }
  | .write row => if row.tenant ∈ w.tenants then some { w with rows := row :: w.rows } else none
  | .unwrite row => some { w with rows := w.rows.erase row }
  | .put ref => some { w with store := ref :: w.store }
  | .index workspace => some { w with indexes := workspace :: w.indexes }
  | .checkout workspace => some { w with checkouts := workspace :: w.checkouts }
  | .request id workspace known confirm actor =>
    if workspace ∉ w.issued ∨ (w.requests.any fun r => r.id == id) = true then none
    else match request w.tenants w.requests w.now id workspace known confirm actor with
      | .ok requests => some { w with requests := requests }
      | .error _ => some w
  | .claim =>
    match w.phase with
    | .idle => match claim w.requests w.now with
      | none => some w
      | some (r, requests) => some { w with requests := requests, phase := .begun r }
    | _ => none
  | .check =>
    match w.phase with
    | .begun r =>
      if r.repoDeleted then some { w with phase := .recorded r r.receipt }
      else match ineligible w.tenants r.workspaceId with
        | some reason => some { w with phase := .failing r true reason }
        | none => some { w with phase := .eligible r }
    | _ => none
  | .remove configured heard =>
    match w.phase with
    | .eligible r =>
      if !configured then
        some { w with phase := .failing r false (reasonOf "RuntimeError".toList
          "the repository cannot be deleted without the librarian GitHub App".toList) }
      else
        let there := w.repos.contains r.repo
        let receipt := { r.receipt with repository := some (if there then "deleted".toList else "absent".toList) }
        some { w with
          repos := w.repos.filter (· != r.repo)
          phase := if heard then .removed r receipt else .failing r false (reasonOf "URLError".toList [])
          removals := if there then .repo r.id r.repo :: w.removals else w.removals }
    | _ => none
  | .record =>
    match w.phase with
    | .removed r receipt => some { w with
        requests := update r.id (recordRepo receipt) w.requests
        phase := .recorded (recordRepo receipt r) receipt }
    | _ => none
  | .deleteRows =>
    match w.phase with
    | .recorded r receipt =>
      if r.rowsDeleted then some { w with phase := .rowless r receipt }
      else some (stepRows fks policies w r receipt)
    | _ => none
  | .dropIndexes =>
    match w.phase with
    | .rowless r receipt => some { w with
        indexes := w.indexes.filter (· != r.workspaceId)
        phase := .unindexed r { receipt with
          searchIndexesDropped := receipt.searchIndexesDropped + w.indexes.count r.workspaceId } }
    | _ => none
  | .collect configured =>
    match w.phase with
    | .unindexed r receipt => some { w with
        phase := if configured then .collecting r receipt r.garbage 0 else .collected r receipt }
    | _ => none
  | .examine =>
    match w.phase with
    | .collecting r receipt (ref :: todo) deleted => some { w with
        phase := if isLive w.rows w.now ref then .collecting r receipt todo deleted
          else .deleting r receipt ref todo deleted }
    | _ => none
  | .delete =>
    match w.phase with
    | .deleting r receipt ref todo deleted =>
      let there := w.store.contains ref
      some { w with
        store := w.store.filter (· != ref)
        phase := .collecting r receipt todo (if there then deleted + 1 else deleted)
        removals := .object r.id ref ((neededBy w.rows w.now ref).filter (· != r.workspaceId)) :: w.removals }
    | _ => none
  | .clear =>
    match w.phase with
    | .collecting r receipt [] deleted =>
      let receipt := { receipt with evidenceDeleted := receipt.evidenceDeleted + deleted }
      some { w with
        requests := update r.id (recordCollected receipt) w.requests
        phase := .collected (recordCollected receipt r) receipt }
    | _ => none
  | .forget =>
    match w.phase with
    | .collected r receipt => some { w with
        checkouts := w.checkouts.filter (· != r.workspaceId)
        phase := .forgotten r { receipt with
          checkoutRemoved := w.checkouts.contains r.workspaceId || receipt.checkoutRemoved } }
    | _ => none
  | .finish =>
    match w.phase with
    | .forgotten r receipt => some { w with
        requests := update r.id (finished receipt w.now) w.requests, phase := .idle }
    | _ => none
  | .raise kind message =>
    w.phase.attempt.map fun r => { w with phase := .failing r false (reasonOf kind message) }
  | .fail =>
    match w.phase with
    | .failing r refused reason => some { w with
        requests := update r.id (failed refused reason w.now) w.requests, phase := .idle }
    | _ => none
  | .stop => some { w with phase := .idle }

end

section
variable {ι τ : Type*} [DecidableEq ι] [DecidableEq τ]

/-! ## What is to hold -/

structure Safe (w : World ι τ) : Prop where
  one_open : ∀ r ∈ w.requests, ∀ r' ∈ w.requests, r.isOpen = true → r'.isOpen = true →
    r.workspaceId = r'.workspaceId → r = r'
  /-- no request fails, or says that nothing was deleted, once its repository is gone -/
  gone_kept : ∀ id repo, .repo id repo ∈ w.removals → ∀ r ∈ w.requests, r.id = id →
    r.status ≠ .failed ∧ r.error ∉ REFUSALS
  failed_nothing : ∀ r ∈ w.requests, r.status = .failed → (∀ repo, .repo r.id repo ∉ w.removals) ∧
    (∀ row, .row r.id row ∉ w.removals) ∧ ∀ ref needers, .object r.id ref needers ∉ w.removals
  /-- rows are there with their workspace, and gone with it -/
  whole : (∀ row ∈ w.rows, row.tenant ∈ w.tenants) ∧
    ∀ id row, .row id row ∈ w.removals → row.tenant ∉ w.tenants
  own_rows : ∀ id row, .row id row ∈ w.removals → ∃ r ∈ w.requests, r.id = id ∧ row.tenant = r.workspaceId
  unneeded : ∀ id ref needers, .object id ref needers ∈ w.removals → needers = []
  empty : ∀ r ∈ w.requests, r.status = .succeeded → ∀ row ∈ w.rows, row.tenant ≠ r.workspaceId

/-- the repository was removed for the request, and its row does not say so -/
def Unrecorded (removals : List (Removal ι τ)) (r : Request ι τ) : Prop :=
  r.repoDeleted = false ∧ ∃ repo, .repo r.id repo ∈ removals

/-- an attempt after a removal that was not recorded finds the workspace eligible, and is not the last if it
fails; no row that needs an object appears between its check and its deletion -/
def Recorded (w : World ι τ) : Action ι τ → Prop
  | .check => ∀ r, w.phase = .begun r → Unrecorded w.removals r → ineligible w.tenants r.workspaceId = none
  | .fail => ∀ r refused reason, w.phase = .failing r refused reason → Unrecorded w.removals r →
      r.attempts < MAX_ATTEMPTS
  | .write row => ∀ r receipt ref todo deleted, w.phase = .deleting r receipt ref todo deleted →
      row.content.needs w.now ref = false
  | _ => True

/-! ## The invariant -/

/-- the row of the attempt -/
def Mine (requests : List (Request ι τ)) (r : Request ι τ) : Prop := r ∈ requests ∧ r.status = .running

def At (w : World ι τ) : Phase ι τ → Prop
  | .idle => True
  | .begun r | .eligible r | .removed r _ => Mine w.requests r
  | .recorded r _ => Mine w.requests r ∧ r.repoDeleted = true
  | .rowless r _ | .unindexed r _ | .collecting r _ _ _ | .collected r _ | .forgotten r _ =>
    Mine w.requests r ∧ r.rowsDeleted = true
  | .deleting r _ ref _ _ => (Mine w.requests r ∧ r.rowsDeleted = true) ∧
      ∀ row ∈ w.rows, row.content.needs w.now ref = false
  | .failing r refused reason => Mine w.requests r ∧
      (refused = true → r.repoDeleted = false ∧ ∀ repo, .repo r.id repo ∉ w.removals) ∧
      (reason ∈ REFUSALS → refused = true)

/-- what a request's row says of the other systems -/
structure RequestOk (tenants : AList fun _ : τ => Tenant) (r : Request ι τ) : Prop where
  rows_gone : r.rowsDeleted = true → r.repoDeleted = true ∧ r.workspaceId ∉ tenants
  kept : r.repoDeleted = true → r.status ≠ .failed
  said : r.error ∈ REFUSALS → r.status = .failed
  done : r.status = .succeeded → r.rowsDeleted = true

def RemovalOk (requests : List (Request ι τ)) : Removal ι τ → Prop
  | .repo id _ => ∃ r ∈ requests, r.id = id ∧ r.status ≠ .failed
  | .row id row => ∃ r ∈ requests, r.id = id ∧ r.rowsDeleted = true ∧ row.tenant = r.workspaceId
  | .object id _ needers => needers = [] ∧ ∃ r ∈ requests, r.id = id ∧ r.repoDeleted = true

structure Inv (w : World ι τ) : Prop where
  ids : (w.requests.map Request.id).Nodup
  one_open : ∀ r ∈ w.requests, ∀ r' ∈ w.requests, r.isOpen = true → r'.isOpen = true →
    r.workspaceId = r'.workspaceId → r = r'
  fk : ∀ row ∈ w.rows, row.tenant ∈ w.tenants
  issued : ∀ workspace ∈ w.tenants, workspace ∈ w.issued
  asked : ∀ r ∈ w.requests, r.workspaceId ∈ w.issued
  requests_ok : ∀ r ∈ w.requests, RequestOk w.tenants r
  removals_ok : ∀ e ∈ w.removals, RemovalOk w.requests e
  at_phase : At w w.phase

theorem Inv.eq_of_id {w : World ι τ} (h : Inv w) {r r' : Request ι τ} (hr : r ∈ w.requests)
    (hr' : r' ∈ w.requests) (hid : r.id = r'.id) : r = r' :=
  List.inj_on_of_nodup_map h.ids hr hr' hid

theorem Inv.safe {w : World ι τ} (h : Inv w) : Safe w where
  one_open := h.one_open
  gone_kept := by
    intro id repo hmem r hr hid
    obtain ⟨r', hr', hid', hkept⟩ := h.removals_ok _ hmem
    rw [h.eq_of_id hr hr' (hid.trans hid'.symm)]
    exact ⟨hkept, fun hsaid => hkept ((h.requests_ok r' hr').said hsaid)⟩
  failed_nothing := by
    intro r hr hfailed
    have hnot : r.repoDeleted ≠ true := fun hdel => (h.requests_ok r hr).kept hdel hfailed
    refine ⟨fun repo hmem => ?_, fun row hmem => ?_, fun ref needers hmem => ?_⟩
    · obtain ⟨r', hr', hid, hkept⟩ := h.removals_ok _ hmem
      rw [h.eq_of_id hr' hr hid] at hkept
      exact hkept hfailed
    · obtain ⟨r', hr', hid, hrows, -⟩ := h.removals_ok _ hmem
      rw [h.eq_of_id hr' hr hid] at hrows
      exact hnot ((h.requests_ok r hr).rows_gone hrows).1
    · obtain ⟨-, r', hr', hid, hrepo⟩ := h.removals_ok _ hmem
      rw [h.eq_of_id hr' hr hid] at hrepo
      exact hnot hrepo
  whole := by
    refine ⟨h.fk, fun id row hmem => ?_⟩
    obtain ⟨r, hr, -, hrows, htenant⟩ := h.removals_ok _ hmem
    rw [htenant]
    exact ((h.requests_ok r hr).rows_gone hrows).2
  own_rows := by
    intro id row hmem
    obtain ⟨r, hr, hid, -, htenant⟩ := h.removals_ok _ hmem
    exact ⟨r, hr, hid, htenant⟩
  unneeded := fun id ref needers hmem => (h.removals_ok _ hmem).1
  empty := by
    intro r hr hdone row hrow htenant
    have hgone := ((h.requests_ok r hr).rows_gone ((h.requests_ok r hr).done hdone)).2
    exact hgone (htenant ▸ h.fk row hrow)

/-- a step that leaves the requests, the rows, the workspaces and the removals -/
theorem Inv.moved {w w' : World ι τ} (h : Inv w)
    (hsame : w'.requests = w.requests ∧ w'.rows = w.rows ∧ w'.tenants = w.tenants ∧ w'.issued = w.issued ∧
      w'.removals = w.removals) (hat : At w' w'.phase) : Inv w' := by
  obtain ⟨hrequests, hrows, htenants, hissued, hremovals⟩ := hsame
  refine ⟨?_, ?_, ?_, ?_, ?_, ?_, ?_, hat⟩
  · rw [hrequests]
    exact h.ids
  · rw [hrequests]
    exact h.one_open
  · rw [hrows, htenants]
    exact h.fk
  · rw [htenants, hissued]
    exact h.issued
  · rw [hrequests, hissued]
    exact h.asked
  · rw [hrequests, htenants]
    exact h.requests_ok
  · rw [hremovals, hrequests]
    exact h.removals_ok

/-- what others do to the rows, to the clock and to the list of requests -/
theorem At.mono {w w' : World ι τ} {p : Phase ι τ} (h : At w p)
    (hrequests : ∀ r ∈ w.requests, r ∈ w'.requests) (hremovals : w'.removals = w.removals)
    (hneeds : ∀ r receipt ref todo deleted, p = .deleting r receipt ref todo deleted →
      (∀ row ∈ w.rows, row.content.needs w.now ref = false) →
        ∀ row ∈ w'.rows, row.content.needs w'.now ref = false) : At w' p := by
  have hmine : ∀ r, Mine w.requests r → Mine w'.requests r := fun r hr => ⟨hrequests r hr.1, hr.2⟩
  cases p with
  | idle => trivial
  | begun r | eligible r | removed r _ => exact hmine r h
  | recorded r _ | rowless r _ | unindexed r _ | collecting r _ _ _ | collected r _ | forgotten r _ =>
    exact ⟨hmine r h.1, h.2⟩
  | deleting r receipt ref todo deleted =>
    exact ⟨⟨hmine r h.1.1, h.1.2⟩, hneeds r receipt ref todo deleted rfl h.2⟩
  | failing r refused reason =>
    refine ⟨hmine r h.1, ?_, h.2.2⟩
    rw [hremovals]
    exact h.2.1

theorem mem_update {id : ι} {f : Request ι τ → Request ι τ} {requests : List (Request ι τ)}
    {r : Request ι τ} : r ∈ update id f requests ↔
      (∃ r' ∈ requests, r'.id = id ∧ f r' = r) ∨ (r ∈ requests ∧ r.id ≠ id) := by
  unfold update
  rw [List.mem_map]
  constructor
  · rintro ⟨r', hr', heq⟩
    by_cases hid : r'.id = id
    · rw [if_pos hid] at heq
      exact Or.inl ⟨r', hr', hid, heq⟩
    · rw [if_neg hid] at heq
      exact Or.inr ⟨heq ▸ hr', heq ▸ hid⟩
  · rintro (⟨r', hr', hid, heq⟩ | ⟨hr, hid⟩)
    · exact ⟨r', hr', by rw [if_pos hid, heq]⟩
    · exact ⟨r, hr, if_neg hid⟩

/-- a statement on the row of the attempt keeps what it says of itself -/
structure Keeps (w : World ι τ) (r r' : Request ι τ) : Prop where
  id : r'.id = r.id
  workspaceId : r'.workspaceId = r.workspaceId
  repoDeleted : r.repoDeleted = true → r'.repoDeleted = true
  rowsDeleted : r.rowsDeleted = true → r'.rowsDeleted = true
  gone : ∀ repo, .repo r.id repo ∈ w.removals → r'.status ≠ .failed

/-- the row of the attempt after a statement on it -/
theorem mem_update_self {f : Request ι τ → Request ι τ} {requests : List (Request ι τ)} {r : Request ι τ}
    (hr : r ∈ requests) : f r ∈ update r.id f requests :=
  mem_update.mpr (Or.inl ⟨r, hr, rfl, rfl⟩)

theorem removalOk_update {w : World ι τ} (h : Inv w) {r : Request ι τ} (hr : r ∈ w.requests)
    {f : Request ι τ → Request ι τ} (hf : Keeps w r (f r)) {e : Removal ι τ} (he : e ∈ w.removals) :
    RemovalOk (update r.id f w.requests) e := by
  have hcases : ∀ r' ∈ w.requests, r' = r ∨ r'.id ≠ r.id := fun r' hr' => by
    by_cases hid : r'.id = r.id
    · exact Or.inl (h.eq_of_id hr' hr hid)
    · exact Or.inr hid
  have hother : ∀ r' ∈ w.requests, r'.id ≠ r.id → r' ∈ update r.id f w.requests := fun r' hr' hid =>
    mem_update.mpr (Or.inr ⟨hr', hid⟩)
  have hok := h.removals_ok e he
  cases e with
  | repo id repo =>
    obtain ⟨r', hr', hid, hkept⟩ := hok
    rcases hcases r' hr' with rfl | hne
    · exact ⟨f r', mem_update_self hr, hf.id.trans hid, hf.gone repo (hid ▸ he)⟩
    · exact ⟨r', hother r' hr' hne, hid, hkept⟩
  | row id row =>
    obtain ⟨r', hr', hid, hrows, htenant⟩ := hok
    rcases hcases r' hr' with rfl | hne
    · exact ⟨f r', mem_update_self hr, hf.id.trans hid, hf.rowsDeleted hrows, htenant.trans hf.workspaceId.symm⟩
    · exact ⟨r', hother r' hr' hne, hid, hrows, htenant⟩
  | object id ref needers =>
    obtain ⟨hnone, r', hr', hid, hrepo⟩ := hok
    rcases hcases r' hr' with rfl | hne
    · exact ⟨hnone, f r', mem_update_self hr, hf.id.trans hid, hf.repoDeleted hrepo⟩
    · exact ⟨hnone, r', hother r' hr' hne, hid, hrepo⟩

/-- one statement on the row of the attempt -/
theorem Inv.updated {w w' : World ι τ} (h : Inv w) {r : Request ι τ} (hr : r ∈ w.requests)
    (hopen : r.isOpen = true) {f : Request ι τ → Request ι τ} (hf : Keeps w r (f r)) (hok : RequestOk w.tenants (f r))
    (hsame : w'.requests = update r.id f w.requests ∧ w'.rows = w.rows ∧ w'.tenants = w.tenants ∧
      w'.issued = w.issued ∧ w'.removals = w.removals) (hat : At w' w'.phase) : Inv w' := by
  obtain ⟨hrequests, hrows, htenants, hissued, hremovals⟩ := hsame
  have hcases : ∀ r' ∈ update r.id f w.requests, r' = f r ∨ (r' ∈ w.requests ∧ r'.id ≠ r.id) := by
    intro r' hr'
    rcases mem_update.mp hr' with ⟨x, hx, hid, rfl⟩ | hold
    · rw [h.eq_of_id hx hr hid]
      exact Or.inl rfl
    · exact Or.inr hold
  refine ⟨?_, ?_, ?_, ?_, ?_, ?_, ?_, hat⟩
  · have hids : (update r.id f w.requests).map Request.id = w.requests.map Request.id := by
      unfold update
      rw [List.map_map]
      refine List.map_congr_left fun x hx => ?_
      by_cases hid : x.id = r.id
      · rw [Function.comp_apply, if_pos hid, h.eq_of_id hx hr hid, hf.id]
      · rw [Function.comp_apply, if_neg hid]
    rw [hrequests, hids]
    exact h.ids
  · rw [hrequests]
    intro a ha b hb hoa hob hws
    rcases hcases a ha with rfl | ⟨ha, hna⟩ <;> rcases hcases b hb with rfl | ⟨hb, hnb⟩
    · rfl
    · rw [hf.workspaceId] at hws
      exact absurd (congrArg Request.id (h.one_open r hr b hb hopen hob hws)).symm hnb
    · rw [hf.workspaceId] at hws
      exact absurd (congrArg Request.id (h.one_open a ha r hr hoa hopen hws)) hna
    · exact h.one_open a ha b hb hoa hob hws
  · rw [hrows, htenants]
    exact h.fk
  · rw [htenants, hissued]
    exact h.issued
  · rw [hrequests, hissued]
    intro a ha
    rcases hcases a ha with rfl | ⟨ha, -⟩
    · rw [hf.workspaceId]
      exact h.asked r hr
    · exact h.asked a ha
  · rw [hrequests, htenants]
    intro a ha
    rcases hcases a ha with rfl | ⟨ha, -⟩
    · exact hok
    · exact h.requests_ok a ha
  · rw [hremovals, hrequests]
    exact fun e he => removalOk_update h hr hf he

/-! ## Each action keeps it -/

theorem Mine.isOpen {requests : List (Request ι τ)} {r : Request ι τ} (h : Mine requests r) :
    r.isOpen = true := by
  unfold Request.isOpen
  rw [h.2]
  rfl

/-- a statement on a running row that leaves it running -/
theorem Inv.running {w w' : World ι τ} (h : Inv w) {r : Request ι τ} (hr : Mine w.requests r)
    {f : Request ι τ → Request ι τ} (hid : (f r).id = r.id) (hworkspace : (f r).workspaceId = r.workspaceId)
    (hstatus : (f r).status = r.status) (herror : (f r).error = r.error)
    (hrepo : r.repoDeleted = true → (f r).repoDeleted = true) (hrows : (f r).rowsDeleted = r.rowsDeleted)
    (hsame : w'.requests = update r.id f w.requests ∧ w'.rows = w.rows ∧ w'.tenants = w.tenants ∧
      w'.issued = w.issued ∧ w'.removals = w.removals) (hat : At w' w'.phase) : Inv w' := by
  have hrun : (f r).status = .running := hstatus.trans hr.2
  have hok := h.requests_ok r hr.1
  refine h.updated hr.1 hr.isOpen ⟨hid, hworkspace, hrepo, fun hd => hrows.trans hd, ?_⟩ ⟨?_, ?_, ?_, ?_⟩
    hsame hat
  · intro _ _ hfailed
    exact nomatch hrun.symm.trans hfailed
  · intro hd
    rw [hrows] at hd
    exact ⟨hrepo (hok.rows_gone hd).1, by rw [hworkspace]; exact (hok.rows_gone hd).2⟩
  · intro _ hfailed
    exact nomatch hrun.symm.trans hfailed
  · intro hsaid
    rw [herror] at hsaid
    exact nomatch hr.2.symm.trans (hok.said hsaid)
  · intro hdone
    exact nomatch hrun.symm.trans hdone

theorem mine_update {requests : List (Request ι τ)} {r : Request ι τ} {f : Request ι τ → Request ι τ}
    (h : Mine requests r) (hstatus : (f r).status = r.status) : Mine (update r.id f requests) (f r) :=
  ⟨mem_update_self h.1, hstatus.trans h.2⟩

/-- a reason with the name of an error is none of the refusals -/
theorem reasonOf_notMem (kind message : Text) : reasonOf kind message ∉ REFUSALS := by
  intro h
  have hcolon : ':' ∈ reasonOf kind message := List.mem_append_right _ List.mem_cons_self
  have hall : ∀ t ∈ REFUSALS, ':' ∉ t := by decide
  exact hall _ h hcolon

theorem at_error {w : World ι τ} {r : Request ι τ} (h : Mine w.requests r) (kind message : Text) :
    At w (.failing r false (reasonOf kind message)) :=
  ⟨h, nofun, fun hmem => absurd hmem (reasonOf_notMem kind message)⟩

theorem At.mine {w : World ι τ} {p : Phase ι τ} {r : Request ι τ} (h : At w p) (hr : p.attempt = some r) :
    Mine w.requests r := by
  cases p with
  | idle | failing _ _ _ => exact nomatch hr
  | begun i | eligible i | removed i _ =>
    rw [← Option.some.inj hr]
    exact h
  | recorded i _ | rowless i _ | unindexed i _ | collecting i _ _ _ | collected i _ | forgotten i _ =>
    rw [← Option.some.inj hr]
    exact h.1
  | deleting i _ _ _ _ =>
    rw [← Option.some.inj hr]
    exact h.1.1

/-- workspaces that are the same but for what is said of them -/
theorem Inv.retold {w w' : World ι τ} (h : Inv w) (hkeys : ∀ workspace, workspace ∈ w'.tenants ↔ workspace ∈ w.tenants)
    (hsame : w'.requests = w.requests ∧ w'.rows = w.rows ∧ w'.issued = w.issued ∧ w'.removals = w.removals ∧
      w'.now = w.now ∧ w'.phase = w.phase) : Inv w' := by
  obtain ⟨hrequests, hrows, hissued, hremovals, hnow, hphase⟩ := hsame
  refine ⟨?_, ?_, ?_, ?_, ?_, ?_, ?_, ?_⟩
  · rw [hrequests]
    exact h.ids
  · rw [hrequests]
    exact h.one_open
  · intro row hrow
    rw [hkeys]
    exact h.fk row (hrows ▸ hrow)
  · intro workspace hmem
    rw [hissued]
    exact h.issued workspace ((hkeys workspace).mp hmem)
  · rw [hrequests, hissued]
    exact h.asked
  · intro r hr
    obtain ⟨hgone, hkept, hsaid, hdone⟩ := h.requests_ok r (hrequests ▸ hr)
    exact ⟨fun hd => ⟨(hgone hd).1, fun hmem => (hgone hd).2 ((hkeys _).mp hmem)⟩, hkept, hsaid, hdone⟩
  · rw [hremovals, hrequests]
    exact h.removals_ok
  · rw [hphase]
    refine h.at_phase.mono (fun r hr => hrequests ▸ hr) hremovals fun _ _ _ _ _ _ hneeds row hrow => ?_
    rw [hnow]
    exact hneeds row (hrows ▸ hrow)

theorem mem_insert_of_lookup {tenants : AList fun _ : τ => Tenant} {workspace : τ} {t t' : Tenant}
    (h : tenants.lookup workspace = some t) (a : τ) : a ∈ tenants.insert workspace t' ↔ a ∈ tenants := by
  rw [AList.mem_insert]
  refine ⟨fun hor => hor.elim (fun he => ?_) id, Or.inr⟩
  rw [he, ← AList.lookup_isSome, h]
  rfl

theorem inv_create {w : World ι τ} (h : Inv w) {workspace : τ} (tenant : Tenant) (hnew : workspace ∉ w.issued) :
    Inv { w with issued := workspace :: w.issued, tenants := w.tenants.insert workspace tenant } := by
  refine ⟨h.ids, h.one_open, ?_, ?_, ?_, ?_, h.removals_ok, ?_⟩
  · exact fun row hrow => (AList.mem_insert _).mpr (Or.inr (h.fk row hrow))
  · intro a ha
    rcases (AList.mem_insert _).mp ha with rfl | ha
    · exact List.mem_cons_self
    · exact List.mem_cons_of_mem workspace (h.issued a ha)
  · exact fun r hr => List.mem_cons_of_mem workspace (h.asked r hr)
  · intro r hr
    obtain ⟨hgone, hkept, hsaid, hdone⟩ := h.requests_ok r hr
    refine ⟨fun hd => ⟨(hgone hd).1, fun hmem => ?_⟩, hkept, hsaid, hdone⟩
    rcases (AList.mem_insert _).mp hmem with heq | hmem
    · exact hnew (heq ▸ h.asked r hr)
    · exact (hgone hd).2 hmem
  · exact h.at_phase.mono (fun _ hr => hr) rfl fun _ _ _ _ _ _ hneeds => hneeds

theorem request_eq_ok {tenants : AList fun _ : τ => Tenant} {requests requests' : List (Request ι τ)} {now : Time}
    {id : ι} {workspace : τ} {known : Tenant} {confirm actor : Text}
    (h : request tenants requests now id workspace known confirm actor = .ok requests') :
    hasOpen requests workspace = false ∧ requests' = requests ++ [newRequest id workspace known actor now] := by
  obtain ⟨-, h⟩ := Checks.of_ite_error h
  obtain ⟨-, h⟩ := Checks.of_ite_error h
  obtain ⟨-, h⟩ := Checks.of_ite_error h
  obtain ⟨hopen, h⟩ := Checks.of_ite_error h
  exact ⟨Bool.eq_false_of_not_eq_true hopen, (Except.ok.inj h).symm⟩

theorem inv_request {w : World ι τ} (h : Inv w) {id : ι} {workspace : τ} (known : Tenant) (actor : Text)
    (hissued : workspace ∈ w.issued) (hid : ∀ r ∈ w.requests, r.id ≠ id)
    (hopen : hasOpen w.requests workspace = false) :
    Inv { w with requests := w.requests ++ [newRequest id workspace known actor w.now] } := by
  set new : Request ι τ := newRequest id workspace known actor w.now with hnew
  have hmem : ∀ {r}, r ∈ w.requests ++ [new] → r ∈ w.requests ∨ r = new := fun hr => by
    rw [List.mem_append, List.mem_singleton] at hr
    exact hr
  have hclosed : ∀ r ∈ w.requests, r.workspaceId = workspace → r.isOpen ≠ true := by
    intro r hr hws ho
    have hany : hasOpen w.requests workspace = true :=
      List.any_eq_true.mpr ⟨r, hr, by rw [ho, hws, beq_self_eq_true]; rfl⟩
    rw [hopen] at hany
    exact nomatch hany
  refine ⟨?_, ?_, h.fk, h.issued, ?_, ?_, ?_, ?_⟩
  · rw [List.map_append, List.nodup_append]
    refine ⟨h.ids, List.nodup_singleton _, fun a ha b hb => ?_⟩
    obtain ⟨r, hr, rfl⟩ := List.mem_map.mp ha
    obtain rfl : b = new.id := List.mem_singleton.mp hb
    exact hid r hr
  · intro a ha b hb hoa hob hws
    rcases hmem ha with ha | rfl <;> rcases hmem hb with hb | rfl
    · exact h.one_open a ha b hb hoa hob hws
    · exact absurd hoa (hclosed a ha hws)
    · exact absurd hob (hclosed b hb hws.symm)
    · rfl
  · intro r hr
    rcases hmem hr with hr | rfl
    · exact h.asked r hr
    · exact hissued
  · intro r hr
    rcases hmem hr with hr | rfl
    · exact h.requests_ok r hr
    · have hquiet : ([] : Text) ∉ REFUSALS := by decide
      exact ⟨nofun, nofun, fun hsaid => absurd hsaid hquiet, nofun⟩
  · intro e he
    have hok := h.removals_ok e he
    cases e with
    | repo id repo =>
      obtain ⟨r, hr, hkept⟩ := hok
      exact ⟨r, List.mem_append_left _ hr, hkept⟩
    | row id row =>
      obtain ⟨r, hr, hgone⟩ := hok
      exact ⟨r, List.mem_append_left _ hr, hgone⟩
    | object id ref needers =>
      obtain ⟨hnone, r, hr, hgone⟩ := hok
      exact ⟨hnone, r, List.mem_append_left _ hr, hgone⟩
  · exact h.at_phase.mono (fun _ hr => List.mem_append_left _ hr) rfl fun _ _ _ _ _ _ hneeds => hneeds

theorem inv_claim {w : World ι τ} (h : Inv w) {r : Request ι τ} (hr : r ∈ w.requests) (hdue : due w.now r = true) :
    Inv { w with requests := update r.id (claimed w.now) w.requests, phase := .begun (claimed w.now r) } := by
  have hopen : r.isOpen = true := by
    rw [due, Bool.and_eq_true] at hdue
    exact hdue.1
  have hok := h.requests_ok r hr
  have hquiet : r.error ∉ REFUSALS := by
    intro hsaid
    rw [Request.isOpen, hok.said hsaid] at hopen
    exact nomatch hopen
  have hrun : (claimed w.now r).status = .running := rfl
  have hkept : (claimed w.now r).status ≠ .failed := by
    rw [hrun]
    decide
  have hdone : (claimed w.now r).status ≠ .succeeded := by
    rw [hrun]
    decide
  refine h.updated hr hopen ⟨rfl, rfl, id, id, fun _ _ => hkept⟩
    ⟨hok.rows_gone, fun _ => hkept, fun hsaid => absurd hsaid hquiet, fun h => absurd h hdone⟩
    ⟨rfl, rfl, rfl, rfl, rfl⟩ ?_
  exact ⟨mem_update_self hr, rfl⟩

/-- the repository is gone: the request is running, so it has not failed -/
theorem inv_remove {w : World ι τ} (h : Inv w) {r : Request ι τ} (hr : Mine w.requests r) (repo : Text)
    (repos : List Text) {p : Phase ι τ}
    (hat : At { w with repos := repos, removals := .repo r.id repo :: w.removals } p) :
    Inv { w with repos := repos, phase := p, removals := .repo r.id repo :: w.removals } := by
  have hrun : r.status ≠ .failed := fun hfailed => nomatch hr.2.symm.trans hfailed
  refine ⟨h.ids, h.one_open, h.fk, h.issued, h.asked, h.requests_ok, fun e he => ?_, ?_⟩
  · rcases List.mem_cons.mp he with rfl | he
    · exact ⟨r, hr.1, rfl, hrun⟩
    · exact h.removals_ok e he
  · exact hat.mono (fun _ hr => hr) rfl fun _ _ _ _ _ _ hneeds => hneeds

theorem rowsOf_eq_nil {rows : List (Row τ)} {workspace : τ} (h : (rowsOf rows workspace).isEmpty = true) :
    ∀ row ∈ rows, row.tenant ≠ workspace := by
  intro row hrow htenant
  have hmem : row ∈ rowsOf rows workspace := List.mem_filter.mpr ⟨hrow, beq_iff_eq.mpr htenant⟩
  rw [List.isEmpty_iff.mp h] at hmem
  exact absurd hmem List.not_mem_nil

/-- the rows and the workspace go together -/
theorem inv_stepRows {fks : List (Text × Text)} {policies : List Text} {w : World ι τ} (h : Inv w)
    {r : Request ι τ} (hr : Mine w.requests r) (hrepo : r.repoDeleted = true) (receipt : Receipt) :
    Inv (stepRows fks policies w r receipt) := by
  unfold stepRows
  split
  · exact h.moved ⟨rfl, rfl, rfl, rfl, rfl⟩ (at_error hr _ _)
  · next tables htables =>
    dsimp only
    split
    · next hempty =>
      set left := deleteRows w.rows r.workspaceId tables with hleft
      set refs := tenantRefs w.rows r.workspaceId
      set receipt' : Receipt := { receipt with rows := some (countRows w.rows r.workspaceId tables) }
      have hsub : ∀ row ∈ left, row ∈ w.rows ∧ row.tenant ≠ r.workspaceId := fun row hrow =>
        ⟨(List.mem_filter.mp hrow).1, rowsOf_eq_nil hempty row hrow⟩
      have hok := h.requests_ok r hr.1
      -- first the rows and the workspace, then the row of the request
      have hrows : Inv { w with rows := left, tenants := w.tenants.erase r.workspaceId, phase := .idle } := by
        refine ⟨h.ids, h.one_open, ?_, ?_, h.asked, ?_, h.removals_ok, trivial⟩
        · exact fun row hrow => (AList.mem_erase).mpr ⟨(hsub row hrow).2, h.fk row (hsub row hrow).1⟩
        · exact fun a ha => h.issued a ((AList.mem_erase).mp ha).2
        · intro r' hr'
          obtain ⟨hgone, hkept, hsaid, hdone⟩ := h.requests_ok r' hr'
          exact ⟨fun hd => ⟨(hgone hd).1, fun hmem => (hgone hd).2 ((AList.mem_erase).mp hmem).2⟩,
            hkept, hsaid, hdone⟩
      have hrun : (recordRows refs receipt' r).status ≠ .failed := fun hf => nomatch hr.2.symm.trans hf
      have hrecorded : Inv { w with
          rows := left, tenants := w.tenants.erase r.workspaceId
          requests := update r.id (recordRows refs receipt') w.requests
          phase := .rowless (recordRows refs receipt' r) receipt' } := by
        refine hrows.updated hr.1 hr.isOpen ⟨rfl, rfl, id, fun _ => rfl, fun _ _ => hrun⟩
          ⟨fun _ => ⟨hrepo, fun hmem => ((AList.mem_erase).mp hmem).1 rfl⟩, fun _ => hrun, hok.said,
            fun _ => rfl⟩ ⟨rfl, rfl, rfl, rfl, rfl⟩ ?_
        exact ⟨mine_update hr rfl, rfl⟩
      refine ⟨hrecorded.ids, hrecorded.one_open, hrecorded.fk, hrecorded.issued, hrecorded.asked,
        hrecorded.requests_ok, fun e he => ?_, hrecorded.at_phase⟩
      rcases List.mem_append.mp he with he | he
      · obtain ⟨row, hrow, rfl⟩ := List.mem_map.mp he
        exact ⟨recordRows refs receipt' r, mem_update_self hr.1, rfl, rfl,
          beq_iff_eq.mp (List.mem_filter.mp hrow).2⟩
      · exact hrecorded.removals_ok e he
    · exact h.moved ⟨rfl, rfl, rfl, rfl, rfl⟩ (at_error hr _ _)

/-- the object is needed by nobody when it is deleted -/
theorem inv_delete {w : World ι τ} (h : Inv w) {r : Request ι τ} {ref : Text}
    (hr : Mine w.requests r ∧ r.rowsDeleted = true)
    (hneeds : ∀ row ∈ w.rows, row.content.needs w.now ref = false) (store : List Text) {receipt : Receipt}
    {todo : List Text} (deleted : ℕ) :
    Inv { w with
      store := store, phase := .collecting r receipt todo deleted
      removals := .object r.id ref ((neededBy w.rows w.now ref).filter (· != r.workspaceId)) :: w.removals } := by
  have hnobody : neededBy w.rows w.now ref = [] := by
    have hfilter : (w.rows.filter fun row => row.content.needs w.now ref) = [] := by
      rw [List.filter_eq_nil_iff]
      exact fun row hrow => Bool.eq_false_iff.mp (hneeds row hrow)
    rw [neededBy, hfilter]
    rfl
  refine ⟨h.ids, h.one_open, h.fk, h.issued, h.asked, h.requests_ok, fun e he => ?_, hr⟩
  rcases List.mem_cons.mp he with rfl | he
  · refine ⟨by rw [hnobody]; rfl, r, hr.1.1, rfl, ?_⟩
    exact ((h.requests_ok r hr.1.1).rows_gone hr.2).1
  · exact h.removals_ok e he

theorem inv_finish {w : World ι τ} (h : Inv w) {r : Request ι τ} (hr : Mine w.requests r)
    (hrows : r.rowsDeleted = true) (receipt : Receipt) :
    Inv { w with requests := update r.id (finished receipt w.now) w.requests, phase := .idle } := by
  have hok := h.requests_ok r hr.1
  have hkept : (finished receipt w.now r).status ≠ .failed := by
    show Status.succeeded ≠ .failed
    decide
  have hquiet : (finished receipt w.now r).error ∉ REFUSALS := by
    show ([] : Text) ∉ REFUSALS
    decide
  exact h.updated hr.1 hr.isOpen ⟨rfl, rfl, id, id, fun _ _ => hkept⟩
    ⟨hok.rows_gone, fun _ => hkept, fun hsaid => absurd hsaid hquiet, fun _ => hrows⟩ ⟨rfl, rfl, rfl, rfl, rfl⟩
    trivial

theorem inv_fail {w : World ι τ} (h : Inv w) {r : Request ι τ} {refused : Bool} {reason : Text}
    (hat : At w (.failing r refused reason)) (hP : Unrecorded w.removals r → r.attempts < MAX_ATTEMPTS) :
    Inv { w with requests := update r.id (failed refused reason w.now) w.requests, phase := .idle } := by
  obtain ⟨hr, hrefused, hreason⟩ := hat
  have hok := h.requests_ok r hr.1
  by_cases hfinal : isFinal r refused = true
  · have hf : failed refused reason w.now r =
        { r with status := .failed, error := reason, finishedAt := some w.now } := if_pos hfinal
    rw [isFinal, Bool.and_eq_true, Bool.not_eq_true', Bool.or_eq_true, decide_eq_true_eq] at hfinal
    obtain ⟨hrepo, hwhy⟩ := hfinal
    have hnone : ∀ repo, .repo r.id repo ∉ w.removals := by
      intro repo hmem
      rcases hwhy with hyes | hlast
      · exact (hrefused hyes).2 repo hmem
      · exact absurd (hP ⟨hrepo, repo, hmem⟩) (Nat.not_lt.mpr hlast)
    refine h.updated hr.1 hr.isOpen ⟨?_, ?_, ?_, ?_, fun repo hmem => absurd hmem (hnone repo)⟩
      ⟨?_, ?_, ?_, ?_⟩ ⟨rfl, rfl, rfl, rfl, rfl⟩ trivial
    all_goals rw [hf]
    · exact id
    · exact id
    · exact hok.rows_gone
    · exact fun hd => nomatch hrepo.symm.trans hd
    · exact fun _ => rfl
    · exact fun hd => nomatch hd
  · have hf : failed refused reason w.now r = { r with status := .queued, error := reason } := if_neg hfinal
    have hquiet : reason ∉ REFUSALS := by
      intro hmem
      have hyes := hreason hmem
      refine hfinal ?_
      rw [isFinal, (hrefused hyes).1, hyes]
      rfl
    have hkept : (failed refused reason w.now r).status ≠ .failed := by
      rw [hf]
      exact fun hd => nomatch hd
    refine h.updated hr.1 hr.isOpen ⟨?_, ?_, ?_, ?_, fun _ _ => hkept⟩ ⟨?_, fun _ => hkept, ?_, ?_⟩
      ⟨rfl, rfl, rfl, rfl, rfl⟩ trivial
    all_goals rw [hf]
    · exact id
    · exact id
    · exact hok.rows_gone
    · exact fun hsaid => absurd hsaid hquiet
    · exact fun hd => nomatch hd

theorem needs_later {rows : List (Row τ)} {now : Time} {ref : Text} (time : Time)
    (h : ∀ row ∈ rows, row.content.needs now ref = false) :
    ∀ row ∈ rows, row.content.needs (now + time) ref = false := by
  intro row hrow
  refine Bool.eq_false_iff.mpr fun hc => ?_
  have hnow := Content.needs_mono (Nat.le_add_right now time) hc
  rw [h row hrow] at hnow
  exact nomatch hnow

theorem inv_check {w w' : World ι τ} {fks : List (Text × Text)} {policies : List Text} (h : Inv w)
    (hP : Recorded w .check) (hstep : step fks policies w .check = some w') : Inv w' := by
  have hat := h.at_phase
  simp only [step] at hstep
  split at hstep
  · next r hphase =>
    rw [hphase] at hat
    split at hstep
    · next hrepo =>
      obtain rfl := Option.some.inj hstep
      exact h.moved ⟨rfl, rfl, rfl, rfl, rfl⟩ ⟨hat, hrepo⟩
    · next hrepo =>
      have hrepo' : r.repoDeleted = false := Bool.eq_false_of_not_eq_true hrepo
      split at hstep
      · next reason hreason =>
        obtain rfl := Option.some.inj hstep
        refine h.moved ⟨rfl, rfl, rfl, rfl, rfl⟩ ⟨hat, fun _ => ⟨hrepo', fun repo hmem => ?_⟩, fun _ => rfl⟩
        have hnone := hP r hphase ⟨hrepo', repo, hmem⟩
        exact nomatch hreason.symm.trans hnone
      · obtain rfl := Option.some.inj hstep
        exact h.moved ⟨rfl, rfl, rfl, rfl, rfl⟩ hat
  · exact nomatch hstep

theorem inv_removed {w w' : World ι τ} {fks : List (Text × Text)} {policies : List Text} (h : Inv w)
    {configured heard : Bool} (hstep : step fks policies w (.remove configured heard) = some w') : Inv w' := by
  have hat := h.at_phase
  simp only [step] at hstep
  split at hstep
  · next r hphase =>
    rw [hphase] at hat
    split at hstep
    · obtain rfl := Option.some.inj hstep
      exact h.moved ⟨rfl, rfl, rfl, rfl, rfl⟩ (at_error hat _ _)
    · obtain rfl := Option.some.inj hstep
      have hnext : ∀ (v : World ι τ) (receipt : Receipt), v.requests = w.requests →
          At v (if heard then .removed r receipt else .failing r false (reasonOf "URLError".toList [])) := by
        intro v receipt hv
        have hmine : Mine v.requests r := hv ▸ hat
        cases heard with
        | true => exact hmine
        | false => exact at_error hmine _ _
      by_cases hthere : w.repos.contains r.repo = true
      · simp only [hthere, if_true]
        exact inv_remove h hat r.repo _ (hnext _ _ rfl)
      · simp only [hthere]
        exact h.moved ⟨rfl, rfl, rfl, rfl, rfl⟩ (hnext _ _ rfl)
  · exact nomatch hstep

/-- each action along `Recorded` keeps the invariant -/
theorem inv_step {fks : List (Text × Text)} {policies : List Text} {w w' : World ι τ} {a : Action ι τ}
    (h : Inv w) (hP : Recorded w a) (hstep : step fks policies w a = some w') : Inv w' := by
  have hat := h.at_phase
  cases a with
  | tick time =>
    obtain rfl := Option.some.inj hstep
    exact h.moved ⟨rfl, rfl, rfl, rfl, rfl⟩
      (hat.mono (fun _ hr => hr) rfl fun _ _ _ _ _ _ hneeds => needs_later time hneeds)
  | create workspace tenant =>
    simp only [step] at hstep
    split at hstep
    · exact nomatch hstep
    · next hnew =>
      obtain rfl := Option.some.inj hstep
      exact inv_create h tenant fun hmem => hnew (Or.inl hmem)
  | provision workspace =>
    simp only [step] at hstep
    split at hstep
    · next t ht =>
      split at hstep
      · obtain rfl := Option.some.inj hstep
        exact h.retold (mem_insert_of_lookup ht) ⟨rfl, rfl, rfl, rfl, rfl, rfl⟩
      · exact nomatch hstep
    · exact nomatch hstep
  | setStatus workspace status =>
    obtain ⟨t, ht, rfl⟩ := Option.map_eq_some_iff.mp hstep
    exact h.retold (mem_insert_of_lookup ht) ⟨rfl, rfl, rfl, rfl, rfl, rfl⟩
  | write row =>
    simp only [step] at hstep
    split at hstep
    · next htenant =>
      obtain rfl := Option.some.inj hstep
      refine ⟨h.ids, h.one_open, ?_, h.issued, h.asked, h.requests_ok, h.removals_ok, ?_⟩
      · exact fun r hr => (List.mem_cons.mp hr).elim (fun he => he ▸ htenant) (h.fk r)
      · refine hat.mono (fun _ hr => hr) rfl fun r receipt ref todo deleted hphase hneeds r' hr' => ?_
        rcases List.mem_cons.mp hr' with rfl | hr'
        · exact hP r receipt ref todo deleted hphase
        · exact hneeds r' hr'
    · exact nomatch hstep
  | unwrite row =>
    obtain rfl := Option.some.inj hstep
    refine ⟨h.ids, h.one_open, ?_, h.issued, h.asked, h.requests_ok, h.removals_ok, ?_⟩
    · exact fun r hr => h.fk r (List.mem_of_mem_erase hr)
    · exact hat.mono (fun _ hr => hr) rfl fun _ _ _ _ _ _ hneeds r hr => hneeds r (List.mem_of_mem_erase hr)
  | put ref | index workspace | checkout workspace =>
    obtain rfl := Option.some.inj hstep
    exact h.moved ⟨rfl, rfl, rfl, rfl, rfl⟩ (hat.mono (fun _ hr => hr) rfl fun _ _ _ _ _ _ hneeds => hneeds)
  | request id workspace known confirm actor =>
    simp only [step] at hstep
    split at hstep
    · exact nomatch hstep
    · next hfresh =>
      rw [not_or, not_not, Bool.not_eq_true, List.any_eq_false] at hfresh
      split at hstep
      · next requests hreq =>
        obtain rfl := Option.some.inj hstep
        obtain ⟨hopen, rfl⟩ := request_eq_ok hreq
        exact inv_request h known actor hfresh.1 (fun r hr hid => hfresh.2 r hr (beq_iff_eq.mpr hid)) hopen
      · obtain rfl := Option.some.inj hstep
        exact h
  | claim =>
    simp only [step] at hstep
    split at hstep
    · next hphase =>
      unfold claim at hstep
      cases hfind : w.requests.find? (due w.now) with
      | none =>
        rw [hfind] at hstep
        obtain rfl := Option.some.inj hstep
        exact h
      | some r =>
        rw [hfind] at hstep
        obtain rfl := Option.some.inj hstep
        exact inv_claim h (List.mem_of_find?_eq_some hfind) (List.find?_some hfind)
    · exact nomatch hstep
  | check => exact inv_check h hP hstep
  | remove configured heard => exact inv_removed h hstep
  | record =>
    simp only [step] at hstep
    split at hstep
    · next r receipt hphase =>
      rw [hphase] at hat
      obtain rfl := Option.some.inj hstep
      exact h.running hat rfl rfl rfl rfl (fun _ => rfl) rfl ⟨rfl, rfl, rfl, rfl, rfl⟩ ⟨mine_update hat rfl, rfl⟩
    · exact nomatch hstep
  | deleteRows =>
    simp only [step] at hstep
    split at hstep
    · next r receipt hphase =>
      rw [hphase] at hat
      split at hstep
      · next hrows =>
        obtain rfl := Option.some.inj hstep
        exact h.moved ⟨rfl, rfl, rfl, rfl, rfl⟩ ⟨hat.1, hrows⟩
      · obtain rfl := Option.some.inj hstep
        exact inv_stepRows h hat.1 hat.2 receipt
    · exact nomatch hstep
  | dropIndexes =>
    simp only [step] at hstep
    split at hstep
    · next r receipt hphase =>
      rw [hphase] at hat
      obtain rfl := Option.some.inj hstep
      exact h.moved ⟨rfl, rfl, rfl, rfl, rfl⟩ hat
    · exact nomatch hstep
  | collect configured =>
    simp only [step] at hstep
    split at hstep
    · next r receipt hphase =>
      rw [hphase] at hat
      obtain rfl := Option.some.inj hstep
      refine h.moved ⟨rfl, rfl, rfl, rfl, rfl⟩ ?_
      cases configured with
      | true => exact hat
      | false => exact hat
    · exact nomatch hstep
  | examine =>
    simp only [step] at hstep
    split at hstep
    · next r receipt ref todo deleted hphase =>
      rw [hphase] at hat
      obtain rfl := Option.some.inj hstep
      refine h.moved ⟨rfl, rfl, rfl, rfl, rfl⟩ ?_
      cases hlive : isLive w.rows w.now ref with
      | true => exact hat
      | false => exact ⟨hat, fun row hrow => Bool.eq_false_iff.mpr (List.any_eq_false.mp hlive row hrow)⟩
    · exact nomatch hstep
  | delete =>
    simp only [step] at hstep
    split at hstep
    · next r receipt ref todo deleted hphase =>
      rw [hphase] at hat
      obtain rfl := Option.some.inj hstep
      exact inv_delete h hat.1 hat.2 _ _
    · exact nomatch hstep
  | clear =>
    simp only [step] at hstep
    split at hstep
    · next r receipt deleted hphase =>
      rw [hphase] at hat
      obtain rfl := Option.some.inj hstep
      exact h.running hat.1 rfl rfl rfl rfl id rfl ⟨rfl, rfl, rfl, rfl, rfl⟩
        ⟨mine_update hat.1 rfl, hat.2⟩
    · exact nomatch hstep
  | forget =>
    simp only [step] at hstep
    split at hstep
    · next r receipt hphase =>
      rw [hphase] at hat
      obtain rfl := Option.some.inj hstep
      exact h.moved ⟨rfl, rfl, rfl, rfl, rfl⟩ hat
    · exact nomatch hstep
  | finish =>
    simp only [step] at hstep
    split at hstep
    · next r receipt hphase =>
      rw [hphase] at hat
      obtain rfl := Option.some.inj hstep
      exact inv_finish h hat.1 hat.2 receipt
    · exact nomatch hstep
  | raise kind message =>
    obtain ⟨r, hr, rfl⟩ := Option.map_eq_some_iff.mp hstep
    exact h.moved ⟨rfl, rfl, rfl, rfl, rfl⟩ (at_error (hat.mine hr) _ _)
  | fail =>
    simp only [step] at hstep
    split at hstep
    · next r refused reason hphase =>
      rw [hphase] at hat
      obtain rfl := Option.some.inj hstep
      exact inv_fail h hat (hP r refused reason hphase)
    · exact nomatch hstep
  | stop =>
    obtain rfl := Option.some.inj hstep
    exact h.moved ⟨rfl, rfl, rfl, rfl, rfl⟩ trivial

/-! ## Runs -/

def start (τ : Type*) [DecidableEq τ] : World ι τ :=
  { tenants := ∅, issued := [], rows := [], repos := [], store := [], indexes := [], checkouts := [],
    requests := [], now := 0, phase := .idle, removals := [] }

theorem inv_start : Inv (start τ : World ι τ) where
  ids := List.nodup_nil
  one_open := fun _ h => absurd h List.not_mem_nil
  fk := fun _ h => absurd h List.not_mem_nil
  issued := fun _ h => absurd h (AList.notMem_empty _)
  asked := fun _ h => absurd h List.not_mem_nil
  requests_ok := fun _ h => absurd h List.not_mem_nil
  removals_ok := fun _ h => absurd h List.not_mem_nil
  at_phase := trivial

/-- **Deletions over a run that loses no removal.** -/
theorem deletions_safe {fks : List (Text × Text)} {policies : List Text} {as : List (Action ι τ)} {w : World ι τ}
    (hP : Runs.along (step fks policies) Recorded (start τ) as)
    (hw : Runs.exec (step fks policies) (start τ) as = some w) : Safe w :=
  (Runs.exec_invariant_along (fun _ _ _ => inv_step) inv_start hP hw).safe

/-! ## `Recorded`, computed -/

def unrecorded (removals : List (Removal ι τ)) (r : Request ι τ) : Bool :=
  !r.repoDeleted && removals.any fun
    | .repo id _ => id == r.id
    | _ => false

def recorded (w : World ι τ) : Action ι τ → Bool
  | .check => match w.phase with
    | .begun r => !unrecorded w.removals r || (ineligible w.tenants r.workspaceId).isNone
    | _ => true
  | .fail => match w.phase with
    | .failing r _ _ => !unrecorded w.removals r || decide (r.attempts < MAX_ATTEMPTS)
    | _ => true
  | .write row => match w.phase with
    | .deleting _ _ ref _ _ => !row.content.needs w.now ref
    | _ => true
  | _ => true

theorem unrecorded_of {removals : List (Removal ι τ)} {r : Request ι τ} (h : Unrecorded removals r) :
    unrecorded removals r = true := by
  obtain ⟨hrepo, repo, hmem⟩ := h
  rw [unrecorded, hrepo, Bool.not_false, Bool.true_and, List.any_eq_true]
  exact ⟨_, hmem, beq_self_eq_true r.id⟩

theorem recorded_of_check (w : World ι τ) (a : Action ι τ) (h : recorded w a = true) : Recorded w a := by
  cases a with
  | check =>
    intro r hphase hun
    rw [recorded, hphase] at h
    simp only [unrecorded_of hun, Bool.not_true, Bool.false_or] at h
    exact Option.isNone_iff_eq_none.mp h
  | fail =>
    intro r refused reason hphase hun
    rw [recorded, hphase] at h
    simp only [unrecorded_of hun, Bool.not_true, Bool.false_or] at h
    exact of_decide_eq_true h
  | write row =>
    intro r receipt ref todo deleted hphase
    rw [recorded, hphase, Bool.not_eq_true'] at h
    exact h
  | _ => trivial

end

/-! ## Two runs -/

def pilot : Tenant :=
  { slug := "pilot".toList, name := "Pilot".toList, status := .provisioning, repo := "acme/pilot".toList,
    slackTeamId := none }

/-- a suspended workspace with a repository, one source with its evidence, and a deletion asked for -/
def asked : List (Action ℕ ℕ) :=
  [.create 1 pilot, .provision 1, .put "exact".toList, .write ⟨1, .change "exact".toList⟩, .setStatus 1 .suspended,
    .request 1 1 pilot "pilot".toList "morgan".toList]

/-- an attempt that finds GitHub down -/
def downAttempt : List (Action ℕ ℕ) :=
  [.tick BACKOFF_CAP, .claim, .check, .raise "HTTPError".toList "HTTP Error 502: Bad Gateway".toList, .fail]

/-- the first attempt removes the repository and stops, seven more find GitHub down -/
def repoLost : List (Action ℕ ℕ) :=
  asked ++ [.claim, .check, .remove true true, .stop] ++ (List.replicate 7 downAttempt).flatten

/-- the last attempt ends the request failed -/
theorem not_deletions_safe : ∃ w, Runs.exec (step [] ["knowledge_changes".toList]) (start ℕ) repoLost = some w ∧
    ¬Safe w := by
  have hrun : (Runs.exec (step [] ["knowledge_changes".toList]) (start ℕ) repoLost).any (fun w =>
      (w.removals.any fun
        | .repo id _ => id == 1
        | _ => false) && w.requests.any fun r => r.id == 1 && r.status == .failed) = true := by
    decide +kernel
  obtain ⟨w, hw, h⟩ := (Option.any_eq_true _ _).mp hrun
  rw [Bool.and_eq_true, List.any_eq_true, List.any_eq_true] at h
  obtain ⟨⟨e, he, hgone⟩, r, hr, hfailed⟩ := h
  rw [Bool.and_eq_true, beq_iff_eq, beq_iff_eq] at hfailed
  refine ⟨w, hw, fun hsafe => ?_⟩
  cases e with
  | repo id repo =>
    have hid : id = 1 := beq_iff_eq.mp hgone
    exact (hsafe.gone_kept id repo he r hr (hfailed.1.trans hid.symm)).1 hfailed.2
  | row id row | object id ref needers => exact nomatch hgone

/-- the same first attempt, and a second that finds the repository absent and goes through -/
def repoAbsent : List (Action ℕ ℕ) :=
  asked ++ [.claim, .check, .remove true true, .stop, .tick BACKOFF_CAP, .claim, .check, .remove true true, .record,
    .deleteRows, .dropIndexes, .collect true, .examine, .delete, .clear, .forget, .finish]

theorem deletions_safe_repoAbsent : ∃ w,
    Runs.exec (step [] ["knowledge_changes".toList]) (start ℕ) repoAbsent = some w ∧
      (w.requests.map Request.status = [.succeeded] ∧ w.store = [] ∧ w.repos = []) ∧ Safe w := by
  have hrun : (Runs.exec (step [] ["knowledge_changes".toList]) (start ℕ) repoAbsent).any (fun w =>
      decide (w.requests.map Request.status = [.succeeded] ∧ w.store = [] ∧ w.repos = [])) = true := by
    decide +kernel
  have hP : Runs.along (step [] ["knowledge_changes".toList]) Recorded (start ℕ) repoAbsent :=
    Runs.along_of_check recorded_of_check (by decide +kernel)
  obtain ⟨w, hw, h⟩ := (Option.any_eq_true _ _).mp hrun
  exact ⟨w, hw, of_decide_eq_true h, deletions_safe hP hw⟩

end EraseWorkspace
