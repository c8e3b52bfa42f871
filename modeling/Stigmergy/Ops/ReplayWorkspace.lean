import Stigmergy.Capture.Service
import Stigmergy.Server.Roster
import Stigmergy.Ops.EraseWorkspace

/-!
# Refiling a workspace

`ops/replay_workspace.py` over the queue and its writers: the export of a workspace, the import of the
file into another, statement after statement, and the handover, one transaction.  Operators run them
beside the writers, beside submissions and beside whatever others do to the other tables.

* `listed`, `counted`    the captures an export lists, and those a handover counts as unlanded;
* `envelopesOf`          what an import queues, in the order asked for;
* `handover`             tokens and sessions moved, the source suspended, or a refusal;
* `unlanded`             the listed captures without a landed counterpart in the target;
* `Recognised`           the condition: no counterpart is missing that the count does not see;
* `replays_accounted`    over every run: one copy a capture and a target, exactly one once an import has
                         ended, and a handover leaves exactly what was accepted if and only if `Told`;
* `not_replays_accounted`   a workspace filled by a replay is handed on with nothing landed.

`copies` keeps which row was queued from which capture.
-/

set_option linter.unusedSectionVars false

namespace ReplayWorkspace

open Capture Queue
open EraseWorkspace (Tenant ownsSlack)

def KEY_PREFIX : Text := "replay-".toList

def replayKey (original : Text) : Text := KEY_PREFIX ++ original

structure Token where
  id : Text
  tenantId : Text
  subject : Text
  revokedAt : Option Time
  expiresAt : Option Time

structure Session where
  sha256 : Text
  tenantId : Text
  tokenId : Text

/-- the tables beside the queue -/
structure Tables where
  tenants : AList fun _ : Text => Tenant
  /-- the workspaces with an open deletion -/
  deleting : List Text
  rosters : Text → Roster.Roster
  /-- the rows of `capture_artifacts`: the capture, and `live` -/
  artifacts : List (Text × Bool)
  tokens : List Token
  sessions : List Session

/-- the file an export writes -/
structure Exported where
  workspace : Text
  workspaceId : Text
  groups : List (Text × Text)
  principals : List (Text × Roster.PrincipalRow)
  captures : List (Text × Request)
  deletedSources : ℕ

/-- an import that has passed its first checks: each capture with the envelope to queue -/
structure Import where
  target : Text
  exported : Exported
  envelopes : List (Text × Envelope)

/-- where an operator's process is -/
inductive Phase where
  | idle
  | exporting (x : Exported)
  | parsed (i : Import)
  | fresh (i : Import)
  | peopled (i : Import)
  | grouping (i : Import) (todo : List (Text × Text))
  | enrolling (i : Import) (todo : List Roster.Op)
  | queueing (i : Import) (todo : List (Text × Envelope))
  | handing (source target : Text) (acceptUnlanded : ℕ)

/-- what a handover was told to accept, and what it left -/
structure Handed where
  accepted : ℕ
  left : ℕ

section
variable (π : Type*)

structure World where
  queue : Writers.World Text π Request
  tables : Tables
  phase : π → Phase
  exports : List Exported
  /-- a row, and the capture it was queued from -/
  copies : List (Text × Text)
  completed : List Import
  handed : List Handed

inductive Action where
  /-- the writers, the administrators, requests of other operations -/
  | queue (a : Writers.Action Text π Request)
  | submit (tenantId : Text) (raw : Envelope) (now : Time)
  /-- whatever others do to the other tables -/
  | others (tables : Tables)
  | exportPeople (p : π) (slug : Text)
  | exportCaptures (p : π)
  /-- the import of the `n`th file -/
  | importFile (p : π) (n : ℕ) (slug confirm : Text) (order : Option (List Text))
  | readKeys (p : π)
  | readPeople (p : π)
  | readGroups (p : π)
  | createGroup (p : π)
  | readPresent (p : π)
  | putPerson (p : π) (now : Time)
  | enqueue (p : π) (now : Time)
  | startHandover (p : π) (source target confirm : Text) (acceptUnlanded : ℕ)
  | handover (p : π) (now : Time)
  | stop (p : π)

end

section
variable (R : Runtime) (withoutCapability : Text → Except Text Text) (uuid5 : Text → Text)
variable (upper : Text → Text)

/-! ## Export -/

/-- `_workspace` -/
def workspace (tenants : AList fun _ : Text => Tenant) (slug : Text) : Except Text (Text × Tenant) :=
  match Table.select (fun _ t => t.slug == R.lower (Text.strip slug)) tenants with
  | some found => .ok found
  | none => .error ("no workspace named ".toList ++ R.repr slug)

/-- `_no_slack` -/
def noSlack (source : Tenant) : Except Text Unit :=
  if ownsSlack source.slackTeamId then
    .error "the source workspace owns the deployment's Slack app; move it first".toList
  else .ok ()

/-- a capture that is queued or being filed -/
def waiting (db : Db Text Request) (tenantId : Text) : Bool :=
  (Table.vals db).any fun r => r.tenantId == tenantId && (r.status == .queued || r.status == .processing)

/-- an artifact whose source a person deleted -/
def dead (artifacts : List (Text × Bool)) (id : Text) : Bool := artifacts.any fun a => a.1 == id && !a.2

def rowsOf (db : Db Text Request) : List (Text × Row Request) := db.entries.map fun e => (e.1, e.2)

def isLanded (tenantId : Text) (c : Text × Row Request) : Bool :=
  c.2.tenantId == tenantId && c.2.operation == .capture && c.2.status == .landed

/-- the captures an export lists -/
def listed (db : Db Text Request) (artifacts : List (Text × Bool)) (source : Text) : List (Text × Row Request) :=
  (rowsOf db).filter fun c => isLanded source c && !dead artifacts c.1

/-- `ORDER BY q.created_at, q.id` -/
def earlier (c c' : Text × Row Request) : Bool :=
  decide (c.2.createdAt < c'.2.createdAt) || (c.2.createdAt == c'.2.createdAt && decide (c.1 ≤ c'.1))

/-- the captures of an export -/
def exportCaptures (db : Db Text Request) (artifacts : List (Text × Bool)) (x : Exported) : Exported :=
  { x with
    captures := ((listed db artifacts x.workspaceId).insertionSort fun c c' => earlier c c' = true).map
      fun c => (c.1, c.2.request)
    deletedSources := ((rowsOf db).filter fun c => isLanded x.workspaceId c && dead artifacts c.1).length }

/-- `list_groups` -/
def listGroups (r : Roster.Roster) : List (Text × Text) :=
  (r.groups.entries.map fun e => (e.1, e.2)).insertionSort fun g g' => g.1 ≤ g'.1

/-- `list_principals` -/
def listPrincipals (r : Roster.Roster) : List (Text × Roster.PrincipalRow) :=
  (r.principals.entries.map fun e => (e.1, e.2)).insertionSort fun q q' => q.1 ≤ q'.1

/-- the checks of `export`, with the workspace and the people it has read -/
def exportPeople (db : Db Text Request) (tables : Tables) (slug : Text) : Except Text Exported :=
  (workspace R tables.tenants slug).bind fun source => (noSlack source.2).bind fun _ =>
    if waiting db source.1 then .error "the source still has captures waiting to be filed".toList
    else .ok {
      workspace := source.2.slug
      workspaceId := source.1
      groups := listGroups (tables.rosters source.1)
      principals := (listPrincipals (tables.rosters source.1)).filter fun q => q.2.disabledAt.isNone
      captures := []
      deletedSources := 0 }

/-! ## Import -/

def replayId (targetId originalId : Text) : Text := uuid5 (targetId ++ ':' :: originalId)

/-- `parse_capture` -/
def parseCapture : Request → Except Text Envelope
  | .capture e => e.validate R withoutCapability
  | .other _ => .error "validation error for CaptureEnvelope".toList

/-- `captures[original]["request"]` -/
def requestOf (captures : List (Text × Request)) (original : Text) : Except Text Request :=
  match captures.lookup original with
  | some request => .ok request
  | none => .error "KeyError".toList

/-- the envelope an exported capture is queued under -/
def copyOf (target original : Text) (e : Envelope) : Envelope :=
  { e with captureId := replayId uuid5 target original, idempotencyKey := replayKey original }

def envelopesOf (target : Text) (exported : Exported) : List Text → Except Text (List (Text × Envelope))
  | [] => .ok []
  | original :: sequence =>
    (requestOf exported.captures original).bind fun request =>
      (parseCapture R withoutCapability request).bind fun e =>
        if !(exported.principals.map Prod.fst).contains (R.lower e.actor.subject) then
          .error "an exported capture's author is not an exported person".toList
        else (envelopesOf target exported sequence).map
          ((original, copyOf uuid5 target original e) :: ·)

/-- the sequence lists every capture, each once -/
def isOrderOf (sequence ids : List Text) : Bool :=
  decide sequence.Nodup && sequence.all ids.contains && ids.all sequence.contains

/-- the checks of `import_` before it reads the target -/
def importOf (tenants : AList fun _ : Text => Tenant) (slug : Text) (exported : Exported) (confirm : Text)
    (order : Option (List Text)) : Except Text Import :=
  if confirm ≠ exported.workspace ++ ':' :: slug then
    .error ("confirm with exactly ".toList ++ exported.workspace ++ ':' :: slug)
  else (workspace R tenants slug).bind fun target =>
    if target.2.status ≠ .active then .error "the target workspace is not active".toList
    else if target.1 = exported.workspaceId then .error "the target must be a different workspace".toList
    else
      let ids := exported.captures.map Prod.fst
      let sequence := order.getD ids
      if !isOrderOf sequence ids then
        .error "the order must list every exported capture exactly once".toList
      else (envelopesOf R withoutCapability uuid5 target.1 exported sequence).map fun envelopes =>
        ⟨target.1, exported, envelopes⟩

/-- "the target already holds work of its own" -/
def holdsOwn (db : Db Text Request) (i : Import) : Bool :=
  (Table.vals db).any fun r => r.tenantId == i.target &&
    !(i.envelopes.map fun e => e.2.idempotencyKey).contains r.idempotencyKey

/-- "the target has people the source lacks" -/
def hasStrangers (r : Roster.Roster) (i : Import) : Bool :=
  ((listPrincipals r).map Prod.fst).any fun subject => !(i.exported.principals.map Prod.fst).contains subject

/-- the calls for the exported people, by those already there -/
def personOp (present : List Text) (who : Text × Roster.PrincipalRow) : Roster.Op :=
  if present.contains who.1 then .updatePrincipal (.text who.1) who.2.stored
  else .createPrincipal (("subject".toList, .text who.1) :: who.2.stored)

/-! ## Handover -/

/-- a row of the target under the key of a capture's copy, of the same submitter -/
def keyed (db : Db Text Request) (target : Text) (s : Text × Row Request) : Bool :=
  (Table.vals db).any fun t => t.tenantId == target && t.status == .landed &&
    t.submittedBy == s.2.submittedBy && t.idempotencyKey == replayKey s.1

/-- the captures a handover counts as not landed in the target -/
def counted (db : Db Text Request) (artifacts : List (Text × Bool)) (source target : Text) :
    List (Text × Row Request) :=
  (listed db artifacts source).filter fun s =>
    !KEY_PREFIX.isPrefixOf s.2.idempotencyKey && !keyed db target s

def enabled (r : Roster.Roster) (subject : Text) : Bool :=
  (r.principals.lookup subject).any fun row => row.disabledAt.isNone

def isLive (now : Time) (t : Token) : Bool := t.revokedAt.isNone && t.expiresAt.all fun e => decide (now < e)

/-- the tokens a handover moves -/
def movable (tables : Tables) (source target : Text) (now : Time) (t : Token) : Bool :=
  t.tenantId == source && isLive now t && enabled (tables.rosters source) t.subject &&
    enabled (tables.rosters target) t.subject

def shownNat (n : ℕ) : Text := (Nat.repr n).toList

/-- the transaction of `handover`: the tables it commits, or its refusal -/
def handover (db : Db Text Request) (tables : Tables) (source target : Text) (acceptUnlanded : ℕ) (now : Time) :
    Except Text Tables :=
  if (tables.tenants.lookup target).map Tenant.status ≠ some .active then
    .error "the target workspace is not active".toList
  else if tables.deleting.contains source || tables.deleting.contains target then
    .error "a workspace in this handover is being deleted".toList
  else if waiting db target then
    .error "the target is still filing; hand over once its queue is empty".toList
  else
    let unlanded := (counted db tables.artifacts source target).length
    if unlanded ≠ acceptUnlanded then
      .error (shownNat unlanded ++ " of the source's captures have not landed in the target; ".toList ++
        "pass --accept-unlanded ".toList ++ shownNat unlanded ++ " to hand over without them".toList)
    else
      let moved := (tables.tokens.filter (movable tables source target now)).map Token.id
      if moved.isEmpty then
        .error "no live token holder of the source is a person of the target workspace".toList
      else match tables.tenants.lookup source with
        | none => .error "that workspace does not exist".toList
        | some t => .ok { tables with
            tokens := tables.tokens.map fun token =>
              if movable tables source target now token then { token with tenantId := target } else token
            sessions := tables.sessions.map fun session =>
              if moved.contains session.tokenId then { session with tenantId := target } else session
            tenants := tables.tenants.insert source { t with status := .suspended } }

/-- the checks of `handover` before its transaction -/
def handoverOf (tenants : AList fun _ : Text => Tenant) (source target confirm : Text) :
    Except Text (Text × Text) :=
  if confirm ≠ source ++ ':' :: target then
    .error ("confirm with exactly ".toList ++ source ++ ':' :: target)
  else (workspace R tenants source).bind fun s => (workspace R tenants target).bind fun t =>
    if s.1 = t.1 then .error "the source and target must differ".toList
    else (noSlack s.2).map fun _ => (s.1, t.1)

/-! ## What a handover leaves -/

variable {π : Type*} [DecidableEq π]

/-- a landed row of the target that was queued from the capture, or that the capture was queued from -/
def hasCounterpart (w : World π) (target s : Text) : Bool :=
  (rowsOf w.queue.db).any fun t => t.2.tenantId == target && t.2.status == .landed &&
    (w.copies.contains (t.1, s) || w.copies.contains (s, t.1))

def unlanded (w : World π) (source target : Text) : List (Text × Row Request) :=
  (listed w.queue.db w.tables.artifacts source).filter fun s => !hasCounterpart w target s.1

/-! ## Steps -/

def World.move (w : World π) (p : π) (ph : Phase) : World π :=
  { w with phase := Function.update w.phase p ph }

def World.withDb (w : World π) (db : Db Text Request) : World π :=
  { w with queue := { w.queue with db := db } }

/-- a call to the roster of the target, in a transaction of its own; a refusal stops the import -/
def callRoster (w : World π) (p : π) (target : Text) (op : Roster.Op) (now : Time) (next : Phase) : World π :=
  match Roster.perform R upper now none (w.tables.rosters target) (w.tables.rosters target) op with
  | .error _ => w.move p .idle
  | .ok r => { (w.move p next) with
      tables := { w.tables with rosters := Function.update w.tables.rosters target r } }

/-- a request of another operation, or a statement on the rows there are -/
def isOther : Writers.Action Text π Request → Bool
  | .enqueue _ _ operation _ _ _ _ _ => operation != .capture
  | _ => true

def step (w : World π) : Action π → Option (World π)
  | .queue a => if isOther a then (Writers.step w.queue a).map fun q => { w with queue := q } else none
  | .submit tenantId raw now =>
    match raw.validate R withoutCapability with
    | .error _ => some w
    | .ok e => some (w.withDb (enqueueCapture tenantId now w.queue.db e).2)
  | .others tables => some { w with tables := tables }
  | .exportPeople p slug =>
    match w.phase p with
    | .idle => match exportPeople R w.queue.db w.tables slug with
      | .error _ => some w
      | .ok x => some (w.move p (.exporting x))
    | _ => none
  | .exportCaptures p =>
    match w.phase p with
    | .exporting x => some { (w.move p .idle) with
        exports := exportCaptures w.queue.db w.tables.artifacts x :: w.exports }
    | _ => none
  | .importFile p n slug confirm order =>
    match w.phase p, w.exports[n]? with
    | .idle, some exported =>
      match importOf R withoutCapability uuid5 w.tables.tenants slug exported confirm order with
      | .error _ => some w
      | .ok i => some (w.move p (.parsed i))
    | _, _ => none
  | .readKeys p =>
    match w.phase p with
    | .parsed i => some (w.move p (if holdsOwn w.queue.db i then .idle else .fresh i))
    | _ => none
  | .readPeople p =>
    match w.phase p with
    | .fresh i => some (w.move p (if hasStrangers (w.tables.rosters i.target) i then .idle else .peopled i))
    | _ => none
  | .readGroups p =>
    match w.phase p with
    | .peopled i => some (w.move p (.grouping i
        (i.exported.groups.filter fun g => !(w.tables.rosters i.target).groups.keys.contains g.1)))
    | _ => none
  | .createGroup p =>
    match w.phase p with
    | .grouping i (g :: todo) => some (callRoster R upper w p i.target (.createGroup (.text g.1) (.text g.2)) 0
        (.grouping i todo))
    | _ => none
  | .readPresent p =>
    match w.phase p with
    | .grouping i [] => some (w.move p (.enrolling i
        (i.exported.principals.map (personOp ((listPrincipals (w.tables.rosters i.target)).map Prod.fst)))))
    | _ => none
  | .putPerson p now =>
    match w.phase p with
    | .enrolling i (op :: todo) => some (callRoster R upper w p i.target op now (.enrolling i todo))
    | .enrolling i [] => some (w.move p (.queueing i i.envelopes))
    | _ => none
  | .enqueue p now =>
    match w.phase p with
    | .queueing i ((original, e) :: todo) =>
      match enqueueCapture i.target now w.queue.db e with
      | (.error _, db') => some ((w.withDb db').move p .idle)
      | (.ok receipt, db') => some { ((w.withDb db').move p (.queueing i todo)) with
          copies := if receipt.created then (receipt.id, original) :: w.copies else w.copies }
    | .queueing i [] => some { (w.move p .idle) with completed := i :: w.completed }
    | _ => none
  | .startHandover p source target confirm acceptUnlanded =>
    match w.phase p with
    | .idle => match handoverOf R w.tables.tenants source target confirm with
      | .error _ => some w
      | .ok (s, t) => some (w.move p (.handing s t acceptUnlanded))
    | _ => none
  | .handover p now =>
    match w.phase p with
    | .handing s t acceptUnlanded =>
      match handover w.queue.db w.tables s t acceptUnlanded now with
      | .error _ => some (w.move p .idle)
      | .ok tables => some { (w.move p .idle) with
          tables := tables
          handed := ⟨acceptUnlanded, (unlanded w s t).length⟩ :: w.handed }
    | _ => none
  | .stop p => some (w.move p .idle)

end

section
variable {π : Type*} [DecidableEq π]

/-! ## What is to hold -/

/-- the row is of the workspace and was queued from the capture -/
def IsCopy (db : Db Text Request) (copies : List (Text × Text)) (target t s : Text) : Prop :=
  (t, s) ∈ copies ∧ ∃ row, db.lookup t = some row ∧ row.tenantId = target

structure Safe (w : World π) : Prop where
  once : ∀ target t t' s, IsCopy w.queue.db w.copies target t s → IsCopy w.queue.db w.copies target t' s → t = t'
  /-- a copy has the key of its capture, and its submitter -/
  named : ∀ t s, (t, s) ∈ w.copies → ∃ row row', w.queue.db.lookup t = some row ∧
    w.queue.db.lookup s = some row' ∧ row.idempotencyKey = replayKey s ∧ row.submittedBy = row'.submittedBy
  complete : ∀ i ∈ w.completed, ∀ c ∈ i.exported.captures, ∃! t, IsCopy w.queue.db w.copies i.target t c.1
  handed : ∀ h ∈ w.handed, h.left = h.accepted

/-- no unlanded capture was filled in by a replay, or has in the target a row under its copy's key -/
def Told (w : World π) (source target : Text) : Prop :=
  ∀ s ∈ unlanded w source target, KEY_PREFIX.isPrefixOf s.2.idempotencyKey = false ∧
    ∀ id row, w.queue.db.lookup id = some row → row.tenantId = target → row.status = .landed →
      row.submittedBy = s.2.submittedBy → row.idempotencyKey ≠ replayKey s.1

/-- the row an import finds under its key is the copy; a handover is told of every unlanded capture -/
def Recognised (w : World π) : Action π → Prop
  | .enqueue p _ => ∀ i original e todo, w.phase p = .queueing i ((original, e) :: todo) →
      ∀ id row, w.queue.db.lookup id = some row → row.tenantId = i.target →
        row.submittedBy = e.actor.subject → row.idempotencyKey = e.idempotencyKey → (id, original) ∈ w.copies
  | .handover p _ => ∀ source target n, w.phase p = .handing source target n → Told w source target
  | _ => True

/-! ## The invariant -/

/-- a stored capture is an envelope under its author's name -/
def RowOk (row : Row Request) : Prop :=
  row.operation = .capture → ∃ e, row.request = .capture e ∧ row.submittedBy = e.actor.subject ∧
    cleanIdentity e.actor.subject = .ok e.actor.subject

variable (uuid5 : Text → Text)

def CopyOk (db : Db Text Request) (t s : Text) : Prop :=
  ∃ row row', db.lookup t = some row ∧ db.lookup s = some row' ∧ row.idempotencyKey = replayKey s ∧
    row.submittedBy = row'.submittedBy ∧ t = replayId uuid5 row.tenantId s

/-- an exported capture is the request of a row -/
def ExportOk (db : Db Text Request) (x : Exported) : Prop :=
  ∀ c ∈ x.captures, ∃ row, db.lookup c.1 = some row ∧ row.operation = .capture ∧ row.request = c.2

def EnvelopeOk (db : Db Text Request) (target : Text) (x : Text × Envelope) : Prop :=
  x.2.captureId = replayId uuid5 target x.1 ∧ x.2.idempotencyKey = replayKey x.1 ∧
    ∃ row, db.lookup x.1 = some row ∧ row.operation = .capture ∧ row.submittedBy = x.2.actor.subject

structure ImportOk (db : Db Text Request) (i : Import) : Prop where
  all : ∀ c ∈ i.exported.captures, ∃ e, (c.1, e) ∈ i.envelopes
  each : ∀ x ∈ i.envelopes, EnvelopeOk uuid5 db i.target x

def At (db : Db Text Request) (copies : List (Text × Text)) : Phase → Prop
  | .idle | .exporting _ | .handing _ _ _ => True
  | .parsed i | .fresh i | .peopled i | .grouping i _ | .enrolling i _ => ImportOk uuid5 db i
  | .queueing i todo => ImportOk uuid5 db i ∧ (∀ x ∈ todo, x ∈ i.envelopes) ∧
      ∀ x ∈ i.envelopes, x ∈ todo ∨ ∃ t, IsCopy db copies i.target t x.1

structure Inv (w : World π) : Prop where
  keyed : Keyed w.queue.db
  rows_ok : ∀ id row, w.queue.db.lookup id = some row → RowOk row
  exports_ok : ∀ x ∈ w.exports, ExportOk w.queue.db x
  copies_ok : ∀ t s, (t, s) ∈ w.copies → CopyOk uuid5 w.queue.db t s
  at_phase : ∀ p, At uuid5 w.queue.db w.copies (w.phase p)
  completed_ok : ∀ i ∈ w.completed, ∀ c ∈ i.exported.captures, ∃ t, IsCopy w.queue.db w.copies i.target t c.1
  handed_ok : ∀ h ∈ w.handed, h.left = h.accepted

variable {uuid5}

theorem Inv.once {w : World π} (h : Inv uuid5 w) {target t t' s : Text}
    (ht : IsCopy w.queue.db w.copies target t s) (ht' : IsCopy w.queue.db w.copies target t' s) : t = t' := by
  obtain ⟨hmem, row, hrow, htenant⟩ := ht
  obtain ⟨hmem', row', hrow', htenant'⟩ := ht'
  obtain ⟨r, -, hr, -, -, -, hid⟩ := h.copies_ok t s hmem
  obtain ⟨r', -, hr', -, -, -, hid'⟩ := h.copies_ok t' s hmem'
  obtain rfl := Option.some.inj (hrow.symm.trans hr)
  obtain rfl := Option.some.inj (hrow'.symm.trans hr')
  rw [hid, hid', htenant, htenant']

theorem Inv.safe {w : World π} (h : Inv uuid5 w) : Safe w where
  once := fun _ _ _ _ => h.once
  named := by
    intro t s hmem
    obtain ⟨row, row', hrow, hrow', hkey, hsub, -⟩ := h.copies_ok t s hmem
    exact ⟨row, row', hrow, hrow', hkey, hsub⟩
  complete := by
    intro i hi c hc
    obtain ⟨t, ht⟩ := h.completed_ok i hi c hc
    exact ⟨t, ht, fun _ ht' => h.once ht' ht⟩
  handed := h.handed_ok

/-! ### rows stay as they were queued -/

variable {db db' : Db Text Request} {copies copies' : List (Text × Text)}

theorem IsCopy.onward (ho : Onward db db') (hc : ∀ x ∈ copies, x ∈ copies') {target t s : Text}
    (h : IsCopy db copies target t s) : IsCopy db' copies' target t s := by
  obtain ⟨hmem, row, hrow, htenant⟩ := h
  obtain ⟨row', hrow', hon⟩ := ho t row hrow
  exact ⟨hc _ hmem, row', hrow', hon.tenantId.trans htenant⟩

theorem CopyOk.onward (ho : Onward db db') {t s : Text} (h : CopyOk uuid5 db t s) : CopyOk uuid5 db' t s := by
  obtain ⟨row, row', hrow, hrow', hkey, hsub, hid⟩ := h
  obtain ⟨q, hq, hon⟩ := ho t row hrow
  obtain ⟨q', hq', hon'⟩ := ho s row' hrow'
  refine ⟨q, q', hq, hq', hon.idempotencyKey.trans hkey, ?_, ?_⟩
  · rw [hon.submittedBy, hsub, hon'.submittedBy]
  · rw [hon.tenantId, ← hid]

theorem ExportOk.onward (ho : Onward db db') {x : Exported} (h : ExportOk db x) : ExportOk db' x := by
  intro c hc
  obtain ⟨row, hrow, hop, hreq⟩ := h c hc
  obtain ⟨q, hq, hon⟩ := ho c.1 row hrow
  exact ⟨q, hq, hon.operation.trans hop, hon.request.trans hreq⟩

theorem ImportOk.onward (ho : Onward db db') {i : Import} (h : ImportOk uuid5 db i) : ImportOk uuid5 db' i := by
  refine ⟨h.all, fun x hx => ?_⟩
  obtain ⟨hid, hkey, row, hrow, hop, hsub⟩ := h.each x hx
  obtain ⟨q, hq, hon⟩ := ho x.1 row hrow
  exact ⟨hid, hkey, q, hq, hon.operation.trans hop, hon.submittedBy.trans hsub⟩

theorem At.onward (ho : Onward db db') (hc : ∀ x ∈ copies, x ∈ copies') {ph : Phase}
    (h : At uuid5 db copies ph) : At uuid5 db' copies' ph := by
  cases ph with
  | idle | exporting _ | handing _ _ _ => trivial
  | parsed i | fresh i | peopled i | grouping i _ | enrolling i _ => exact ImportOk.onward ho h
  | queueing i todo =>
    refine ⟨h.1.onward ho, h.2.1, fun x hx => ?_⟩
    exact (h.2.2 x hx).imp_right fun ⟨t, ht⟩ => ⟨t, ht.onward ho hc⟩

/-- the rows go on, and nothing else changes but the other tables -/
theorem Inv.onward {w w' : World π} (h : Inv uuid5 w) (ho : Onward w.queue.db w'.queue.db)
    (hkeyed : Keyed w'.queue.db) (hrows : ∀ id row, w'.queue.db.lookup id = some row → RowOk row)
    (hsame : w'.exports = w.exports ∧ w'.copies = w.copies ∧ w'.phase = w.phase ∧
      w'.completed = w.completed ∧ w'.handed = w.handed) : Inv uuid5 w' := by
  obtain ⟨hexports, hcopies, hphase, hcompleted, hhanded⟩ := hsame
  have hmem : ∀ x ∈ w.copies, x ∈ w'.copies := fun x hx => hcopies ▸ hx
  refine ⟨hkeyed, hrows, ?_, ?_, ?_, ?_, ?_⟩
  · rw [hexports]
    exact fun x hx => (h.exports_ok x hx).onward ho
  · rw [hcopies]
    exact fun t s hts => (h.copies_ok t s hts).onward ho
  · rw [hphase]
    exact fun p => (h.at_phase p).onward ho hmem
  · rw [hcompleted]
    intro i hi c hc
    obtain ⟨t, ht⟩ := h.completed_ok i hi c hc
    exact ⟨t, ht.onward ho hmem⟩
  · rw [hhanded]
    exact h.handed_ok

/-- a process goes on -/
theorem Inv.move {w : World π} (h : Inv uuid5 w) {p : π} {ph : Phase}
    (hat : At uuid5 w.queue.db w.copies ph) : Inv uuid5 (w.move p ph) := by
  refine ⟨h.keyed, h.rows_ok, h.exports_ok, h.copies_ok, fun q => ?_, h.completed_ok, h.handed_ok⟩
  by_cases hq : q = p
  · subst hq
    show At uuid5 w.queue.db w.copies (Function.update w.phase q ph q)
    rw [Function.update_self]
    exact hat
  · show At uuid5 w.queue.db w.copies (Function.update w.phase p ph q)
    rw [Function.update_of_ne hq]
    exact h.at_phase q

/-! ### the queue -/

theorem RowOk.onward {row row' : Row Request} (h : RowOk row) (ho : row.Onward row') : RowOk row' := by
  intro hop
  obtain ⟨e, hreq, hsub, hclean⟩ := h (ho.operation.symm.trans hop)
  exact ⟨e, ho.request.trans hreq, ho.submittedBy.trans hsub, hclean⟩

/-- an `INSERT` of a row that is in order -/
theorem rows_insert {id : Text} {r : Row Request} {o : Option (Row Request)} (hr : RowOk r)
    (h : Queue.insert db id r = .ok (o, db')) (hrows : ∀ id row, db.lookup id = some row → RowOk row) :
    ∀ id row, db'.lookup id = some row → RowOk row := by
  cases o with
  | none =>
    rw [insert_eq_nothing h]
    exact hrows
  | some q =>
    obtain ⟨-, rfl, -, -⟩ := insert_eq_ok h
    intro k row hrow
    rw [Table.lookup_insert_eq] at hrow
    split at hrow
    · exact Option.some.inj hrow ▸ hr
    · exact hrows k row hrow

/-- what the queue's own steps do to the rows -/
theorem rows_step {q q' : Writers.World Text π Request} {a : Writers.Action Text π Request}
    (hother : isOther a = true) (hstep : Writers.step q a = some q')
    (hrows : ∀ id row, q.db.lookup id = some row → RowOk row) :
    ∀ id row, q'.db.lookup id = some row → RowOk row := by
  rcases Writers.db_step a hstep with hr | ⟨id, r, o, hok, tenantId, operation, key, sub, acl, request, now, rfl, rfl⟩
  · intro id row hrow
    obtain ⟨row₀, hrow₀, hon⟩ := hr.source hrow
    exact (hrows id row₀ hrow₀).onward hon
  · refine rows_insert (fun hop => ?_) hok hrows
    have hne : operation ≠ .capture := bne_iff_ne.mp hother
    exact absurd hop hne

theorem rows_enqueueCapture (tenant : Text) (now : Time) {db : Db Text Request} {e : Envelope}
    (hclean : cleanIdentity e.actor.subject = .ok e.actor.subject)
    (hrows : ∀ id row, db.lookup id = some row → RowOk row) :
    ∀ id row, (enqueueCapture tenant now db e).2.lookup id = some row → RowOk row := by
  rcases enqueueCapture_db tenant now db e with heq | ⟨o, hok⟩
  · rw [heq]
    exact hrows
  · exact rows_insert (fun _ => ⟨e, rfl, rfl, hclean⟩) hok hrows

/-! ### an import -/

variable {R : Runtime} {withoutCapability : Text → Except Text Text} {upper : Text → Text}

theorem envelopesOf_eq_ok {target : Text} {exported : Exported} {sequence : List Text}
    {es : List (Text × Envelope)} (h : envelopesOf R withoutCapability uuid5 target exported sequence = .ok es) :
    es.map Prod.fst = sequence ∧ ∀ x ∈ es, ∃ request e, (x.1, request) ∈ exported.captures ∧
      parseCapture R withoutCapability request = .ok e ∧ x.2 = copyOf uuid5 target x.1 e := by
  induction sequence generalizing es with
  | nil =>
    rw [← Except.ok.inj h]
    exact ⟨rfl, fun x hx => absurd hx List.not_mem_nil⟩
  | cons original sequence ih =>
    obtain ⟨request, hrequest, h⟩ := Checks.bind_eq_ok.mp h
    obtain ⟨e, he, h⟩ := Checks.bind_eq_ok.mp h
    obtain ⟨-, h⟩ := Checks.of_ite_error h
    obtain ⟨rest, hrest, rfl⟩ := Checks.map_eq_ok h
    obtain ⟨hfst, heach⟩ := ih hrest
    refine ⟨by rw [List.map_cons, hfst], fun x hx => ?_⟩
    rcases List.mem_cons.mp hx with rfl | hx
    · refine ⟨request, e, ?_, he, rfl⟩
      unfold requestOf at hrequest
      split at hrequest
      · next r hr =>
        obtain rfl := Except.ok.inj hrequest
        obtain ⟨l₁, l₂, hl, -⟩ := List.lookup_eq_some_iff.mp hr
        rw [hl]
        exact List.mem_append_right l₁ List.mem_cons_self
      · exact nomatch hrequest
    · exact heach x hx

/-- what `import_` builds from a file is under the names of the rows the file was exported from -/
theorem importOk_of {w : World π} (h : Inv uuid5 w) {exported : Exported} (hmem : exported ∈ w.exports)
    {tenants : AList fun _ : Text => Tenant} {slug confirm : Text} {order : Option (List Text)} {i : Import}
    (hi : importOf R withoutCapability uuid5 tenants slug exported confirm order = .ok i) :
    ImportOk uuid5 w.queue.db i := by
  obtain ⟨-, hi⟩ := Checks.of_ite_error hi
  obtain ⟨target, -, hi⟩ := Checks.bind_eq_ok.mp hi
  obtain ⟨-, hi⟩ := Checks.of_ite_error hi
  obtain ⟨-, hi⟩ := Checks.of_ite_error hi
  obtain ⟨horder, hi⟩ := Checks.of_ite_error hi
  obtain ⟨es, hes, rfl⟩ := Checks.map_eq_ok hi
  obtain ⟨hfst, heach⟩ := envelopesOf_eq_ok hes
  rw [Bool.not_eq_true, Bool.not_eq_false'] at horder
  simp only [isOrderOf, Bool.and_eq_true, List.all_eq_true] at horder
  refine ⟨fun c hc => ?_, fun x hx => ?_⟩
  · have hin := List.contains_iff_mem.mp (horder.2 c.1 (List.mem_map_of_mem hc))
    rw [← hfst] at hin
    obtain ⟨x, hx, hxc⟩ := List.mem_map.mp hin
    exact ⟨x.2, hxc ▸ hx⟩
  · obtain ⟨request, e, hreq, hparse, hcopy⟩ := heach x hx
    obtain ⟨row, hrow, hop, hrequest⟩ := h.exports_ok exported hmem _ hreq
    obtain ⟨e₀, he₀, hsub, hclean⟩ := h.rows_ok _ row hrow hop
    have hraw : e₀.validate R withoutCapability = .ok e := by
      have hsame : request = .capture e₀ := hrequest.symm.trans he₀
      rw [hsame] at hparse
      exact hparse
    obtain ⟨hsubject, -⟩ := Envelope.of_validate R withoutCapability hraw
    unfold EnvelopeOk
    rw [hcopy]
    exact ⟨rfl, rfl, row, hrow, hop, hsub.trans (Except.ok.inj (hclean.symm.trans hsubject))⟩

theorem mem_listed {artifacts : List (Text × Bool)} {source : Text} {c : Text × Row Request}
    (h : c ∈ listed db artifacts source) : db.lookup c.1 = some c.2 ∧ c.2.tenantId = source ∧
      c.2.operation = .capture := by
  obtain ⟨hmem, hlisted⟩ := List.mem_filter.mp h
  obtain ⟨e, he, rfl⟩ := List.mem_map.mp hmem
  rw [Bool.and_eq_true] at hlisted
  obtain ⟨⟨⟨htenant, hop⟩, -⟩, -⟩ := hlisted.imp_left fun hl => by
    rw [isLanded, Bool.and_eq_true, Bool.and_eq_true, beq_iff_eq, beq_iff_eq] at hl
    exact hl
  exact ⟨AList.mem_lookup_iff.mpr he, htenant, hop⟩

theorem exportOk_exportCaptures (db : Db Text Request) (artifacts : List (Text × Bool)) (x : Exported) :
    ExportOk db (exportCaptures db artifacts x) := by
  intro c hc
  obtain ⟨c', hc', rfl⟩ := List.mem_map.mp hc
  obtain ⟨hrow, -, hop⟩ := mem_listed ((List.mem_insertionSort _).mp hc')
  exact ⟨c'.2, hrow, hop, rfl⟩

/-- the author of a copy is written as the queue writes it -/
theorem clean_of_envelopeOk {w : World π} (h : Inv uuid5 w) {target : Text} {x : Text × Envelope}
    (hx : EnvelopeOk uuid5 w.queue.db target x) : cleanIdentity x.2.actor.subject = .ok x.2.actor.subject := by
  obtain ⟨-, -, row, hrow, hop, hsub⟩ := hx
  obtain ⟨e, -, hsame, hclean⟩ := h.rows_ok x.1 row hrow hop
  rw [← hsame, hsub] at hclean
  exact hclean

/-- the copy of one capture is queued, or was -/
theorem inv_enqueue {w : World π} (h : Inv uuid5 w) {p : π} {i : Import} {original : Text} {e : Envelope}
    {todo : List (Text × Envelope)} (hphase : w.phase p = .queueing i ((original, e) :: todo)) {now : Time}
    (hP : Recognised w (.enqueue p now)) {receipt : Receipt}
    (hok : enqueueCapture i.target now w.queue.db e = (.ok receipt, db')) :
    Inv uuid5 { ((w.withDb db').move p (.queueing i todo)) with
      copies := if receipt.created then (receipt.id, original) :: w.copies else w.copies } := by
  have hat := h.at_phase p
  rw [hphase] at hat
  obtain ⟨himport, htodo, hdone⟩ := hat
  obtain ⟨hid, hkey, row₀, hrow₀, hop₀, hsub₀⟩ := himport.each (original, e) (htodo _ List.mem_cons_self)
  have hclean := clean_of_envelopeOk h (himport.each (original, e) (htodo _ List.mem_cons_self))
  have ho : Onward w.queue.db db' := by
    have hon := onward_enqueueCapture i.target now w.queue.db e
    rwa [hok] at hon
  have hkeyed : Keyed db' := by
    have hk := keyed_enqueueCapture i.target now h.keyed e
    rwa [hok] at hk
  have hrows : ∀ id row, db'.lookup id = some row → RowOk row := by
    have hr := rows_enqueueCapture i.target now hclean h.rows_ok
    rwa [hok] at hr
  set copies := if receipt.created then (receipt.id, original) :: w.copies else w.copies with hcopies
  have hmem : ∀ x ∈ w.copies, x ∈ copies := by
    intro x hx
    rw [hcopies]
    split
    · exact List.mem_cons_of_mem _ hx
    · exact hx
  -- the row under the key: added now, or recognised as the copy
  have hqueued : IsCopy db' copies i.target receipt.id original ∧ ∀ t s, (t, s) ∈ copies → CopyOk uuid5 db' t s := by
    rcases enqueueCapture_eq_ok hok with ⟨hcreated, hrid, row, hdb, hfiled⟩ | ⟨hcreated, rfl, row, hrow, htenant, hsub, hk⟩
    · have hrow : db'.lookup receipt.id = some row := by
        rw [hdb, AList.lookup_insert]
      rw [hcopies, if_pos hcreated]
      refine ⟨⟨List.mem_cons_self, row, hrow, hfiled.tenantId⟩, fun t s hts => ?_⟩
      rcases List.mem_cons.mp hts with heq | hts
      · obtain ⟨rfl, rfl⟩ := Prod.mk.inj heq
        obtain ⟨row', hrow', hon⟩ := ho s row₀ hrow₀
        refine ⟨row, row', hrow, hrow', hfiled.idempotencyKey.trans hkey, ?_, ?_⟩
        · rw [hfiled.submittedBy, hon.submittedBy, hsub₀]
        · rw [hrid, hid, hfiled.tenantId]
      · exact (h.copies_ok t s hts).onward ho
    · have hknown := hP i original e todo hphase receipt.id row hrow htenant hsub hk
      rw [hcopies, if_neg (by rw [hcreated]; exact Bool.false_ne_true)]
      exact ⟨⟨hknown, row, hrow, htenant⟩, h.copies_ok⟩
  refine ⟨hkeyed, hrows, fun x hx => (h.exports_ok x hx).onward ho, hqueued.2, fun q => ?_, ?_, h.handed_ok⟩
  · by_cases hq : q = p
    · subst hq
      show At uuid5 db' copies (Function.update w.phase q (.queueing i todo) q)
      rw [Function.update_self]
      refine ⟨himport.onward ho, fun x hx => htodo x (List.mem_cons_of_mem _ hx), fun x hx => ?_⟩
      rcases hdone x hx with hx | ⟨t, ht⟩
      · rcases List.mem_cons.mp hx with rfl | hx
        · exact Or.inr ⟨receipt.id, hqueued.1⟩
        · exact Or.inl hx
      · exact Or.inr ⟨t, ht.onward ho hmem⟩
    · show At uuid5 db' copies (Function.update w.phase p (.queueing i todo) q)
      rw [Function.update_of_ne hq]
      exact (h.at_phase q).onward ho hmem
  · intro j hj c hc
    obtain ⟨t, ht⟩ := h.completed_ok j hj c hc
    exact ⟨t, ht.onward ho hmem⟩

/-! ### a handover -/

theorem keyed_eq_false {target : Text} {s : Text × Row Request} : keyed db target s = false ↔
    ∀ id row, db.lookup id = some row → row.tenantId = target → row.status = .landed →
      row.submittedBy = s.2.submittedBy → row.idempotencyKey ≠ replayKey s.1 := by
  rw [keyed, List.any_eq_false]
  constructor
  · intro h id row hrow htenant hlanded hsub hkey
    refine h row (Table.mem_vals.mpr ⟨id, hrow⟩) ?_
    rw [htenant, hlanded, hsub, hkey, beq_self_eq_true, beq_self_eq_true, beq_self_eq_true, beq_self_eq_true]
    rfl
  · intro h row hmem hall
    obtain ⟨id, hrow⟩ := Table.mem_vals.mp hmem
    simp only [Bool.and_eq_true, beq_iff_eq] at hall
    exact h id row hrow hall.1.1.1 hall.1.1.2 hall.1.2 hall.2

/-- a capture that is counted has no counterpart -/
theorem hasCounterpart_of_counted {w : World π} (h : Inv uuid5 w) {source target : Text} {s : Text × Row Request}
    (hs : s ∈ counted w.queue.db w.tables.artifacts source target) : hasCounterpart w target s.1 = false := by
  obtain ⟨hlisted, hcount⟩ := List.mem_filter.mp hs
  obtain ⟨hrow, -, -⟩ := mem_listed hlisted
  rw [Bool.and_eq_true, Bool.not_eq_true', Bool.not_eq_true', keyed_eq_false] at hcount
  rw [hasCounterpart, List.any_eq_false]
  intro t ht hall
  obtain ⟨e, he, rfl⟩ := List.mem_map.mp ht
  have hlookup : w.queue.db.lookup e.1 = some e.2 := AList.mem_lookup_iff.mpr he
  rw [Bool.and_eq_true, Bool.and_eq_true, beq_iff_eq, beq_iff_eq, Bool.or_eq_true, List.contains_iff_mem,
    List.contains_iff_mem] at hall
  obtain ⟨⟨htenant, hlanded⟩, hto | hfrom⟩ := hall
  · obtain ⟨row, row', hr, hr', hkey, hsub, -⟩ := h.copies_ok _ _ hto
    obtain rfl := Option.some.inj (hlookup.symm.trans hr)
    obtain rfl := Option.some.inj (hrow.symm.trans hr')
    exact hcount.2 e.1 e.2 hlookup htenant hlanded hsub hkey
  · obtain ⟨row, row', hr, -, hkey, -⟩ := h.copies_ok _ _ hfrom
    obtain rfl := Option.some.inj (hrow.symm.trans hr)
    have hyes : KEY_PREFIX.isPrefixOf s.2.idempotencyKey = true := by
      rw [hkey, List.isPrefixOf_iff_prefix]
      exact List.prefix_append _ _
    exact nomatch hcount.1.symm.trans hyes

/-- the count is right exactly when it is told of every unlanded capture -/
theorem length_counted_iff {w : World π} (h : Inv uuid5 w) (source target : Text) :
    (counted w.queue.db w.tables.artifacts source target).length = (unlanded w source target).length ↔
      Told w source target := by
  have hsub : counted w.queue.db w.tables.artifacts source target =
      (unlanded w source target).filter fun s =>
        !KEY_PREFIX.isPrefixOf s.2.idempotencyKey && !keyed w.queue.db target s := by
    unfold unlanded
    rw [List.filter_filter]
    refine List.filter_congr fun s hs => ?_
    cases hc : (!KEY_PREFIX.isPrefixOf s.2.idempotencyKey && !keyed w.queue.db target s) with
    | false => rfl
    | true =>
      rw [hasCounterpart_of_counted h (List.mem_filter.mpr ⟨hs, hc⟩)]
      rfl
  rw [hsub, List.length_filter_eq_length_iff]
  unfold Told
  refine forall₂_congr fun s _ => ?_
  rw [Bool.and_eq_true, Bool.not_eq_true', Bool.not_eq_true', keyed_eq_false]

structure HandedOver (w w' : World π) (source target : Text) (acceptUnlanded : ℕ) (now : Time) : Prop where
  counted : acceptUnlanded = (unlanded w source target).length ↔ Told w source target
  /-- only live tokens of people enabled in both are moved -/
  tokens : ∀ token ∈ w'.tables.tokens, token ∈ w.tables.tokens ∨ ∃ old ∈ w.tables.tokens,
    token = { old with tenantId := target } ∧ old.tenantId = source ∧ isLive now old = true ∧
      enabled (w.tables.rosters source) old.subject = true ∧ enabled (w.tables.rosters target) old.subject = true
  sessions : ∀ session ∈ w'.tables.sessions, session ∈ w.tables.sessions ∨ ∃ old ∈ w.tables.sessions,
    session = { old with tenantId := target } ∧ ∃ token ∈ w.tables.tokens, token.id = old.tokenId ∧
      movable w.tables source target now token = true
  suspended : ∃ t, w.tables.tenants.lookup source = some t ∧
    w'.tables.tenants = w.tables.tenants.insert source { t with status := .suspended }

theorem handover_eq_ok {tables tables' : Tables} {source target : Text} {n : ℕ} {now : Time}
    (h : handover db tables source target n now = .ok tables') :
    (counted db tables.artifacts source target).length = n ∧ ∃ t, tables.tenants.lookup source = some t ∧
      tables' = { tables with
        tokens := tables.tokens.map fun token =>
          if movable tables source target now token then { token with tenantId := target } else token
        sessions := tables.sessions.map fun session =>
          if ((tables.tokens.filter (movable tables source target now)).map Token.id).contains session.tokenId then
            { session with tenantId := target } else session
        tenants := tables.tenants.insert source { t with status := .suspended } } := by
  obtain ⟨-, h⟩ := Checks.of_ite_error h
  obtain ⟨-, h⟩ := Checks.of_ite_error h
  obtain ⟨-, h⟩ := Checks.of_ite_error h
  obtain ⟨hcount, h⟩ := Checks.of_ite_error h
  obtain ⟨-, h⟩ := Checks.of_ite_error h
  split at h
  · exact nomatch h
  · next t ht => exact ⟨not_not.mp hcount, t, ht, (Except.ok.inj h).symm⟩

theorem handedOver_of {w w' : World π} (h : Inv uuid5 w) {source target : Text} {n : ℕ} {now : Time}
    (hok : handover w.queue.db w.tables source target n now = .ok w'.tables) :
    HandedOver w w' source target n now := by
  obtain ⟨hcount, t, ht, htables⟩ := handover_eq_ok hok
  refine ⟨?_, fun token htoken => ?_, fun session hsession => ?_, t, ht, by rw [htables]⟩
  · rw [← hcount]
    exact length_counted_iff h source target
  · rw [htables] at htoken
    obtain ⟨old, hold, rfl⟩ := List.mem_map.mp htoken
    cases hm : movable w.tables source target now old with
    | false =>
      rw [if_neg Bool.false_ne_true]
      exact Or.inl hold
    | true =>
      rw [if_pos rfl]
      simp only [movable, Bool.and_eq_true, beq_iff_eq] at hm
      exact Or.inr ⟨old, hold, rfl, hm.1.1.1, hm.1.1.2, hm.1.2, hm.2⟩
  · rw [htables] at hsession
    obtain ⟨old, hold, rfl⟩ := List.mem_map.mp hsession
    split
    · next hm =>
      obtain ⟨token, htoken, hid⟩ := List.mem_map.mp (List.contains_iff_mem.mp hm)
      obtain ⟨hin, hmovable⟩ := List.mem_filter.mp htoken
      exact Or.inr ⟨old, hold, rfl, token, hin, hid, hmovable⟩
    · exact Or.inl hold

/-! ## Steps and runs -/

theorem Inv.others {w : World π} (h : Inv uuid5 w) (tables : Tables) : Inv uuid5 { w with tables := tables } :=
  ⟨h.keyed, h.rows_ok, h.exports_ok, h.copies_ok, h.at_phase, h.completed_ok, h.handed_ok⟩

theorem inv_callRoster {w : World π} (h : Inv uuid5 w) (p : π) (target : Text) (op : Roster.Op) (now : Time)
    {next : Phase} (hat : At uuid5 w.queue.db w.copies next) : Inv uuid5 (callRoster R upper w p target op now next) := by
  unfold callRoster
  split
  · exact h.move trivial
  · exact (h.move hat).others _

/-- each action along `Recognised` keeps the invariant -/
theorem inv_step {w w' : World π} {a : Action π} (h : Inv uuid5 w) (hP : Recognised w a)
    (hstep : step R withoutCapability uuid5 upper w a = some w') : Inv uuid5 w' := by
  have hat := h.at_phase
  cases a with
  | queue a =>
    simp only [step] at hstep
    split at hstep
    · next hother =>
      obtain ⟨q, hq, rfl⟩ := Option.map_eq_some_iff.mp hstep
      exact h.onward (Writers.onward_step a hq) (Writers.keyed_step a h.keyed hq) (rows_step hother hq h.rows_ok)
        ⟨rfl, rfl, rfl, rfl, rfl⟩
    · exact nomatch hstep
  | submit tenantId raw now =>
    simp only [step] at hstep
    split at hstep
    · obtain rfl := Option.some.inj hstep
      exact h
    · next e he =>
      obtain rfl := Option.some.inj hstep
      obtain ⟨hsubject, -⟩ := Envelope.of_validate R withoutCapability he
      exact h.onward (onward_enqueueCapture tenantId now w.queue.db e) (keyed_enqueueCapture tenantId now h.keyed e)
        (rows_enqueueCapture tenantId now (cleanIdentity_idem hsubject) h.rows_ok) ⟨rfl, rfl, rfl, rfl, rfl⟩
  | others tables =>
    obtain rfl := Option.some.inj hstep
    exact h.others tables
  | exportPeople p slug =>
    simp only [step] at hstep
    split at hstep
    · split at hstep
      · obtain rfl := Option.some.inj hstep
        exact h
      · obtain rfl := Option.some.inj hstep
        exact h.move trivial
    · exact nomatch hstep
  | exportCaptures p =>
    simp only [step] at hstep
    split at hstep
    · next x hphase =>
      obtain rfl := Option.some.inj hstep
      have hmoved : Inv uuid5 (w.move p .idle) := h.move trivial
      refine ⟨hmoved.keyed, hmoved.rows_ok, fun y hy => ?_, hmoved.copies_ok, hmoved.at_phase, hmoved.completed_ok,
        hmoved.handed_ok⟩
      rcases List.mem_cons.mp hy with rfl | hy
      · exact exportOk_exportCaptures _ _ _
      · exact h.exports_ok y hy
    · exact nomatch hstep
  | importFile p n slug confirm order =>
    simp only [step] at hstep
    split at hstep
    · next exported hphase hfile =>
      split at hstep
      · obtain rfl := Option.some.inj hstep
        exact h
      · next i hi =>
        obtain rfl := Option.some.inj hstep
        exact h.move (importOk_of h (List.mem_of_getElem? hfile) hi)
    · exact nomatch hstep
  | readKeys p | readPeople p =>
    simp only [step] at hstep
    split at hstep
    · next i hphase =>
      have hi := hphase ▸ hat p
      obtain rfl := Option.some.inj hstep
      split
      · exact h.move trivial
      · exact h.move hi
    · exact nomatch hstep
  | readGroups p =>
    simp only [step] at hstep
    split at hstep
    · next i hphase =>
      have hi := hphase ▸ hat p
      obtain rfl := Option.some.inj hstep
      exact h.move hi
    · exact nomatch hstep
  | createGroup p =>
    simp only [step] at hstep
    split at hstep
    · next i g todo hphase =>
      have hi := hphase ▸ hat p
      obtain rfl := Option.some.inj hstep
      exact inv_callRoster h p i.target _ 0 hi
    · exact nomatch hstep
  | readPresent p =>
    simp only [step] at hstep
    split at hstep
    · next i hphase =>
      have hi := hphase ▸ hat p
      obtain rfl := Option.some.inj hstep
      exact h.move hi
    · exact nomatch hstep
  | putPerson p now =>
    simp only [step] at hstep
    split at hstep
    · next i op todo hphase =>
      have hi := hphase ▸ hat p
      obtain rfl := Option.some.inj hstep
      exact inv_callRoster h p i.target op now hi
    · next i hphase =>
      have hi : At uuid5 w.queue.db w.copies (.enrolling i []) := hphase ▸ hat p
      obtain rfl := Option.some.inj hstep
      exact h.move ⟨hi, fun x hx => hx, fun x hx => Or.inl hx⟩
    · exact nomatch hstep
  | enqueue p now =>
    simp only [step] at hstep
    split at hstep
    · next i original e todo hphase =>
      split at hstep
      · next error db' hok =>
        obtain rfl := Option.some.inj hstep
        obtain ⟨himport, htodo, -⟩ : At uuid5 w.queue.db w.copies (.queueing i ((original, e) :: todo)) :=
          hphase ▸ hat p
        have hclean := clean_of_envelopeOk h (himport.each _ (htodo _ List.mem_cons_self))
        refine Inv.move (show Inv uuid5 (w.withDb db') from h.onward ?_ ?_ ?_ ⟨rfl, rfl, rfl, rfl, rfl⟩) trivial
        · have ho := onward_enqueueCapture i.target now w.queue.db e
          rwa [hok] at ho
        · have hk := keyed_enqueueCapture i.target now h.keyed e
          rwa [hok] at hk
        · have hr := rows_enqueueCapture i.target now hclean h.rows_ok
          rwa [hok] at hr
      · next receipt db' hok =>
        obtain rfl := Option.some.inj hstep
        exact inv_enqueue h hphase hP hok
    · next i hphase =>
      obtain ⟨himport, -, hdone⟩ : At uuid5 w.queue.db w.copies (.queueing i []) := hphase ▸ hat p
      obtain rfl := Option.some.inj hstep
      have hmoved : Inv uuid5 (w.move p .idle) := h.move trivial
      refine ⟨hmoved.keyed, hmoved.rows_ok, hmoved.exports_ok, hmoved.copies_ok, hmoved.at_phase, fun j hj c hc => ?_,
        hmoved.handed_ok⟩
      rcases List.mem_cons.mp hj with rfl | hj
      · obtain ⟨e, he⟩ := himport.all c hc
        exact (hdone _ he).resolve_left List.not_mem_nil
      · exact h.completed_ok j hj c hc
    · exact nomatch hstep
  | startHandover p source target confirm n =>
    simp only [step] at hstep
    split at hstep
    · split at hstep
      · obtain rfl := Option.some.inj hstep
        exact h
      · obtain rfl := Option.some.inj hstep
        exact h.move trivial
    · exact nomatch hstep
  | handover p now =>
    simp only [step] at hstep
    split at hstep
    · next s t n hphase =>
      split at hstep
      · obtain rfl := Option.some.inj hstep
        exact h.move trivial
      · next tables hok =>
        obtain rfl := Option.some.inj hstep
        have hmoved : Inv uuid5 (w.move p .idle) := h.move trivial
        refine ⟨hmoved.keyed, hmoved.rows_ok, hmoved.exports_ok, hmoved.copies_ok, hmoved.at_phase,
          hmoved.completed_ok, fun x hx => ?_⟩
        rcases List.mem_cons.mp hx with rfl | hx
        · obtain ⟨hcount, -⟩ := handover_eq_ok hok
          exact ((length_counted_iff h s t).mpr (hP s t n hphase)).symm.trans hcount
        · exact h.handed_ok x hx
    · exact nomatch hstep
  | stop p =>
    obtain rfl := Option.some.inj hstep
    exact h.move trivial

/-- the process of a step of an export, an import or a handover -/
def operator : Action π → Option π
  | .queue _ | .submit _ _ _ | .others _ => none
  | .exportPeople p _ | .exportCaptures p | .importFile p _ _ _ _ | .readKeys p | .readPeople p | .readGroups p
  | .createGroup p | .readPresent p | .putPerson p _ | .enqueue p _ | .startHandover p _ _ _ _ | .handover p _
  | .stop p => some p

/-- no token or session is moved, no workspace suspended -/
def Unmoved (w w' : World π) : Prop :=
  w'.tables.tokens = w.tables.tokens ∧ w'.tables.sessions = w.tables.sessions ∧ w'.tables.tenants = w.tables.tenants

theorem unmoved_callRoster (w : World π) (p : π) (target : Text) (op : Roster.Op) (now : Time) (next : Phase) :
    Unmoved w (callRoster R upper w p target op now next) := by
  unfold callRoster
  split
  · exact ⟨rfl, rfl, rfl⟩
  · exact ⟨rfl, rfl, rfl⟩

/-- what a step of an operator's process does to tokens, sessions and workspaces -/
theorem moves_step {w w' : World π} (h : Inv uuid5 w) {p : π} {a : Action π} (hp : operator a = some p)
    (hstep : step R withoutCapability uuid5 upper w a = some w') :
    Unmoved w w' ∨ ∃ source target n now, a = .handover p now ∧ w.phase p = .handing source target n ∧
      HandedOver w w' source target n now := by
  cases a with
  | queue a | submit tenantId raw now | others tables => exact nomatch hp
  | handover q now =>
    obtain rfl : q = p := Option.some.inj hp
    simp only [step] at hstep
    split at hstep
    · next s t n hphase =>
      split at hstep
      · obtain rfl := Option.some.inj hstep
        exact Or.inl ⟨rfl, rfl, rfl⟩
      · next tables hok =>
        obtain rfl := Option.some.inj hstep
        exact Or.inr ⟨s, t, n, now, rfl, hphase, handedOver_of h hok⟩
    · exact nomatch hstep
  | createGroup q =>
    simp only [step] at hstep
    split at hstep
    · obtain rfl := Option.some.inj hstep
      exact Or.inl (unmoved_callRoster w q _ _ _ _)
    · exact nomatch hstep
  | putPerson q now =>
    simp only [step] at hstep
    split at hstep
    · obtain rfl := Option.some.inj hstep
      exact Or.inl (unmoved_callRoster w q _ _ _ _)
    · obtain rfl := Option.some.inj hstep
      exact Or.inl ⟨rfl, rfl, rfl⟩
    · exact nomatch hstep
  | exportPeople q slug | importFile q n slug confirm order | startHandover q source target confirm n =>
    simp only [step] at hstep
    split at hstep
    · split at hstep
      · obtain rfl := Option.some.inj hstep
        exact Or.inl ⟨rfl, rfl, rfl⟩
      · obtain rfl := Option.some.inj hstep
        exact Or.inl ⟨rfl, rfl, rfl⟩
    · exact nomatch hstep
  | enqueue q now =>
    simp only [step] at hstep
    split at hstep
    · split at hstep
      · obtain rfl := Option.some.inj hstep
        exact Or.inl ⟨rfl, rfl, rfl⟩
      · obtain rfl := Option.some.inj hstep
        exact Or.inl ⟨rfl, rfl, rfl⟩
    · obtain rfl := Option.some.inj hstep
      exact Or.inl ⟨rfl, rfl, rfl⟩
    · exact nomatch hstep
  | exportCaptures q | readKeys q | readPeople q | readGroups q | readPresent q =>
    simp only [step] at hstep
    split at hstep
    · obtain rfl := Option.some.inj hstep
      exact Or.inl ⟨rfl, rfl, rfl⟩
    · exact nomatch hstep
  | stop q =>
    obtain rfl := Option.some.inj hstep
    exact Or.inl ⟨rfl, rfl, rfl⟩

def start (env : Env) (tables : Tables) : World π where
  queue := Writers.init env
  tables := tables
  phase := fun _ => .idle
  exports := []
  copies := []
  completed := []
  handed := []

theorem inv_start (env : Env) (tables : Tables) : Inv uuid5 (start env tables : World π) where
  keyed := keyed_empty
  rows_ok := fun _ _ h => nomatch h
  exports_ok := fun _ h => absurd h List.not_mem_nil
  copies_ok := fun _ _ h => absurd h List.not_mem_nil
  at_phase := fun _ => trivial
  completed_ok := fun _ h => absurd h List.not_mem_nil
  handed_ok := fun _ h => absurd h List.not_mem_nil

/-- **Replays over a run whose counterparts are recognised.** -/
theorem replays_accounted {env : Env} {tables : Tables} {as : List (Action π)} {w : World π}
    (hP : Runs.along (step R withoutCapability uuid5 upper) Recognised (start env tables) as)
    (hw : Runs.exec (step R withoutCapability uuid5 upper) (start env tables) as = some w) :
    Safe w ∧ ∀ p a w', operator a = some p → step R withoutCapability uuid5 upper w a = some w' →
      Unmoved w w' ∨ ∃ source target n now, a = .handover p now ∧ w.phase p = .handing source target n ∧
        HandedOver w w' source target n now := by
  have hI : Inv uuid5 w := Runs.exec_invariant_along (fun _ _ _ => inv_step) (inv_start env tables) hP hw
  exact ⟨hI.safe, fun p a w' => moves_step hI⟩

/-! ## `Recognised`, computed -/

def recognised (w : World π) : Action π → Bool
  | .enqueue p _ => match w.phase p with
    | .queueing i ((original, e) :: _) => (rowsOf w.queue.db).all fun t =>
        !(t.2.tenantId == i.target && t.2.submittedBy == e.actor.subject &&
          t.2.idempotencyKey == e.idempotencyKey) || w.copies.contains (t.1, original)
    | _ => true
  | .handover p _ => match w.phase p with
    | .handing source target _ => (unlanded w source target).all fun s =>
        !KEY_PREFIX.isPrefixOf s.2.idempotencyKey && !keyed w.queue.db target s
    | _ => true
  | _ => true

theorem recognised_of_check (w : World π) (a : Action π) (h : recognised w a = true) : Recognised w a := by
  cases a with
  | enqueue p now =>
    intro i original e todo hphase id row hrow htenant hsub hkey
    rw [recognised, hphase] at h
    have hall := List.all_eq_true.mp h (id, row) (List.mem_map_of_mem (AList.mem_lookup_iff.mp hrow))
    simp only [htenant, hsub, hkey, beq_self_eq_true, Bool.and_self, Bool.not_true, Bool.false_or] at hall
    exact List.contains_iff_mem.mp hall
  | handover p now =>
    intro source target n hphase s hs
    rw [recognised, hphase] at h
    have hall := List.all_eq_true.mp h s hs
    rw [Bool.and_eq_true, Bool.not_eq_true', Bool.not_eq_true', keyed_eq_false] at hall
    exact hall
  | _ => trivial

end

/-! ## Two runs -/

def ada : Text := "ada@acme.com".toList

def active (slug : Text) : Tenant :=
  { slug := slug, name := slug, status := .active, repo := slug, slackTeamId := none }

def people : Roster.Roster where
  groups := ∅
  principals := (∅ : AList fun _ : Text => Roster.PrincipalRow).insert ada
    ⟨"Ada".toList, .person, false, [], some [Layers.PUBLIC], none⟩
  channels := ∅

/-- three workspaces of the same person, who has a token in the first two -/
def three : Tables where
  tenants := ((∅ : AList fun _ : Text => Tenant).insert ['a'] (active ['a'])).insert ['b'] (active ['b'])
    |>.insert ['c'] (active ['c'])
  deleting := []
  rosters := fun _ => people
  artifacts := []
  tokens := [⟨['1'], ['a'], ada, none, none⟩, ⟨['2'], ['b'], ada, none, none⟩]
  sessions := [⟨['s'], ['a'], ['1']⟩]

def noted : Envelope :=
  let digest := List.replicate 64 'a'
  { captureId := ['1'], idempotencyKey := ['k'], actor := ⟨ada, "Ada".toList⟩, audience := none,
    origin := ⟨.mcp, 0, none, none, none, [], none⟩,
    artifacts := [⟨contentRef digest, digest, 5, MEDIA_TEXT, none, none⟩], intent := ⟨none, none⟩ }

/-- a writer files the capture -/
def land (id : Text) (now : Time) : List (Action Bool) :=
  let d : Writers.Details := ⟨none, [], [], []⟩
  [.trySweep false, .sweep false now 900 100 [], .endSweep false, .claim false id now now 60, .tryLock false,
    .readBase false, .reconcile false d, .clear false, .publish false id, .record false d, .unlock false,
    .finish false now].map .queue

/-- one capture of `a`, filed, exported and imported into `b` -/
def refiled : List (Action Bool) :=
  [.submit ['a'] noted 1] ++ land ['1'] 2 ++ [.exportPeople true ['a'], .exportCaptures true,
    .importFile true 0 ['b'] "a:b".toList none, .readKeys true, .readPeople true, .readGroups true, .readPresent true,
    .putPerson true 3, .putPerson true 3, .enqueue true 3, .enqueue true 3] ++ land "b:1".toList 4

/-- `b` is handed on to `c`, where nothing was ever filed -/
def handedOn : List (Action Bool) :=
  refiled ++ [.startHandover true ['b'] ['c'] "b:c".toList 0, .handover true 5]

theorem not_replays_accounted : ∃ w, Runs.exec (step ascii .ok id id) (start Writers.openEnv three) handedOn = some w ∧
    ¬Safe w := by
  have hrun : (Runs.exec (step ascii .ok id id) (start Writers.openEnv three) handedOn).any (fun w =>
      w.handed.any fun h => h.left == 1 && h.accepted == 0) = true := by
    decide +kernel
  obtain ⟨w, hw, h⟩ := (Option.any_eq_true _ _).mp hrun
  obtain ⟨handed, hmem, hne⟩ := List.any_eq_true.mp h
  rw [Bool.and_eq_true, beq_iff_eq, beq_iff_eq] at hne
  refine ⟨w, hw, fun hsafe => ?_⟩
  have heq := hsafe.handed handed hmem
  rw [hne.1, hne.2] at heq
  exact absurd heq (by decide)

/-- `a` is handed over to `b` once its capture has landed there -/
def handedTo : List (Action Bool) :=
  refiled ++ [.startHandover true ['a'] ['b'] "a:b".toList 0, .handover true 5]

theorem replays_accounted_handedTo : ∃ w,
    Runs.exec (step ascii .ok id id) (start Writers.openEnv three) handedTo = some w ∧
      w.tables.tokens.map Token.tenantId = [['b'], ['b']] ∧ w.handed.map Handed.accepted = [0] ∧
      Safe w := by
  have hrun : (Runs.exec (step ascii .ok id id) (start Writers.openEnv three) handedTo).any (fun w =>
      decide (w.tables.tokens.map Token.tenantId = [['b'], ['b']] ∧ w.handed.map Handed.accepted = [0])) = true := by
    decide +kernel
  have hP : Runs.along (step ascii .ok id id) Recognised (start Writers.openEnv three) handedTo :=
    Runs.along_of_check recognised_of_check (by decide +kernel)
  obtain ⟨w, hw, h⟩ := (Option.any_eq_true _ _).mp hrun
  obtain ⟨htokens, haccepted⟩ := of_decide_eq_true h
  exact ⟨w, hw, htokens, haccepted, (replays_accounted hP hw).1⟩

end ReplayWorkspace
