import Mathlib.Data.List.Dedup
import Mathlib.Logic.Function.Basic
import Stigmergy.Lib.Runs
import Stigmergy.Lib.Text
import Stigmergy.Capture.Queue

/-!
# Evidence and its references

The blobs of the evidence store and the rows that refer to them: `capture/references.py`,
`capture/uploads.py`, the part of `capture/service.py` and of the writer that stores, verifies or
deletes a blob.  Any number of processes run at once, cut after every SQL statement and every call of
the store; `finalize_upload_capture` is one transaction, whose rows appear when it commits.

* `isLive`          the query that decides whether a blob may be deleted;
* `references`      the blobs the rows refer to, `required` those that must be in the store;
* `step`            one action of one process, or time passing;
* `Apart`           no reference to a blob appears between the check and the deletion of it, and
                    no blob is deleted under a process that counts on it;
* `required_stored`  over every run along `Apart`: each required blob is in the store;
* `not_references_stored`  an upload session refers to a blob before it is there.

`capture_queue` is kept for its rows of operation `capture`: the others have no blobs.  Row locks are
left out, so there are more interleavings here than in the database.
-/

set_option linter.unusedSectionVars false

namespace Evidence

open Queue (Status)

/-! ## Rows -/

section
variable (ι ρ υ π : Type*)

/-- a row of `capture_artifacts` -/
structure ArtifactRow where
  tenantId : Text
  captureId : ι
  position : ℕ
  sourcePath : Text
  originalRef : ρ
  readableRef : ρ
  live : Bool
deriving DecidableEq

/-- a row of `upload_sessions`; `verified` is `verified_at IS NOT NULL` -/
structure UploadSession where
  id : υ
  actor : Text
  blobRef : ρ
  expiresAt : ℕ
  verified : Bool
  consumedBy : Option ι
deriving DecidableEq

/-- what the evidence of a capture depends on in its envelope; `sourcePath` is
`physical_path(layer, source_path(envelope))` -/
structure Envelope where
  captureId : ι
  tenantId : Text
  sourcePath : Text
  artifacts : List ρ
deriving DecidableEq

/-- a row of `capture_queue`; `extraction` holds the readable references -/
structure Item where
  envelope : Envelope ι ρ
  status : Status
  extraction : List ρ
deriving DecidableEq

structure Db where
  artifacts : List (ArtifactRow ι ρ)
  uploads : List (UploadSession ι ρ υ)
  queue : List (Item ι ρ)
  /-- `knowledge_changes.exact_patch_ref` -/
  patches : List ρ

structure ExtractedArtifact where
  original : ρ
  readable : ρ

/-- a submission: `capture_bytes` (no uploads), `finalize_upload_capture`, or the verification of the
uploads alone (no capture); `pending` are the uploads it found unverified -/
structure Submission where
  capture : Option (Envelope ι ρ)
  uploads : List υ
  pending : List (υ × ρ)
  mem_uploads : ∀ x ∈ pending, x.1 ∈ uploads

/-- where a process is -/
inductive Phase where
  | idle
  | storing (s : Submission ι ρ υ) (todo : List ρ)
  | verifying (s : Submission ι ρ υ) (e : Envelope ι ρ) (todo : List ρ)
  /-- the capture is queued already, or there is none -/
  | linking (s : Submission ι ρ υ)
  /-- inside `extract_capture`, of `_recover` when `recovery` -/
  | reading (e : Envelope ι ρ) (recovery : Bool) (todo : List ρ)
  | keeping (e : Envelope ι ρ) (recovery : Bool) (todo : List (ρ × Option ρ))
      (done : List (ExtractedArtifact ρ))
  | extracted (e : Envelope ι ρ) (all : List (ExtractedArtifact ρ))
  | recording (e : Envelope ι ρ) (position : ℕ) (todo : List (ExtractedArtifact ρ))
  | releasing (tenantId : Text) (paths : List Text) (candidates : List ρ)
  | checking (todo dead : List ρ)
  | collecting (dead : List ρ)
  | purging (ids : List υ) (todo : List ρ)
  | dropping (ids : List υ) (ref : ρ) (todo : List ρ)

/-- `issued` are the upload ids made so far: `uuid4` makes no id twice -/
structure World where
  store : List ρ
  db : Db ι ρ υ
  issued : List υ
  now : ℕ
  phase : π → Phase ι ρ υ

inductive Action where
  | tick (seconds : ℕ)
  | createUpload (id : υ) (actor : Text) (ref : ρ) (ttl : ℕ)
  /-- any other blob put -/
  | putOther (ref : ρ)
  | recordChange (ref : ρ)
  /-- claims, retries and failures: what the queue does with an item that has not landed -/
  | requeue (id : ι) (status : Status)
  | submit (p : π) (e : Envelope ι ρ)
  | finalize (p : π) (actor : Text) (ids : List υ) (capture : Option (ι × Text × Text))
  | put (p : π)
  | find (p : π)
  | verify (p : π)
  | commit (p : π)
  | claim (p : π) (id : ι) (recovery : Bool)
  | read (p : π)
  | extract (p : π) (results : List (Option ρ))
  | keep (p : π)
  | recordExtraction (p : π)
  | recordArtifact (p : π)
  | finish (p : π)
  | release (p : π) (tenantId : Text) (paths : List Text)
  | unlink (p : π)
  | check (p : π) (ref : ρ)
  | checked (p : π)
  | delete (p : π) (ref : ρ)
  | purge (p : π)
  | dropRows (p : π)
  /-- the process ends here: an exception, a crash, or nothing left to do -/
  | stop (p : π)

end

section
variable {ι ρ υ π : Type*} [DecidableEq ι] [DecidableEq ρ] [DecidableEq υ] [DecidableEq π]

/-! ## `capture/references.py` -/

def ArtifactRow.refs (a : ArtifactRow ι ρ) : List ρ := [a.originalRef, a.readableRef]

def ExtractedArtifact.refs (x : ExtractedArtifact ρ) : List ρ := [x.original, x.readable]

/-- `consumed_by IS NULL AND expires_at >= now()` -/
def UploadSession.isOpen (now : ℕ) (u : UploadSession ι ρ υ) : Bool :=
  u.consumedBy.isNone && decide (now ≤ u.expiresAt)

def Item.landed (q : Item ι ρ) : Bool := q.status == .landed

/-- `is_live`: the rows of every tenant, in one statement -/
def isLive (db : Db ι ρ υ) (now : ℕ) (ref : ρ) : Bool :=
  (db.artifacts.any fun a => a.live && (a.originalRef == ref || a.readableRef == ref)) ||
  (db.uploads.any fun u => u.isOpen now && u.blobRef == ref) ||
  (db.queue.any fun q => !q.landed && q.envelope.artifacts.contains ref) ||
  (db.queue.any fun q => !q.landed && q.extraction.contains ref) ||
  db.patches.contains ref

/-- the row holds the values one round of `record_capture` would insert -/
def ArtifactRow.agrees (e : Envelope ι ρ) (x : ExtractedArtifact ρ) (a : ArtifactRow ι ρ) : Bool :=
  a.sourcePath == e.sourcePath && a.originalRef == x.original && a.readableRef == x.readable

/-- one round of `record_capture`: the row is inserted, or the row of its key is live again if it
holds the same values; nothing when it holds others -/
def recordArtifact (rows : List (ArtifactRow ι ρ)) (e : Envelope ι ρ) (position : ℕ)
    (x : ExtractedArtifact ρ) : Option (List (ArtifactRow ι ρ)) :=
  match rows.find? fun a => a.captureId == e.captureId && a.position == position with
  | none => some (rows ++ [⟨e.tenantId, e.captureId, position, e.sourcePath, x.original,
      x.readable, true⟩])
  | some old =>
    if old.agrees e x then
      some (rows.map fun a => if a.captureId == e.captureId && a.position == position && a.agrees e x
        then { a with live := true } else a)
    else none

/-- the rows `release_sources` selects and updates -/
def ArtifactRow.ofSources (tenantId : Text) (paths : List Text) (a : ArtifactRow ι ρ) : Bool :=
  a.tenantId == tenantId && paths.contains a.sourcePath

def candidates (rows : List (ArtifactRow ι ρ)) (tenantId : Text) (paths : List Text) : List ρ :=
  ((rows.filter (ArtifactRow.ofSources tenantId paths)).flatMap ArtifactRow.refs).dedup

def releaseRows (rows : List (ArtifactRow ι ρ)) (tenantId : Text) (paths : List Text) :
    List (ArtifactRow ι ρ) :=
  rows.map fun a => if a.ofSources tenantId paths && a.live then { a with live := false } else a

/-! ## `capture/uploads.py` -/

def findUploads (uploads : List (UploadSession ι ρ υ)) (actor : Text) (ids : List υ) :
    List (UploadSession ι ρ υ) :=
  ids.filterMap fun id => uploads.find? fun u => u.id == id && u.actor == actor

theorem mem_findUploads {uploads : List (UploadSession ι ρ υ)} {actor : Text} {ids : List υ}
    {u : UploadSession ι ρ υ} (h : u ∈ findUploads uploads actor ids) : u ∈ uploads ∧ u.id ∈ ids := by
  obtain ⟨id, hid, hu⟩ := List.mem_filterMap.mp h
  have hkey := List.find?_some hu
  rw [Bool.and_eq_true, beq_iff_eq] at hkey
  exact ⟨List.mem_of_find?_eq_some hu, hkey.1 ▸ hid⟩

/-- the uploads whose bytes `finalize_uploads` has to promote -/
def unverified (sessions : List (UploadSession ι ρ υ)) : List (υ × ρ) :=
  (sessions.filter (!·.verified)).map fun u => (u.id, u.blobRef)

theorem mem_unverified {uploads : List (UploadSession ι ρ υ)} {actor : Text} {ids : List υ}
    {x : υ × ρ} (h : x ∈ unverified (findUploads uploads actor ids)) :
    (∃ u ∈ uploads, u.id = x.1 ∧ u.blobRef = x.2) ∧ x.1 ∈ ids := by
  obtain ⟨u, hu, rfl⟩ := List.mem_map.mp h
  obtain ⟨hu, hid⟩ := mem_findUploads (List.mem_filter.mp hu).1
  exact ⟨⟨u, hu, rfl, rfl⟩, hid⟩

/-- `expires_at <= now and not verified_at` -/
def UploadSession.expired (now : ℕ) (u : UploadSession ι ρ υ) : Bool :=
  decide (u.expiresAt ≤ now) && !u.verified

/-- `UPDATE upload_sessions SET verified_at = now()`; nothing when one of the rows is missing -/
def markVerified (uploads : List (UploadSession ι ρ υ)) (ids : List υ) :
    Option (List (UploadSession ι ρ υ)) :=
  if ids.all fun i => uploads.any fun u => u.id == i then
    some (uploads.map fun u => if u.id ∈ ids then { u with verified := true } else u)
  else none

def UploadSession.consumable (id : ι) (u : UploadSession ι ρ υ) : Bool :=
  u.verified && (u.consumedBy.isNone || u.consumedBy == some id)

/-- `consume_uploads`; nothing when one of the uploads cannot be linked -/
def consumeUploads (uploads : List (UploadSession ι ρ υ)) (ids : List υ) (id : ι) :
    Option (List (UploadSession ι ρ υ)) :=
  if ids.all fun i => uploads.any fun u => u.id == i && u.consumable id then
    some (uploads.map fun u =>
      if u.id ∈ ids ∧ u.consumable id then { u with consumedBy := some id } else u)
  else none

/-! ## The queue -/

def findCapture (queue : List (Item ι ρ)) (id : ι) : Option (Item ι ρ) :=
  queue.find? fun q => q.envelope.captureId == id

/-- `INSERT … ON CONFLICT DO NOTHING` -/
def enqueue (queue : List (Item ι ρ)) (e : Envelope ι ρ) : List (Item ι ρ) :=
  match findCapture queue e.captureId with
  | none => queue ++ [⟨e, .queued, []⟩]
  | some _ => queue

def updateItem (queue : List (Item ι ρ)) (id : ι) (f : Item ι ρ → Item ι ρ) : List (Item ι ρ) :=
  queue.map fun q => if q.envelope.captureId = id then f q else q

/-- the statements of `requeue`, on an item that has not landed -/
def Item.moveTo (status : Status) (q : Item ι ρ) : Item ι ρ :=
  if q.landed then q else { q with status := status }

/-- `finish_landed` -/
def Item.finish (q : Item ι ρ) : Item ι ρ :=
  if q.status = .processing then { q with status := .landed } else q

/-- what a submission writes when it commits: the verified uploads, then for a capture its row (unless
it was found) and the uploads it consumes -/
def Db.commit (db : Db ι ρ υ) (s : Submission ι ρ υ) (capture : Option (Envelope ι ρ)) (found : Bool) :
    Option (Db ι ρ υ) :=
  (markVerified db.uploads (s.pending.map Prod.fst)).bind fun verified =>
    match capture with
    | none => some { db with uploads := verified }
    | some e => (consumeUploads verified s.uploads e.captureId).map fun uploads =>
        { db with uploads := uploads, queue := if found then db.queue else enqueue db.queue e }

/-! ## References -/

/-- the blobs an item that has not landed refers to -/
def Item.refs (q : Item ι ρ) : List ρ :=
  if q.landed then [] else q.envelope.artifacts ++ q.extraction

/-- the blobs of live `capture_artifacts` rows and of items that have not landed -/
def Db.kept (db : Db ι ρ υ) : List ρ :=
  (db.artifacts.filter (·.live)).flatMap ArtifactRow.refs ++ db.queue.flatMap Item.refs

/-- every reference: `kept` and the blobs of unexpired unconsumed uploads -/
def references (db : Db ι ρ υ) (now : ℕ) : List ρ :=
  db.kept ++ (db.uploads.filter (·.isOpen now)).map (·.blobRef)

/-- the references whose bytes have been handed over: of the uploads, the verified ones -/
def required (db : Db ι ρ υ) (now : ℕ) : List ρ :=
  db.kept ++ (db.uploads.filter fun u => u.isOpen now && u.verified).map (·.blobRef)

/-! ## Processes -/

/-- the blobs a process has stored, verified or read and counts on until it has recorded them -/
def Phase.held : Phase ι ρ υ → List ρ
  | .storing s todo => if s.capture.isNone then (s.pending.map Prod.snd).filter (· ∉ todo) else []
  | .verifying _ e todo => e.artifacts.filter (· ∉ todo)
  | .linking s => if s.capture.isNone then s.pending.map Prod.snd else []
  | .reading e _ todo => e.artifacts.filter (· ∉ todo)
  | .keeping _ _ todo done => todo.map Prod.fst ++ done.flatMap ExtractedArtifact.refs
  | .extracted _ all => all.flatMap ExtractedArtifact.refs
  | .recording _ _ todo => todo.flatMap ExtractedArtifact.refs
  | .idle | .releasing _ _ _ | .checking _ _ | .collecting _ | .purging _ _ | .dropping _ _ _ => []

/-- the blobs a process has found unreferenced and is about to delete -/
def Phase.doomed : Phase ι ρ υ → List ρ
  | .checking _ dead | .collecting dead => dead
  | .dropping _ ref _ => [ref]
  | .idle | .storing _ _ | .verifying _ _ _ | .linking _ | .reading _ _ _ | .keeping _ _ _ _
  | .extracted _ _ | .recording _ _ _ | .releasing _ _ _ | .purging _ _ => []

/-- the uploads a process is to mark as verified -/
def Phase.pending : Phase ι ρ υ → List (υ × ρ)
  | .storing s _ | .verifying s _ _ | .linking s => s.pending
  | .idle | .reading _ _ _ | .keeping _ _ _ _ | .extracted _ _ | .recording _ _ _
  | .releasing _ _ _ | .checking _ _ | .collecting _ | .purging _ _ | .dropping _ _ _ => []

def World.goto (w : World ι ρ υ π) (p : π) (f : Phase ι ρ υ) : World ι ρ υ π :=
  { w with phase := Function.update w.phase p f }

def World.put (w : World ι ρ υ π) (ref : ρ) : World ι ρ υ π :=
  { w with store := w.store.insert ref }

def World.withQueue (w : World ι ρ υ π) (queue : List (Item ι ρ)) : World ι ρ υ π :=
  { w with db := { w.db with queue := queue } }

def World.withArtifacts (w : World ι ρ υ π) (rows : List (ArtifactRow ι ρ)) : World ι ρ υ π :=
  { w with db := { w.db with artifacts := rows } }

def World.withUploads (w : World ι ρ υ π) (uploads : List (UploadSession ι ρ υ)) : World ι ρ υ π :=
  { w with db := { w.db with uploads := uploads } }

/-- `finalize_uploads` after its select, for a capture or none; nothing when it refuses -/
def World.finalize (w : World ι ρ υ π) (actor : Text) (ids : List υ)
    (capture : Option (ι × Text × Text)) : Option (Submission ι ρ υ) :=
  let sessions := findUploads w.db.uploads actor ids
  if ids ≠ [] ∧ ids.Nodup ∧ sessions.length = ids.length ∧
      ¬sessions.any (UploadSession.expired w.now) then
    some {
      capture := capture.map fun c => ⟨c.1, c.2.1, c.2.2, sessions.map (·.blobRef)⟩
      uploads := ids
      pending := unverified sessions
      mem_uploads := fun x hx => (mem_unverified hx).2 }
  else none

/-- `_queue_envelope` up to its loop: the capture is looked up again -/
def Submission.find (s : Submission ι ρ υ) (queue : List (Item ι ρ)) : Phase ι ρ υ :=
  match s.capture with
  | none => .linking s
  | some e => if (findCapture queue e.captureId).isSome then
      (if s.uploads = [] then .idle else .linking s)
    else .verifying s e e.artifacts

def step (w : World ι ρ υ π) : Action ι ρ υ π → Option (World ι ρ υ π)
  | .tick seconds => some { w with now := w.now + seconds }
  | .createUpload id actor ref ttl =>
    if id ∈ w.issued then none
    else some { w.withUploads (w.db.uploads ++ [⟨id, actor, ref, w.now + ttl, false, none⟩]) with
      issued := id :: w.issued }
  | .putOther ref => some (w.put ref)
  | .recordChange ref => some { w with db := { w.db with patches := ref :: w.db.patches } }
  | .requeue id status =>
    if status = .landed then none
    else some (w.withQueue (updateItem w.db.queue id (Item.moveTo status)))
  | .submit p e =>
    match w.phase p with
    | .idle =>
      if (findCapture w.db.queue e.captureId).isSome then some w
      else some (w.goto p (.storing ⟨some e, [], [], fun _ h => absurd h List.not_mem_nil⟩ e.artifacts))
    | _ => none
  | .finalize p actor ids capture =>
    match w.phase p with
    | .idle => (w.finalize actor ids capture).map fun s =>
        w.goto p (.storing s (s.pending.map Prod.snd))
    | _ => none
  | .put p =>
    match w.phase p with
    | .storing s (ref :: todo) => some ((w.put ref).goto p (.storing s todo))
    | _ => none
  | .find p =>
    match w.phase p with
    | .storing s [] => some (w.goto p (s.find w.db.queue))
    | _ => none
  | .verify p =>
    match w.phase p with
    | .verifying s e (ref :: todo) =>
      some (w.goto p (if ref ∈ w.store then .verifying s e todo else .idle))
    | _ => none
  | .commit p =>
    match w.phase p with
    | .verifying s e [] => (w.db.commit s (some e) false).map fun db => { w with db := db }.goto p .idle
    | .linking s => (w.db.commit s s.capture true).map fun db => { w with db := db }.goto p .idle
    | _ => none
  | .claim p id recovery =>
    match w.phase p, findCapture w.db.queue id with
    | .idle, some q =>
      if q.status = .processing then
        some (w.goto p (.reading q.envelope recovery q.envelope.artifacts))
      else none
    | _, _ => none
  | .read p =>
    match w.phase p with
    | .reading e recovery (ref :: todo) =>
      some (w.goto p (if ref ∈ w.store then .reading e recovery todo else .idle))
    | _ => none
  | .extract p results =>
    match w.phase p with
    | .reading e recovery [] =>
      if results.length = e.artifacts.length then
        some (w.goto p (.keeping e recovery (e.artifacts.zip results) []))
      else none
    | _ => none
  | .keep p =>
    match w.phase p with
    | .keeping e recovery ((original, none) :: todo) done =>
      some (w.goto p (.keeping e recovery todo (done ++ [⟨original, original⟩])))
    | .keeping e recovery ((original, some readable) :: todo) done =>
      some ((w.put readable).goto p (.keeping e recovery todo (done ++ [⟨original, readable⟩])))
    | .keeping e recovery [] done =>
      some (w.goto p (if recovery then .recording e 1 done else .extracted e done))
    | _ => none
  | .recordExtraction p =>
    match w.phase p with
    | .extracted e all => some ((w.withQueue (updateItem w.db.queue e.captureId fun q =>
        { q with extraction := all.map (·.readable) })).goto p (.recording e 1 all))
    | _ => none
  | .recordArtifact p =>
    match w.phase p with
    | .recording e position (x :: todo) =>
      match recordArtifact w.db.artifacts e position x with
      | some rows => some ((w.withArtifacts rows).goto p (.recording e (position + 1) todo))
      | none => some (w.goto p .idle)
    | _ => none
  | .finish p =>
    match w.phase p with
    | .recording e _ [] =>
      some ((w.withQueue (updateItem w.db.queue e.captureId Item.finish)).goto p .idle)
    | _ => none
  | .release p tenantId paths =>
    match w.phase p with
    | .idle => some (w.goto p (.releasing tenantId paths (candidates w.db.artifacts tenantId paths)))
    | _ => none
  | .unlink p =>
    match w.phase p with
    | .releasing tenantId paths todo =>
      some ((w.withArtifacts (releaseRows w.db.artifacts tenantId paths)).goto p (.checking todo []))
    | _ => none
  | .check p ref =>
    match w.phase p with
    | .checking todo dead =>
      if ref ∈ todo then some (w.goto p (.checking (todo.erase ref)
        (if isLive w.db w.now ref then dead else ref :: dead)))
      else none
    | .purging ids todo =>
      if ref ∈ todo then some (w.goto p (if isLive w.db w.now ref then .purging ids (todo.erase ref)
        else .dropping ids ref (todo.erase ref)))
      else none
    | _ => none
  | .checked p =>
    match w.phase p with
    | .checking [] dead => some (w.goto p (.collecting dead))
    | _ => none
  | .delete p ref =>
    match w.phase p with
    | .collecting dead =>
      if ref ∈ dead then
        some ({ w with store := w.store.filter (· ≠ ref) }.goto p (.collecting (dead.erase ref)))
      else none
    | .dropping ids r todo =>
      if ref = r then
        some ({ w with store := w.store.filter (· ≠ ref) }.goto p (.purging ids todo))
      else none
    | _ => none
  | .purge p =>
    match w.phase p with
    | .idle =>
      let rows := w.db.uploads.filter fun u => decide (u.expiresAt < w.now)
      some (w.goto p (.purging (rows.map (·.id)) (rows.map (·.blobRef)).dedup))
    | _ => none
  | .dropRows p =>
    match w.phase p with
    | .purging ids [] =>
      some ((w.withUploads (w.db.uploads.filter fun u => u.id ∉ ids)).goto p .idle)
    | _ => none
  | .stop p => some (w.goto p .idle)

/-- no reference to a blob is recorded while a process that found it unreferenced has not deleted it
yet, and no blob is deleted while a process counts on it -/
structure Apart (w : World ι ρ υ π) (a : Action ι ρ υ π) : Prop where
  recorded : ∀ w', step w a = some w' → ∀ ref ∈ required w'.db w'.now,
    ref ∉ required w.db w.now → ∀ p, ref ∉ (w.phase p).doomed
  deleted : ∀ w', step w a = some w' → ∀ ref ∈ w.store, ref ∉ w'.store → ∀ p, ref ∉ (w.phase p).held

/-! ## What the statements write -/

theorem mem_kept {db : Db ι ρ υ} {ref : ρ} : ref ∈ db.kept ↔
    (∃ a ∈ db.artifacts, a.live = true ∧ ref ∈ a.refs) ∨ ∃ q ∈ db.queue, ref ∈ q.refs := by
  simp only [Db.kept, List.mem_append, List.mem_flatMap, List.mem_filter, and_assoc]

theorem mem_required {db : Db ι ρ υ} {now : ℕ} {ref : ρ} : ref ∈ required db now ↔
    ref ∈ db.kept ∨ ∃ u ∈ db.uploads, u.isOpen now = true ∧ u.verified = true ∧ u.blobRef = ref := by
  simp only [required, List.mem_append, List.mem_map, List.mem_filter, Bool.and_eq_true, and_assoc]

/-- the query answers for every reference -/
theorem isLive_of_required {db : Db ι ρ υ} {now : ℕ} {ref : ρ} (h : ref ∈ required db now) :
    isLive db now ref = true := by
  simp only [isLive, Bool.or_eq_true, List.any_eq_true, Bool.and_eq_true, beq_iff_eq,
    Bool.not_eq_true', List.contains_iff_mem]
  rcases mem_required.mp h with h | ⟨u, hu, hopen, -, rfl⟩
  · rcases mem_kept.mp h with ⟨a, ha, hlive, hr⟩ | ⟨q, hq, hr⟩
    · rw [ArtifactRow.refs, List.mem_pair] at hr
      exact Or.inl (Or.inl (Or.inl (Or.inl ⟨a, ha, hlive, hr.imp Eq.symm Eq.symm⟩)))
    · rw [Item.refs] at hr
      split at hr
      · exact absurd hr List.not_mem_nil
      · next hl =>
        rw [Bool.not_eq_true] at hl
        rcases List.mem_append.mp hr with hr | hr
        · exact Or.inl (Or.inl (Or.inr ⟨q, hq, hl, hr⟩))
        · exact Or.inl (Or.inr ⟨q, hq, hl, hr⟩)
  · exact Or.inl (Or.inl (Or.inl (Or.inr ⟨u, hu, hopen, rfl⟩)))

theorem required_of_le {db : Db ι ρ υ} {now later : ℕ} (hle : now ≤ later) {ref : ρ}
    (h : ref ∈ required db later) : ref ∈ required db now := by
  rw [mem_required] at h ⊢
  refine h.imp_right ?_
  rintro ⟨u, hu, hopen, h⟩
  rw [UploadSession.isOpen, Bool.and_eq_true, decide_eq_true_eq] at hopen
  refine ⟨u, hu, ?_, h⟩
  rw [UploadSession.isOpen, Bool.and_eq_true, decide_eq_true_eq]
  exact ⟨hopen.1, hle.trans hopen.2⟩

/-- rows of which each was there before, with the same id and the same bytes -/
def Derived (uploads old : List (UploadSession ι ρ υ)) : Prop :=
  ∀ u ∈ uploads, ∃ v ∈ old, v.id = u.id ∧ v.blobRef = u.blobRef

theorem Derived.refl (uploads : List (UploadSession ι ρ υ)) : Derived uploads uploads :=
  fun u hu => ⟨u, hu, rfl, rfl⟩

theorem markVerified_spec {uploads verified : List (UploadSession ι ρ υ)} {ids : List υ}
    (h : markVerified uploads ids = some verified) : ∀ u' ∈ verified, ∃ u ∈ uploads,
      u.id = u'.id ∧ u.blobRef = u'.blobRef ∧ u.expiresAt = u'.expiresAt ∧
      u.consumedBy = u'.consumedBy ∧ (u'.verified = true → u.verified = true ∨ u.id ∈ ids) := by
  rw [markVerified] at h
  split at h
  · obtain rfl := Option.some.inj h
    intro u' hu'
    obtain ⟨u, hu, rfl⟩ := List.mem_map.mp hu'
    refine ⟨u, hu, ?_⟩
    split
    · next hid => exact ⟨rfl, rfl, rfl, rfl, fun _ => Or.inr hid⟩
    · exact ⟨rfl, rfl, rfl, rfl, Or.inl⟩
  · exact nomatch h

theorem consumeUploads_spec {uploads consumed : List (UploadSession ι ρ υ)} {ids : List υ} {id : ι}
    (h : consumeUploads uploads ids id = some consumed) : ∀ u' ∈ consumed, ∃ u ∈ uploads,
      u.id = u'.id ∧ u.blobRef = u'.blobRef ∧ u.expiresAt = u'.expiresAt ∧
      u.verified = u'.verified ∧
      (u'.consumedBy = none → u.consumedBy = none ∧ (u.verified = true → u.id ∉ ids)) := by
  rw [consumeUploads] at h
  split at h
  · obtain rfl := Option.some.inj h
    intro u' hu'
    obtain ⟨u, hu, rfl⟩ := List.mem_map.mp hu'
    refine ⟨u, hu, ?_⟩
    split
    · exact ⟨rfl, rfl, rfl, rfl, fun hn => nomatch hn⟩
    · next hcon =>
      refine ⟨rfl, rfl, rfl, rfl, fun hn => ⟨hn, fun hv hid => hcon ⟨hid, ?_⟩⟩⟩
      rw [UploadSession.consumable, hv, hn]
      rfl
  · exact nomatch h

theorem mem_refs_updateItem {queue : List (Item ι ρ)} {id : ι} {f : Item ι ρ → Item ι ρ} {ref : ρ}
    (h : ∃ q ∈ updateItem queue id f, ref ∈ q.refs) :
    (∃ q ∈ queue, ref ∈ q.refs) ∨ ∃ q ∈ queue, ref ∈ (f q).refs := by
  obtain ⟨q', hq', hr⟩ := h
  obtain ⟨q, hq, rfl⟩ := List.mem_map.mp hq'
  split at hr
  · exact Or.inr ⟨q, hq, hr⟩
  · exact Or.inl ⟨q, hq, hr⟩

theorem mem_refs_enqueue {queue : List (Item ι ρ)} {e : Envelope ι ρ} {ref : ρ}
    (h : ∃ q ∈ enqueue queue e, ref ∈ q.refs) : (∃ q ∈ queue, ref ∈ q.refs) ∨ ref ∈ e.artifacts := by
  obtain ⟨q, hq, hr⟩ := h
  rw [enqueue] at hq
  split at hq
  · rcases List.mem_append.mp hq with hq | hq
    · exact Or.inl ⟨q, hq, hr⟩
    · rw [List.mem_singleton.mp hq] at hr
      exact Or.inr (by simpa [Item.refs, Item.landed] using hr)
  · exact Or.inl ⟨q, hq, hr⟩

theorem recordArtifact_spec {rows rows' : List (ArtifactRow ι ρ)} {e : Envelope ι ρ} {n : ℕ}
    {x : ExtractedArtifact ρ} (h : recordArtifact rows e n x = some rows') :
    ∀ a ∈ rows', a.live = true → (∃ b ∈ rows, b.live = true ∧ b.refs = a.refs) ∨ a.refs = x.refs := by
  rw [recordArtifact] at h
  split at h
  · obtain rfl := Option.some.inj h
    intro a ha hlive
    rcases List.mem_append.mp ha with ha | ha
    · exact Or.inl ⟨a, ha, hlive, rfl⟩
    · rw [List.mem_singleton.mp ha]
      exact Or.inr rfl
  · split at h
    · obtain rfl := Option.some.inj h
      intro a ha hlive
      obtain ⟨b, hb, rfl⟩ := List.mem_map.mp ha
      split at hlive
      · next hkey =>
        rw [if_pos hkey]
        simp only [Bool.and_eq_true, ArtifactRow.agrees, beq_iff_eq] at hkey
        refine Or.inr ?_
        rw [ArtifactRow.refs, ExtractedArtifact.refs, hkey.2.1.2, hkey.2.2]
      · next hkey =>
        rw [if_neg hkey]
        exact Or.inl ⟨b, hb, hlive, rfl⟩
    · exact nomatch h

theorem commit_spec {db db' : Db ι ρ υ} {s : Submission ι ρ υ} {capture : Option (Envelope ι ρ)}
    {found : Bool} (h : db.commit s capture found = some db') :
    Derived db'.uploads db.uploads ∧ db'.artifacts = db.artifacts ∧
      (db'.queue = db.queue ∨ ∃ e, capture = some e ∧ found = false ∧
        db'.queue = enqueue db.queue e) ∧
      ∀ u' ∈ db'.uploads, u'.verified = true → u'.consumedBy = none → ∃ u ∈ db.uploads,
        u.blobRef = u'.blobRef ∧ u.expiresAt = u'.expiresAt ∧ u.consumedBy = none ∧
        (u.verified = true ∨ (capture = none ∧ u.id ∈ s.pending.map Prod.fst)) := by
  obtain ⟨verified, hv, h⟩ := Option.bind_eq_some_iff.mp h
  have hver := markVerified_spec hv
  cases capture with
  | none =>
    obtain rfl := Option.some.inj h
    refine ⟨fun u' hu' => ?_, rfl, Or.inl rfl, fun u' hu' hverified hnone => ?_⟩
    · obtain ⟨u, hu, hid, hblob, -⟩ := hver u' hu'
      exact ⟨u, hu, hid, hblob⟩
    · obtain ⟨u, hu, -, hblob, hexp, hcon, hor⟩ := hver u' hu'
      exact ⟨u, hu, hblob, hexp, hcon.trans hnone, (hor hverified).imp_right fun hid => ⟨rfl, hid⟩⟩
  | some e =>
    obtain ⟨consumed, hc, rfl⟩ := Option.map_eq_some_iff.mp h
    have hcons := consumeUploads_spec hc
    refine ⟨fun u' hu' => ?_, rfl, ?_, fun u' hu' hverified hnone => ?_⟩
    · obtain ⟨v, hv, hid, hblob, -⟩ := hcons u' hu'
      obtain ⟨u, hu, hid', hblob', -⟩ := hver v hv
      exact ⟨u, hu, hid'.trans hid, hblob'.trans hblob⟩
    · cases found with
      | true => exact Or.inl rfl
      | false => exact Or.inr ⟨e, rfl, rfl, rfl⟩
    · obtain ⟨v, hv, -, hblob, hexp, hsame, hopen⟩ := hcons u' hu'
      obtain ⟨hvnone, hout⟩ := hopen hnone
      obtain ⟨u, hu, hid, hblob', hexp', hcon, hor⟩ := hver v hv
      refine ⟨u, hu, hblob'.trans hblob, hexp'.trans hexp, hcon.trans hvnone, ?_⟩
      -- the uploads just verified are consumed in the same transaction
      rcases hor (hsame.trans hverified) with hver | hmem
      · exact Or.inl hver
      · obtain ⟨x, hx, hxid⟩ := List.mem_map.mp hmem
        exact absurd (hid ▸ hxid ▸ s.mem_uploads x hx) (hout (hsame.trans hverified))

theorem required_commit {db db' : Db ι ρ υ} {s : Submission ι ρ υ} {capture : Option (Envelope ι ρ)}
    {found : Bool} (h : db.commit s capture found = some db') {now : ℕ} {ref : ρ}
    (hr : ref ∈ required db' now) : ref ∈ required db now ∨
      (∃ e, capture = some e ∧ found = false ∧ ref ∈ e.artifacts) ∨
      (capture = none ∧ ∃ u ∈ db.uploads, u.blobRef = ref ∧ u.id ∈ s.pending.map Prod.fst) := by
  obtain ⟨-, hrows, hqueue, huploads⟩ := commit_spec h
  rcases mem_required.mp hr with hr | ⟨u', hu', hopen, hverified, rfl⟩
  · rcases mem_kept.mp hr with hr | hr
    · rw [hrows] at hr
      exact Or.inl (mem_required.mpr (Or.inl (mem_kept.mpr (Or.inl hr))))
    · rcases hqueue with hq | ⟨e, rfl, rfl, hq⟩
      · rw [hq] at hr
        exact Or.inl (mem_required.mpr (Or.inl (mem_kept.mpr (Or.inr hr))))
      · rw [hq] at hr
        rcases mem_refs_enqueue hr with hr | hr
        · exact Or.inl (mem_required.mpr (Or.inl (mem_kept.mpr (Or.inr hr))))
        · exact Or.inr (Or.inl ⟨e, rfl, rfl, hr⟩)
  · rw [UploadSession.isOpen, Bool.and_eq_true, Option.isNone_iff_eq_none] at hopen
    obtain ⟨u, hu, hblob, hexp, hnone, hor⟩ := huploads u' hu' hverified hopen.1
    rcases hor with hver | ⟨hcap, hid⟩
    · refine Or.inl (mem_required.mpr (Or.inr ⟨u, hu, ?_, hver, hblob⟩))
      rw [UploadSession.isOpen, hnone, hexp]
      exact hopen.2
    · exact Or.inr (Or.inr ⟨hcap, u, hu, hblob, hid⟩)

/-! ## The invariant -/

/-- what is known of the sessions: an id is made once, and stands for one blob -/
structure Sessions (w : World ι ρ υ π) : Prop where
  issued : ∀ u ∈ w.db.uploads, u.id ∈ w.issued
  same : ∀ u ∈ w.db.uploads, ∀ v ∈ w.db.uploads, u.id = v.id → u.blobRef = v.blobRef
  pending : ∀ p, ∀ x ∈ (w.phase p).pending, x.1 ∈ w.issued ∧
    ∀ u ∈ w.db.uploads, u.id = x.1 → u.blobRef = x.2

structure Inv (w : World ι ρ υ π) : Prop where
  sessions : Sessions w
  stored : ∀ ref ∈ required w.db w.now, ref ∈ w.store
  held : ∀ p, ∀ ref ∈ (w.phase p).held, ref ∈ w.store
  doomed : ∀ p, ∀ ref ∈ (w.phase p).doomed, ref ∉ required w.db w.now

/-- nothing recorded has been found unreferenced by a process that has not deleted it yet -/
def Recorded (w w' : World ι ρ υ π) : Prop :=
  ∀ ref ∈ required w'.db w'.now, ref ∉ required w.db w.now → ∀ p, ref ∉ (w.phase p).doomed

theorem Recorded.doomed {w w' : World ι ρ υ π} (hr : Recorded w w') (h : Inv w) {p : π} {ref : ρ}
    (hd : ref ∈ (w.phase p).doomed) : ref ∉ required w'.db w'.now := by
  intro hreq
  exact hr ref hreq (h.doomed p ref hd) p hd

/-- a step of one process that deletes nothing -/
theorem Inv.move {w w' : World ι ρ υ π} (h : Inv w) {p : π} {f : Phase ι ρ υ}
    (hphase : w'.phase = Function.update w.phase p f) (hissued : w'.issued = w.issued)
    (huploads : Derived w'.db.uploads w.db.uploads) (hstore : ∀ ref ∈ w.store, ref ∈ w'.store)
    (hrec : Recorded w w')
    (hreq : ∀ ref ∈ required w'.db w'.now, ref ∈ required w.db w.now ∨ ref ∈ (w.phase p).held)
    (hheld : ∀ ref ∈ f.held, ref ∈ w'.store) (hdoomed : ∀ ref ∈ f.doomed, ref ∉ required w'.db w'.now)
    (hpending : ∀ x ∈ f.pending, x ∈ (w.phase p).pending ∨
      ∃ u ∈ w.db.uploads, u.id = x.1 ∧ u.blobRef = x.2) : Inv w' := by
  have hback : ∀ u ∈ w'.db.uploads, ∀ v ∈ w.db.uploads, u.id = v.id → u.blobRef = v.blobRef := by
    intro u hu v hv huv
    obtain ⟨u₀, hu₀, hid, hblob⟩ := huploads u hu
    rw [← hblob]
    exact h.sessions.same u₀ hu₀ v hv (hid.trans huv)
  refine ⟨⟨fun u hu => ?_, fun u hu v hv huv => ?_, fun q x hx => ?_⟩, fun ref hr => ?_,
    fun q ref hr => ?_, fun q ref hr => ?_⟩
  · obtain ⟨u₀, hu₀, hid, -⟩ := huploads u hu
    rw [hissued, ← hid]
    exact h.sessions.issued u₀ hu₀
  · obtain ⟨v₀, hv₀, hid, hblob⟩ := huploads v hv
    rw [← hblob]
    exact hback u hu v₀ hv₀ (huv.trans hid.symm)
  · have hknown : x.1 ∈ w.issued ∧ ∀ u ∈ w.db.uploads, u.id = x.1 → u.blobRef = x.2 := by
      rw [hphase] at hx
      rcases eq_or_ne q p with rfl | hne
      · rw [Function.update_self] at hx
        rcases hpending x hx with hx | ⟨u, hu, hid, hblob⟩
        · exact h.sessions.pending q x hx
        · rw [← hid, ← hblob]
          exact ⟨h.sessions.issued u hu, fun v hv hvu => h.sessions.same v hv u hu hvu⟩
      · rw [Function.update_of_ne hne] at hx
        exact h.sessions.pending q x hx
    refine ⟨hissued ▸ hknown.1, fun u hu hid => ?_⟩
    obtain ⟨u₀, hu₀, hid₀, hblob⟩ := huploads u hu
    rw [← hblob]
    exact hknown.2 u₀ hu₀ (hid₀.trans hid)
  · rcases hreq ref hr with hr | hr
    · exact hstore ref (h.stored ref hr)
    · exact hstore ref (h.held p ref hr)
  · rw [hphase] at hr
    rcases eq_or_ne q p with rfl | hne
    · rw [Function.update_self] at hr
      exact hheld ref hr
    · rw [Function.update_of_ne hne] at hr
      exact hstore ref (h.held q ref hr)
  · rw [hphase] at hr
    rcases eq_or_ne q p with rfl | hne
    · rw [Function.update_self] at hr
      exact hdoomed ref hr
    · rw [Function.update_of_ne hne] at hr
      exact hrec.doomed h hr

/-- a step of one process that leaves the rows and the store as they are -/
theorem Inv.goto {w : World ι ρ υ π} (h : Inv w) {p : π} {f : Phase ι ρ υ}
    (hheld : ∀ ref ∈ f.held, ref ∈ w.store) (hdoomed : ∀ ref ∈ f.doomed, ref ∉ required w.db w.now)
    (hpending : ∀ x ∈ f.pending, x ∈ (w.phase p).pending ∨
      ∃ u ∈ w.db.uploads, u.id = x.1 ∧ u.blobRef = x.2) : Inv (w.goto p f) :=
  h.move rfl rfl (Derived.refl _) (fun _ hr => hr) (fun _ hr hn => absurd hr hn) (fun _ hr => Or.inl hr)
    hheld hdoomed hpending

/-- a step to a phase that counts on nothing -/
theorem Inv.rest {w : World ι ρ υ π} (h : Inv w) {p : π} {f : Phase ι ρ υ} (hheld : f.held = [])
    (hdoomed : f.doomed = []) (hpending : f.pending = []) : Inv (w.goto p f) :=
  h.goto (fun _ hr => absurd (hheld ▸ hr) List.not_mem_nil)
    (fun _ hr => absurd (hdoomed ▸ hr) List.not_mem_nil)
    (fun _ hx => absurd (hpending ▸ hx) List.not_mem_nil)

theorem Inv.put {w : World ι ρ υ π} (h : Inv w) (ref : ρ) : Inv (w.put ref) :=
  ⟨⟨h.sessions.issued, h.sessions.same, h.sessions.pending⟩,
    fun r hr => List.mem_insert_of_mem (h.stored r hr),
    fun p r hr => List.mem_insert_of_mem (h.held p r hr), h.doomed⟩

theorem Inv.commit {w : World ι ρ υ π} (h : Inv w) {p : π} {s : Submission ι ρ υ}
    {capture : Option (Envelope ι ρ)} {found : Bool} {db : Db ι ρ υ}
    (hc : w.db.commit s capture found = some db) (hrec : Recorded w { w with db := db })
    (hs : (w.phase p).pending = s.pending)
    (hqueued : ∀ e, capture = some e → found = false → ∀ ref ∈ e.artifacts, ref ∈ (w.phase p).held)
    (hverified : capture = none → ∀ ref ∈ s.pending.map Prod.snd, ref ∈ (w.phase p).held) :
    Inv ({ w with db := db }.goto p .idle) := by
  refine h.move rfl rfl (commit_spec hc).1 (fun _ hr => hr) hrec (fun ref hr => ?_)
    (fun _ hr => absurd hr List.not_mem_nil) (fun _ hr => absurd hr List.not_mem_nil)
    (fun _ hx => absurd hx List.not_mem_nil)
  rcases required_commit hc hr with hr | ⟨e, he, hf, hr⟩ | ⟨hn, u, hu, rfl, hid⟩
  · exact Or.inl hr
  · exact Or.inr (hqueued e he hf ref hr)
  · obtain ⟨x, hx, hxu⟩ := List.mem_map.mp hid
    have hblob := (h.sessions.pending p x (hs ▸ hx)).2 u hu hxu.symm
    exact Or.inr (hverified hn _ (List.mem_map.mpr ⟨x, hx, hblob.symm⟩))

/-- a statement on the queue and the artifacts, by a process that does not touch the sessions -/
theorem Inv.rows {w : World ι ρ υ π} (h : Inv w) {p : π} {f : Phase ι ρ υ} {db : Db ι ρ υ}
    (hrec : Recorded w { w with db := db }) (huploads : db.uploads = w.db.uploads)
    (hkept : ∀ ref ∈ db.kept, ref ∈ w.db.kept ∨ ref ∈ (w.phase p).held)
    (hheld : ∀ ref ∈ f.held, ref ∈ (w.phase p).held) (hdoomed : f.doomed = []) (hpending : f.pending = []) :
    Inv ({ w with db := db }.goto p f) := by
  refine h.move rfl rfl ?_ (fun _ hr => hr) hrec (fun ref hr => ?_)
    (fun ref hr => h.held p ref (hheld ref hr)) (fun _ hr => absurd (hdoomed ▸ hr) List.not_mem_nil)
    (fun _ hx => absurd (hpending ▸ hx) List.not_mem_nil)
  · show Derived db.uploads w.db.uploads
    rw [huploads]
    exact Derived.refl _
  · change ref ∈ required db w.now at hr
    rw [mem_required, huploads] at hr
    rw [mem_required]
    rcases hr with hr | hr
    · exact (hkept ref hr).imp_left Or.inl
    · exact Or.inl (Or.inr hr)

theorem Inv.delete {w : World ι ρ υ π} (h : Inv w) {p : π} {f : Phase ι ρ υ} {ref : ρ}
    (hkept : ref ∈ w.store → ∀ q, ref ∉ (w.phase q).held) (hd : ref ∈ (w.phase p).doomed)
    (hheld : f.held = []) (hdoomed : ∀ r ∈ f.doomed, r ∈ (w.phase p).doomed) (hpending : f.pending = []) :
    Inv ({ w with store := w.store.filter (· ≠ ref) }.goto p f) := by
  have hstay : ∀ r ∈ w.store, r ≠ ref → r ∈ w.store.filter (· ≠ ref) := by
    intro r hr hne
    exact List.mem_filter.mpr ⟨hr, decide_eq_true hne⟩
  have hset : Inv { w with store := w.store.filter (· ≠ ref) } := by
    refine ⟨⟨h.sessions.issued, h.sessions.same, h.sessions.pending⟩, fun r hr => ?_, fun q r hr => ?_,
      h.doomed⟩
    · refine hstay r (h.stored r hr) ?_
      rintro rfl
      exact h.doomed p r hd hr
    · refine hstay r (h.held q r hr) ?_
      rintro rfl
      exact hkept (h.held q r hr) q hr
  exact hset.goto (fun _ hr => absurd (hheld ▸ hr) List.not_mem_nil)
    (fun r hr => h.doomed p r (hdoomed r hr)) (fun _ hx => absurd (hpending ▸ hx) List.not_mem_nil)

/-! ## Steps -/

theorem mem_done {l todo : List ρ} {r ref : ρ} (h : ref ∈ l.filter (· ∉ todo)) :
    ref = r ∨ ref ∈ l.filter (· ∉ r :: todo) := by
  rw [List.mem_filter, decide_eq_true_eq] at h
  by_cases hr : ref = r
  · exact Or.inl hr
  · refine Or.inr (List.mem_filter.mpr ⟨h.1, decide_eq_true ?_⟩)
    exact fun hm => (List.mem_cons.mp hm).elim hr h.2

theorem filter_start (l : List ρ) : l.filter (· ∉ l) = [] := by
  refine List.filter_eq_nil_iff.mpr fun ref hr => ?_
  rw [decide_eq_true_eq]
  exact fun h => h hr

theorem World.finalize_pending {w : World ι ρ υ π} {actor : Text} {ids : List υ}
    {capture : Option (ι × Text × Text)} {s : Submission ι ρ υ}
    (h : w.finalize actor ids capture = some s) :
    ∀ x ∈ s.pending, ∃ u ∈ w.db.uploads, u.id = x.1 ∧ u.blobRef = x.2 := by
  rw [World.finalize] at h
  split at h
  · obtain rfl := Option.some.inj h
    exact fun x hx => (mem_unverified hx).1
  · exact nomatch h

theorem Item.refs_moveTo {q : Item ι ρ} {status : Status} (hs : status ≠ .landed) :
    (q.moveTo status).refs = q.refs := by
  rw [Item.moveTo]
  split
  · rfl
  · next hl =>
    have hnew : ({ q with status := status } : Item ι ρ).landed = false := beq_false_of_ne hs
    rw [Item.refs, Item.refs, hnew, (Bool.not_eq_true _).mp hl]

theorem Item.refs_finish {q : Item ι ρ} {ref : ρ} (h : ref ∈ q.finish.refs) : ref ∈ q.refs := by
  rw [Item.finish] at h
  split at h
  · exact absurd h List.not_mem_nil
  · exact h

/-- a statement that changes the queue or time, by nobody in particular -/
theorem Inv.background {w w' : World ι ρ υ π} (h : Inv w) (hphase : w'.phase = w.phase)
    (hissued : w'.issued = w.issued) (huploads : w'.db.uploads = w.db.uploads)
    (hstore : w'.store = w.store) (hreq : ∀ ref ∈ required w'.db w'.now, ref ∈ required w.db w.now) :
    Inv w' := by
  refine ⟨⟨?_, ?_, ?_⟩, fun ref hr => hstore ▸ h.stored ref (hreq ref hr), ?_, ?_⟩
  · rw [huploads, hissued]
    exact h.sessions.issued
  · rw [huploads]
    exact h.sessions.same
  · rw [huploads, hissued, hphase]
    exact h.sessions.pending
  · rw [hphase, hstore]
    exact h.held
  · rw [hphase]
    exact fun p ref hd hr => h.doomed p ref hd (hreq ref hr)

theorem Inv.createUpload {w : World ι ρ υ π} (h : Inv w) {u : UploadSession ι ρ υ}
    (hu : u.verified = false) (hnew : u.id ∉ w.issued) :
    Inv { w.withUploads (w.db.uploads ++ [u]) with issued := u.id :: w.issued } := by
  have hreq : ∀ ref ∈ required { w.db with uploads := w.db.uploads ++ [u] } w.now,
      ref ∈ required w.db w.now := by
    intro ref hr
    rw [mem_required] at hr ⊢
    rcases hr with hr | ⟨v, hv, hopen, hver, rfl⟩
    · exact Or.inl hr
    · rcases List.mem_append.mp hv with hv | hv
      · exact Or.inr ⟨v, hv, hopen, hver, rfl⟩
      · rw [List.mem_singleton.mp hv, hu] at hver
        exact nomatch hver
  have hold : ∀ v ∈ w.db.uploads, v.id ≠ u.id := fun v hv hid => hnew (hid ▸ h.sessions.issued v hv)
  refine ⟨⟨fun v hv => ?_, fun v hv v' hv' hid => ?_, fun p x hx => ?_⟩,
    fun ref hr => h.stored ref (hreq ref hr), h.held, fun p ref hd hr => h.doomed p ref hd (hreq ref hr)⟩
  · rcases List.mem_append.mp hv with hv | hv
    · exact List.mem_cons_of_mem _ (h.sessions.issued v hv)
    · rw [List.mem_singleton.mp hv]
      exact List.mem_cons_self
  · rcases List.mem_append.mp hv with hv | hv <;> rcases List.mem_append.mp hv' with hv' | hv'
    · exact h.sessions.same v hv v' hv' hid
    · exact absurd (hid.trans (congrArg _ (List.mem_singleton.mp hv'))) (hold v hv)
    · exact absurd (hid.symm.trans (congrArg _ (List.mem_singleton.mp hv))) (hold v' hv')
    · rw [List.mem_singleton.mp hv, List.mem_singleton.mp hv']
  · obtain ⟨hissued, hblob⟩ := h.sessions.pending p x hx
    refine ⟨List.mem_cons_of_mem _ hissued, fun v hv hid => ?_⟩
    rcases List.mem_append.mp hv with hv | hv
    · exact hblob v hv hid
    · rw [List.mem_singleton.mp hv] at hid
      exact absurd (hid ▸ hissued) hnew

theorem Inv.find {w : World ι ρ υ π} (h : Inv w) {p : π} {s : Submission ι ρ υ}
    (hp : w.phase p = .storing s []) : Inv (w.goto p (s.find w.db.queue)) := by
  rw [Submission.find]
  split
  · next hnone =>
    refine h.goto (fun ref hr => h.held p ref ?_) (fun _ hr => absurd hr List.not_mem_nil)
      fun x hx => Or.inl (hp ▸ hx)
    rw [Phase.held, hnone] at hr
    rw [hp, Phase.held, hnone]
    exact List.mem_filter.mpr ⟨hr, decide_eq_true List.not_mem_nil⟩
  · next e hsome =>
    have hlink : ∀ ref ∈ (Phase.linking s).held, ref ∈ w.store := by
      intro ref hr
      rw [Phase.held, hsome] at hr
      exact absurd hr List.not_mem_nil
    split
    · split
      · exact h.rest rfl rfl rfl
      · exact h.goto hlink (fun _ hr => absurd hr List.not_mem_nil) fun x hx => Or.inl (hp ▸ hx)
    · refine h.goto (fun ref hr => ?_) (fun _ hr => absurd hr List.not_mem_nil)
        fun x hx => Or.inl (hp ▸ hx)
      rw [Phase.held, filter_start] at hr
      exact absurd hr List.not_mem_nil

/-- the original and what `keep` makes of it -/
theorem Inv.keep {w : World ι ρ υ π} (h : Inv w) {p : π} {e : Envelope ι ρ} {recovery : Bool}
    {original readable : ρ} {result : Option ρ} {todo : List (ρ × Option ρ)}
    {done : List (ExtractedArtifact ρ)} (hp : w.phase p = .keeping e recovery ((original, result) :: todo) done)
    (hr : readable ∈ w.store) :
    Inv (w.goto p (.keeping e recovery todo (done ++ [⟨original, readable⟩]))) := by
  have hheld : ∀ ref, ref = original ∨ ref ∈ todo.map Prod.fst ∨ ref ∈ done.flatMap ExtractedArtifact.refs →
      ref ∈ w.store := by
    intro ref hr
    refine h.held p ref ?_
    rw [hp, Phase.held, List.map_cons, List.cons_append, List.mem_cons, List.mem_append]
    exact hr
  refine h.goto (fun ref hm => ?_) (fun _ hr => absurd hr List.not_mem_nil)
    fun _ hx => absurd hx List.not_mem_nil
  simp only [Phase.held, List.flatMap_append, List.mem_append, List.flatMap_singleton,
    ExtractedArtifact.refs, List.mem_pair] at hm
  rcases hm with hm | hm | rfl | rfl
  · exact hheld ref (Or.inr (Or.inl hm))
  · exact hheld ref (Or.inr (Or.inr hm))
  · exact hheld ref (Or.inl rfl)
  · exact hr

theorem inv_step {w w' : World ι ρ υ π} {a : Action ι ρ υ π} (h : Inv w) (hP : Apart w a)
    (hstep : step w a = some w') : Inv w' := by
  have hrec : Recorded w w' := hP.recorded w' hstep
  have hdel := hP.deleted w' hstep
  cases a with
  | tick seconds =>
    obtain rfl := Option.some.inj hstep
    exact h.background rfl rfl rfl rfl fun ref => required_of_le (Nat.le_add_right _ _)
  | createUpload id actor ref ttl =>
    simp only [step] at hstep
    split at hstep
    · exact nomatch hstep
    · next hnew =>
      obtain rfl := Option.some.inj hstep
      exact h.createUpload (u := ⟨id, actor, ref, w.now + ttl, false, none⟩) rfl hnew
  | putOther ref =>
    obtain rfl := Option.some.inj hstep
    exact h.put ref
  | recordChange ref =>
    obtain rfl := Option.some.inj hstep
    exact h.background rfl rfl rfl rfl fun _ hr => hr
  | requeue id status =>
    simp only [step] at hstep
    split at hstep
    · exact nomatch hstep
    · next hs =>
      obtain rfl := Option.some.inj hstep
      refine h.background rfl rfl rfl rfl fun ref hr => ?_
      rw [mem_required, mem_kept] at hr ⊢
      refine hr.imp_left (Or.imp_right fun hr => ?_)
      rcases mem_refs_updateItem hr with hr | ⟨q, hq, hr⟩
      · exact hr
      · rw [Item.refs_moveTo hs] at hr
        exact ⟨q, hq, hr⟩
  | submit p e =>
    simp only [step] at hstep
    split at hstep
    · split at hstep
      · obtain rfl := Option.some.inj hstep
        exact h
      · obtain rfl := Option.some.inj hstep
        exact h.goto (fun _ hr => absurd hr List.not_mem_nil) (fun _ hr => absurd hr List.not_mem_nil)
          (fun _ hx => absurd hx List.not_mem_nil)
    · exact nomatch hstep
  | finalize p actor ids capture =>
    simp only [step] at hstep
    split at hstep
    · obtain ⟨s, hs, rfl⟩ := Option.map_eq_some_iff.mp hstep
      refine h.goto (fun ref hr => ?_) (fun _ hr => absurd hr List.not_mem_nil)
        fun x hx => Or.inr (World.finalize_pending hs x hx)
      rw [Phase.held] at hr
      split at hr
      · rw [filter_start] at hr
        exact absurd hr List.not_mem_nil
      · exact absurd hr List.not_mem_nil
    · exact nomatch hstep
  | put p =>
    simp only [step] at hstep
    split at hstep
    · next s ref todo hp =>
      obtain rfl := Option.some.inj hstep
      refine (h.put ref).goto (fun r hr => ?_) (fun _ hr => absurd hr List.not_mem_nil)
        fun x hx => Or.inl (hp ▸ hx)
      have hheld := (h.put ref).held p r
      rw [Phase.held] at hr
      split at hr
      · next hnone =>
        rcases mem_done (r := ref) hr with rfl | hr
        · exact List.mem_insert_self
        · refine hheld ?_
          show r ∈ (w.phase p).held
          rw [hp, Phase.held, if_pos hnone]
          exact hr
      · exact absurd hr List.not_mem_nil
    · exact nomatch hstep
  | find p =>
    simp only [step] at hstep
    split at hstep
    · next s hp =>
      obtain rfl := Option.some.inj hstep
      exact h.find hp
    · exact nomatch hstep
  | verify p =>
    simp only [step] at hstep
    split at hstep
    · next s e ref todo hp =>
      obtain rfl := Option.some.inj hstep
      split
      · next hmem =>
        refine h.goto (fun r hr => ?_) (fun _ hr => absurd hr List.not_mem_nil)
          fun x hx => Or.inl (hp ▸ hx)
        rcases mem_done (r := ref) hr with rfl | hr
        · exact hmem
        · exact h.held p r (hp ▸ hr)
      · exact h.rest rfl rfl rfl
    · exact nomatch hstep
  | commit p =>
    simp only [step] at hstep
    split at hstep
    · next s e hp =>
      obtain ⟨db, hc, rfl⟩ := Option.map_eq_some_iff.mp hstep
      refine h.commit hc hrec (by rw [hp]; rfl) (fun e' he _ ref hr => ?_) fun hn => nomatch hn
      obtain rfl := Option.some.inj he
      rw [hp]
      exact List.mem_filter.mpr ⟨hr, decide_eq_true List.not_mem_nil⟩
    · next s hp =>
      obtain ⟨db, hc, rfl⟩ := Option.map_eq_some_iff.mp hstep
      refine h.commit hc hrec (by rw [hp]; rfl) (fun _ _ hf => nomatch hf) fun hn ref hr => ?_
      rw [hp, Phase.held, hn]
      exact hr
    · exact nomatch hstep
  | claim p id recovery =>
    simp only [step] at hstep
    split at hstep
    · split at hstep
      · obtain rfl := Option.some.inj hstep
        exact h.rest (filter_start _) rfl rfl
      · exact nomatch hstep
    · exact nomatch hstep
  | read p =>
    simp only [step] at hstep
    split at hstep
    · next e recovery ref todo hp =>
      obtain rfl := Option.some.inj hstep
      split
      · next hmem =>
        refine h.goto (fun r hr => ?_) (fun _ hr => absurd hr List.not_mem_nil)
          fun _ hx => absurd hx List.not_mem_nil
        rcases mem_done (r := ref) hr with rfl | hr
        · exact hmem
        · exact h.held p r (hp ▸ hr)
      · exact h.rest rfl rfl rfl
    · exact nomatch hstep
  | extract p results =>
    simp only [step] at hstep
    split at hstep
    · next e recovery hp =>
      split at hstep
      · obtain rfl := Option.some.inj hstep
        refine h.goto (fun r hr => h.held p r ?_) (fun _ hr => absurd hr List.not_mem_nil)
          fun _ hx => absurd hx List.not_mem_nil
        rw [Phase.held, List.flatMap_nil, List.append_nil, List.mem_map] at hr
        obtain ⟨x, hx, rfl⟩ := hr
        rw [hp]
        exact List.mem_filter.mpr ⟨(List.of_mem_zip hx).1, decide_eq_true List.not_mem_nil⟩
      · exact nomatch hstep
    · exact nomatch hstep
  | keep p =>
    simp only [step] at hstep
    split at hstep
    · next e recovery original todo done hp =>
      obtain rfl := Option.some.inj hstep
      exact h.keep hp (h.held p original (by rw [hp]; exact List.mem_cons_self))
    · next e recovery original readable todo done hp =>
      obtain rfl := Option.some.inj hstep
      exact (h.put readable).keep hp List.mem_insert_self
    · next e recovery done hp =>
      obtain rfl := Option.some.inj hstep
      have hdone : ∀ ref ∈ done.flatMap ExtractedArtifact.refs, ref ∈ w.store := by
        intro ref hr
        refine h.held p ref ?_
        rw [hp]
        exact hr
      split
      · exact h.goto hdone (fun _ hr => absurd hr List.not_mem_nil) fun _ hx => absurd hx List.not_mem_nil
      · exact h.goto hdone (fun _ hr => absurd hr List.not_mem_nil) fun _ hx => absurd hx List.not_mem_nil
    · exact nomatch hstep
  | recordExtraction p =>
    simp only [step] at hstep
    split at hstep
    · next e all hp =>
      obtain rfl := Option.some.inj hstep
      refine h.rows hrec rfl (fun ref hr => ?_) (fun ref hr => by rw [hp]; exact hr) rfl rfl
      rw [mem_kept] at hr
      rcases hr with hr | hr
      · exact Or.inl (mem_kept.mpr (Or.inl hr))
      · rcases mem_refs_updateItem hr with hr | ⟨q, hq, hr⟩
        · exact Or.inl (mem_kept.mpr (Or.inr hr))
        · rw [Item.refs] at hr
          split at hr
          · exact absurd hr List.not_mem_nil
          · next hl =>
            rcases List.mem_append.mp hr with hr | hr
            · have hq' : q.refs = q.envelope.artifacts ++ q.extraction := if_neg hl
              exact Or.inl (mem_kept.mpr (Or.inr ⟨q, hq, hq' ▸ List.mem_append_left _ hr⟩))
            · obtain ⟨x, hx, rfl⟩ := List.mem_map.mp hr
              refine Or.inr ?_
              rw [hp]
              exact List.mem_flatMap.mpr ⟨x, hx, List.mem_cons_of_mem _ List.mem_cons_self⟩
    · exact nomatch hstep
  | recordArtifact p =>
    simp only [step] at hstep
    split at hstep
    · next e position x todo hp =>
      split at hstep
      · next rows hrows =>
        obtain rfl := Option.some.inj hstep
        refine h.rows hrec rfl (fun ref hr => ?_) (fun ref hr => ?_) rfl rfl
        · rw [mem_kept] at hr
          rcases hr with ⟨a, ha, hlive, hr⟩ | hr
          · rcases recordArtifact_spec hrows a ha hlive with ⟨b, hb, hbl, heq⟩ | heq
            · exact Or.inl (mem_kept.mpr (Or.inl ⟨b, hb, hbl, heq ▸ hr⟩))
            · refine Or.inr ?_
              rw [hp]
              exact List.mem_flatMap.mpr ⟨x, List.mem_cons_self, heq ▸ hr⟩
          · exact Or.inl (mem_kept.mpr (Or.inr hr))
        · rw [hp]
          exact List.mem_append_right _ hr
      · obtain rfl := Option.some.inj hstep
        exact h.rest rfl rfl rfl
    · exact nomatch hstep
  | finish p =>
    simp only [step] at hstep
    split at hstep
    · obtain rfl := Option.some.inj hstep
      refine h.rows hrec rfl (fun ref hr => Or.inl ?_) (fun _ hr => absurd hr List.not_mem_nil) rfl rfl
      rw [mem_kept] at hr ⊢
      refine hr.imp_right fun hr => ?_
      rcases mem_refs_updateItem hr with hr | ⟨q, hq, hr⟩
      · exact hr
      · exact ⟨q, hq, Item.refs_finish hr⟩
    · exact nomatch hstep
  | release p tenantId paths =>
    simp only [step] at hstep
    split at hstep
    · obtain rfl := Option.some.inj hstep
      exact h.rest rfl rfl rfl
    · exact nomatch hstep
  | unlink p =>
    simp only [step] at hstep
    split at hstep
    · obtain rfl := Option.some.inj hstep
      refine h.rows hrec rfl (fun ref hr => Or.inl ?_) (fun _ hr => absurd hr List.not_mem_nil) rfl rfl
      rw [mem_kept] at hr ⊢
      refine hr.imp_left ?_
      rintro ⟨a', ha', hlive, hr⟩
      obtain ⟨a, ha, rfl⟩ := List.mem_map.mp ha'
      split at hlive
      · exact nomatch hlive
      · next hout =>
        rw [if_neg hout] at hr
        exact ⟨a, ha, hlive, hr⟩
    · exact nomatch hstep
  | check p ref =>
    simp only [step] at hstep
    split at hstep
    · next todo dead hp =>
      split at hstep
      · obtain rfl := Option.some.inj hstep
        refine h.goto (fun _ hr => absurd hr List.not_mem_nil) (fun r hr => ?_)
          fun _ hx => absurd hx List.not_mem_nil
        have hdead : ∀ r ∈ dead, r ∉ required w.db w.now := fun r hr => h.doomed p r (hp ▸ hr)
        rw [Phase.doomed] at hr
        split at hr
        · exact hdead r hr
        · next hlive =>
          rcases List.mem_cons.mp hr with rfl | hr
          · exact fun hreq => hlive (isLive_of_required hreq)
          · exact hdead r hr
      · exact nomatch hstep
    · split at hstep
      · obtain rfl := Option.some.inj hstep
        split
        · exact h.rest rfl rfl rfl
        · next hlive =>
          refine h.goto (fun _ hr => absurd hr List.not_mem_nil) (fun r hr => ?_)
            fun _ hx => absurd hx List.not_mem_nil
          rw [List.mem_singleton.mp hr]
          exact fun hreq => hlive (isLive_of_required hreq)
      · exact nomatch hstep
    · exact nomatch hstep
  | checked p =>
    simp only [step] at hstep
    split at hstep
    · next dead hp =>
      obtain rfl := Option.some.inj hstep
      exact h.goto (fun _ hr => absurd hr List.not_mem_nil) (fun r hr => h.doomed p r (hp ▸ hr))
        fun _ hx => absurd hx List.not_mem_nil
    · exact nomatch hstep
  | delete p ref =>
    simp only [step] at hstep
    have hgone : ref ∉ w.store.filter (· ≠ ref) := fun hm => by
      rw [List.mem_filter, decide_eq_true_eq] at hm
      exact hm.2 rfl
    split at hstep
    · next dead hp =>
      split at hstep
      · next hmem =>
        obtain rfl := Option.some.inj hstep
        refine h.delete (fun hs => hdel ref hs hgone) (hp ▸ hmem) rfl (fun r hr => ?_) rfl
        rw [hp]
        exact List.mem_of_mem_erase hr
      · exact nomatch hstep
    · next ids r todo hp =>
      split at hstep
      · next heq =>
        obtain rfl := Option.some.inj hstep
        subst heq
        exact h.delete (fun hs => hdel ref hs hgone) (by rw [hp]; exact List.mem_cons_self) rfl
          (fun _ hr => absurd hr List.not_mem_nil) rfl
      · exact nomatch hstep
    · exact nomatch hstep
  | purge p =>
    simp only [step] at hstep
    split at hstep
    · obtain rfl := Option.some.inj hstep
      exact h.rest rfl rfl rfl
    · exact nomatch hstep
  | dropRows p =>
    simp only [step] at hstep
    split at hstep
    · next ids hp =>
      obtain rfl := Option.some.inj hstep
      refine h.move rfl rfl (fun u hu => ⟨u, (List.mem_filter.mp hu).1, rfl, rfl⟩) (fun _ hr => hr) hrec
        (fun ref hr => Or.inl ?_) (fun _ hr => absurd hr List.not_mem_nil)
        (fun _ hr => absurd hr List.not_mem_nil) fun _ hx => absurd hx List.not_mem_nil
      rw [mem_required] at hr ⊢
      refine hr.imp_right ?_
      rintro ⟨u, hu, hu'⟩
      exact ⟨u, (List.mem_filter.mp hu).1, hu'⟩
    · exact nomatch hstep
  | stop p =>
    obtain rfl := Option.some.inj hstep
    exact h.rest rfl rfl rfl

/-! ## Runs -/

/-- nothing in the store, no rows, every process idle -/
def World.start : World ι ρ υ π := ⟨[], ⟨[], [], [], []⟩, [], 0, fun _ => .idle⟩

theorem inv_start : Inv (World.start : World ι ρ υ π) :=
  ⟨⟨fun _ hu => absurd hu List.not_mem_nil, fun _ hu => absurd hu List.not_mem_nil,
    fun _ _ hx => absurd hx List.not_mem_nil⟩, fun _ hr => absurd hr List.not_mem_nil,
    fun _ _ hr => absurd hr List.not_mem_nil, fun _ _ hr => absurd hr List.not_mem_nil⟩

theorem inv_run {w : World ι ρ υ π} {as : List (Action ι ρ υ π)}
    (hP : Runs.along step Apart World.start as) (h : Runs.exec step World.start as = some w) : Inv w :=
  Runs.exec_invariant_along (fun _ _ _ hs hP ht => inv_step hs hP ht) inv_start hP h

/-- in every run without a race between the deletion of a blob and a new reference to it, each blob
of a live artifact row, of an item that has not landed, and of an unexpired unconsumed upload that was
verified is in the store -/
theorem required_stored {w : World ι ρ υ π} {as : List (Action ι ρ υ π)}
    (hP : Runs.along step Apart World.start as) (h : Runs.exec step World.start as = some w) :
    ∀ ref ∈ required w.db w.now, ref ∈ w.store :=
  (inv_run hP h).stored

end

/-! ## Runs on two processes -/

section

abbrev SampleAction := Action ℕ ℕ ℕ Bool

def page : Text := "sources/a.md".toList

def sampleEnvelope (id : ℕ) : Envelope ℕ ℕ := ⟨id, [], page, [7]⟩

/-- one process takes a capture of blob 7 to `landed`, its readable text is blob 8 -/
def landing (id : ℕ) : List SampleAction :=
  [.submit true (sampleEnvelope id), .put true, .find true, .verify true, .commit true,
    .requeue id .processing, .claim true id false, .read true, .extract true [some 8], .keep true,
    .keep true, .recordExtraction true, .recordArtifact true, .finish true]

/-- another process deletes the source and what nothing else refers to -/
def deletion : List SampleAction :=
  [.release false [] [page], .unlink false, .check false 7, .check false 8, .checked false,
    .delete false 7, .delete false 8, .stop false]

/-- an upload is created, its blob verified alone; it expires and is purged -/
def expiry : List SampleAction :=
  [.createUpload 1 [] 9 5, .finalize true [] [1] none, .put true, .find true, .commit true, .tick 6,
    .purge false, .check false 9, .delete false 9, .dropRows false]

/-- an upload whose bytes have not been sent yet is a reference without a blob -/
theorem not_references_stored : ¬∀ (as : List SampleAction) w, Runs.exec step World.start as = some w →
    ∀ ref ∈ references w.db w.now, ref ∈ w.store := by
  intro h
  have hrun : Runs.exec step World.start [(.createUpload 1 [] 9 5 : SampleAction)] =
      some ⟨[], ⟨[], [⟨1, [], 9, 5, false, none⟩], [], []⟩, [1], 0, fun _ => .idle⟩ := rfl
  exact absurd (h _ _ hrun 9 (by decide)) List.not_mem_nil

/-- the same bytes are submitted between the check and the deletion: without `Apart` an item that has
not landed is left without its blob -/
theorem not_required_stored : ∃ (as : List SampleAction) (w : World ℕ ℕ ℕ Bool),
    Runs.exec step World.start as = some w ∧ ∃ ref ∈ required w.db w.now, ref ∉ w.store := by
  have hrun : ((Runs.exec step (World.start : World ℕ ℕ ℕ Bool) (landing 1 ++ deletion.take 4 ++
      [.submit true (sampleEnvelope 2), .put true, .find true, .verify true, .commit true] ++
      [.checked false, .delete false 7])).any
        fun w => decide (∃ ref ∈ required w.db w.now, ref ∉ w.store)) = true := by
    decide +kernel
  obtain ⟨w, hw, href⟩ := Option.any_eq_true _ _ |>.mp hrun
  exact ⟨_, w, hw, of_decide_eq_true href⟩

/-- `Apart` between the two processes -/
def apart (w : World ℕ ℕ ℕ Bool) (a : SampleAction) : Bool :=
  (step w a).all fun (w' : World ℕ ℕ ℕ Bool) => decide (
    (∀ ref ∈ required w'.db w'.now, ref ∉ required w.db w.now → ∀ p, ref ∉ (w.phase p).doomed) ∧
    ∀ ref ∈ w.store, ref ∉ w'.store → ∀ p, ref ∉ (w.phase p).held)

theorem apart_of_check (w : World ℕ ℕ ℕ Bool) (a : SampleAction) (h : apart w a = true) :
    Apart w a := by
  have hall : ∀ w', step w a = some w' →
      (∀ ref ∈ required w'.db w'.now, ref ∉ required w.db w.now → ∀ p, ref ∉ (w.phase p).doomed) ∧
      ∀ ref ∈ w.store, ref ∉ w'.store → ∀ p, ref ∉ (w.phase p).held := by
    intro w' hw'
    rw [apart, hw', Option.all_some, decide_eq_true_eq] at h
    exact h
  exact ⟨fun w' hw' => (hall w' hw').1, fun w' hw' => (hall w' hw').2⟩

theorem required_stored_landing : ∃ w : World ℕ ℕ ℕ Bool,
    Runs.exec step World.start (landing 1 ++ deletion ++ landing 2 ++ expiry) = some w ∧
      7 ∈ required w.db w.now ∧ ∀ ref ∈ required w.db w.now, ref ∈ w.store := by
  have hP : Runs.alongCheck step apart World.start (landing 1 ++ deletion ++ landing 2 ++ expiry) =
      true := by
    decide +kernel
  have hrun : ((Runs.exec step (World.start : World ℕ ℕ ℕ Bool)
      (landing 1 ++ deletion ++ landing 2 ++ expiry)).any
        fun w => decide (7 ∈ required w.db w.now)) = true := by
    decide +kernel
  obtain ⟨w, hw, hreq⟩ := Option.any_eq_true _ _ |>.mp hrun
  exact ⟨w, hw, of_decide_eq_true hreq,
    required_stored (Runs.along_of_check apart_of_check hP) hw⟩

end

end Evidence
