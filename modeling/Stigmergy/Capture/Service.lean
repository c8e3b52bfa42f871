import Stigmergy.Kernel.Ascii
import Stigmergy.Capture.Envelope
import Stigmergy.Capture.Writers

/-!
# Submitting a capture

`CaptureService` of `capture/service.py` over the statements of the queue.  A submission runs its
statements one after the other, and other sessions come between: what it reads before it stores the
evidence, what it reads after, and the table its `INSERT` meets are three arguments.

* `submit`          inline text, items, uploaded artifacts or a public URL, queued under a key;
* `semantic`        what `_equivalent_request` compares of an envelope;
* `resubmitted`     a submission under a key that is taken queues nothing, returns the first row when
                    the request is the same, and is refused when it is not.
-/

set_option linter.unusedSectionVars false

namespace Capture

open Queue

abbrev Bytes := List UInt8

/-- what `fetch_public` returns -/
structure Acquired where
  data : Bytes
  responseMediaType : Text
  finalUrl : Text

/-- an entry of `artifact_values` -/
structure ArtifactValue where
  data : Bytes
  declaredType : Option Text
  originalName : Option Text
  sourceUrl : Option Text

/-- the errors a submission ends with -/
inductive CaptureError where
  | submissionRejected (message : Text)
  | artifactRejected (message : Text)
  | layerErasing (message : Text)
  /-- a `ValidationError` of one of the models -/
  | invalid (message : Text)
  /-- `FetchRejected`, `FetchUnavailable` -/
  | fetch (message : Text)
  | evidence (message : Text)
  | queueState (message : Text)
  | database (error : QueueStateError)

/-- a request as the queue stores it; of the other operations, its semantic part -/
inductive Request where
  | capture (e : Envelope)
  | other (semantic : Text)
deriving DecidableEq

structure Receipt where
  id : Text
  row : Row Request
  created : Bool

/-- the parts of a submission's world that are code outside the package -/
structure Services where
  runtime : Runtime
  withoutCapability : Text → Except Text Text
  detectMedia : Bytes → Option Text → Option Text → Except Text Text
  sha256 : Bytes → Text
  encode : Text → Bytes
  uuid5 : Text → Text

/-- the clocks a submission reads and the answers of the network and of the evidence store -/
structure Moment where
  now : Time
  acquiredAt : Time
  insertedAt : Time
  fetched : Text → Except CaptureError Acquired
  put : Bytes → Except CaptureError Text
  verify : Text → Text → ℕ → Bool

/-- the erasures and the rows at a read -/
structure Sight where
  closed : Text → Bool
  db : Db Text Request

inductive Content where
  | text (text : Text) (locator : Option Text) (acquisition : Option AcquisitionProvenance)
  | items (values : List ArtifactValue) (locator : Option Text) (participants : List Participant)
      (acquisition : Option AcquisitionProvenance)
  | uploads (references : List ArtifactRef) (locator : Option Text)
      (participants : List Participant) (acquisition : Option AcquisitionProvenance)
  | url (url : Text)

structure Submission where
  actor : Actor
  audience : Option (List Text)
  adapter : Adapter
  idempotencyKey : Text
  title : Option Text
  occurredAt : Option Occurred
  capturedAt : Option Time
  intent : Option Intent
  content : Content

/-- a validator's error as a `ValidationError` -/
def validated {α : Type} : Except Text α → Except CaptureError α
  | .ok a => .ok a
  | .error message => .error (.invalid message)

section
variable (S : Services) (tenant : Text)

/-! ## the envelope -/

/-- a value that passes the checks, with its media type -/
def normalize (v : ArtifactValue) : Except CaptureError (ArtifactValue × Text) := do
  if v.data.isEmpty then throw (.artifactRejected "capture artifacts cannot be empty".toList)
  if MAX_ARTIFACT_BYTES < v.data.length then
    throw (.artifactRejected "capture artifact exceeds the size limit".toList)
  match S.detectMedia v.data v.declaredType v.originalName with
  | .ok mediaType => return (v, mediaType)
  | .error message => throw (.artifactRejected message)

/-- the reference of a normalized value, beside the value -/
def referenceOf (v : ArtifactValue × Text) : Except CaptureError (ArtifactValue × ArtifactRef) :=
  let digest := S.sha256 v.1.data
  if isDigest digest then
    (validated (ArtifactRef.clean S.runtime S.withoutCapability
      ⟨contentRef digest, digest, v.1.data.length, v.2, v.1.originalName, v.1.sourceUrl⟩)).map
        fun reference => (v.1, reference)
  else .error (.invalid "sha256 must be 64 lowercase hexadecimal characters".toList)

def referencesOf (values : List ArtifactValue) :
    Except CaptureError (List (ArtifactValue × ArtifactRef)) := do
  if values.isEmpty || MAX_ARTIFACTS < values.length then
    throw (.artifactRejected "capture requires between 1 and 20 artifacts".toList)
  if MAX_CAPTURE_BYTES < (values.map fun v => v.data.length).sum then
    throw (.artifactRejected "artifacts exceed the capture-wide byte limit".toList)
  let normalized ← values.mapM (normalize S)
  normalized.mapM (referenceOf S)

/-- `_envelope` -/
def envelope (s : Submission) (capturedAt : Time) (references : List ArtifactRef)
    (locator : Option Text) (participants : List Participant)
    (acquisition : Option AcquisitionProvenance) : Except CaptureError Envelope :=
  validated do
    let captureId := S.uuid5 (tenant ++ '\x00' :: s.actor.subject ++ '\x00' :: s.idempotencyKey)
    let origin ← Origin.clean S.withoutCapability
      ⟨s.adapter, capturedAt, s.occurredAt, s.title, locator, participants, acquisition⟩
    Envelope.clean ⟨captureId, s.idempotencyKey, s.actor, s.audience, origin, references,
      s.intent.getD ⟨none, none⟩⟩

/-! ## the queue -/

/-- `semantic`: an envelope without its id, its key and the time of its capture -/
def semantic (e : Envelope) : Envelope :=
  { e with captureId := [], idempotencyKey := [], origin := { e.origin with capturedAt := 0 } }

/-- `_equivalent_request` -/
def equivalentRequest : Request → Request → Bool
  | .capture a, .capture b => semantic a == semantic b
  | .other a, .other b => a == b
  | _, _ => false

/-- `_find_idempotent` -/
def findIdempotent (db : Db Text Request) (operation : Operation) (subject idempotencyKey : Text)
    (request : Request) : Except CaptureError (Option Receipt) :=
  match byIdempotency db tenant subject idempotencyKey with
  | none => .ok none
  | some (id, row) =>
    if row.operation ≠ operation ∨ equivalentRequest row.request request = false then
      .error (.submissionRejected
        "idempotency key was already used for a different request".toList)
    else .ok (some ⟨id, row, false⟩)

def findCapture (db : Db Text Request) (e : Envelope) : Except CaptureError (Option Receipt) :=
  findIdempotent tenant db .capture e.actor.subject e.idempotencyKey (.capture e)

/-- `_find_idempotent` with `required` -/
def requiredCapture (db : Db Text Request) (e : Envelope) : Except CaptureError Receipt :=
  match findCapture tenant db e with
  | .ok (some receipt) => .ok receipt
  | .ok none => .error (.queueState "idempotent queue lookup failed".toList)
  | .error error => .error error

/-- `enqueue_capture`, with the table it leaves -/
def enqueueCapture (now : Time) (db : Db Text Request) (e : Envelope) :
    Except CaptureError Receipt × Db Text Request :=
  match insert db e.captureId (insertRow tenant .capture e.idempotencyKey e.actor.subject e.audience
      (.capture e) now) with
  | .ok (some row, db') => (.ok ⟨e.captureId, row, true⟩, db')
  | .ok (none, db') => (requiredCapture tenant db' e, db')
  | .error error => (.error (.database error), db)

/-! ## the service -/

/-- `_refuse_closed_layer` -/
def refuseClosedLayer (closed : Text → Bool) (e : Envelope) : Except CaptureError Unit :=
  match Layers.layerOfAcl e.audience with
  | none => .error (.invalid "audience names exactly one layer".toList)
  | some layer =>
    if layer != Layers.PUBLIC && closed layer then
      .error (.layerErasing
        "this layer is being erased; captures to it are refused until the erasure finishes".toList)
    else .ok ()

/-- the two reads every path makes before it writes -/
def look (x : Sight) (e : Envelope) : Except CaptureError (Option Receipt) := do
  refuseClosedLayer x.closed e
  findCapture tenant x.db e

/-- `_queue_envelope` -/
def queueEnvelope (m : Moment) (x : Sight) (db : Db Text Request) (e : Envelope) :
    Except CaptureError Receipt × Db Text Request :=
  match look tenant x e with
  | .error error => (.error error, x.db)
  | .ok (some receipt) => (.ok receipt, x.db)
  | .ok none =>
    if e.artifacts.all fun a => m.verify a.blobRef a.sha256 a.bytes then
      enqueueCapture tenant m.insertedAt db e
    else (.error (.submissionRejected "artifact reference could not be verified".toList), x.db)

/-- `evidence.put` of every value, each checked against its reference -/
def storeAll (m : Moment) : List (ArtifactValue × ArtifactRef) → Except CaptureError Unit
  | [] => .ok ()
  | (v, reference) :: rest => do
    let key ← m.put v.data
    if key != reference.blobRef then
      throw (.submissionRejected "evidence store returned an invalid content reference".toList)
    storeAll m rest

def captureBytes (m : Moment) (x₁ x₂ : Sight) (db : Db Text Request) (s : Submission)
    (values : List ArtifactValue) (locator : Option Text) (participants : List Participant)
    (acquisition : Option AcquisitionProvenance) :
    Except CaptureError Receipt × Db Text Request :=
  match referencesOf S values with
  | .error error => (.error error, x₁.db)
  | .ok pairs =>
    match envelope S tenant s (s.capturedAt.getD m.now) (pairs.map (·.2)) locator participants
        acquisition with
    | .error error => (.error error, x₁.db)
    | .ok e =>
      match look tenant x₁ e with
      | .error error => (.error error, x₁.db)
      | .ok (some receipt) => (.ok receipt, x₁.db)
      | .ok none =>
        match storeAll m pairs with
        | .error error => (.error error, x₁.db)
        | .ok () => queueEnvelope tenant m x₂ db e

def captureText (m : Moment) (x₁ x₂ : Sight) (db : Db Text Request) (s : Submission) (text : Text)
    (locator : Option Text) (acquisition : Option AcquisitionProvenance) :
    Except CaptureError Receipt × Db Text Request :=
  if text.isEmpty then (.error (.submissionRejected "text is required".toList), x₁.db)
  else captureBytes S tenant m x₁ x₂ db s [⟨S.encode text, some MEDIA_TEXT, none, none⟩] locator []
    acquisition

def captureReferences (m : Moment) (x : Sight) (db : Db Text Request) (s : Submission)
    (references : List ArtifactRef) (locator : Option Text) (participants : List Participant)
    (acquisition : Option AcquisitionProvenance) :
    Except CaptureError Receipt × Db Text Request :=
  match envelope S tenant s (s.capturedAt.getD m.now) references locator participants
      acquisition with
  | .error error => (.error error, x.db)
  | .ok e => queueEnvelope tenant m x db e

/-- the fetched value, with its provenance: `acquired_at` is the time of this fetch -/
def acquire (m : Moment) (url : Text) :
    Except CaptureError (ArtifactValue × Text × AcquisitionProvenance) := do
  let originalUrl ← validated (S.withoutCapability url)
  let acquired ← m.fetched url
  let acquisition ← validated (AcquisitionProvenance.clean S.withoutCapability
    ⟨originalUrl, acquired.finalUrl, m.acquiredAt, none, none, none⟩)
  let declared := if acquired.responseMediaType.isEmpty then none else some acquired.responseMediaType
  return (⟨acquired.data, declared, none, some acquired.finalUrl⟩, acquired.finalUrl, acquisition)

def capturePublicUrl (m : Moment) (x₁ x₂ : Sight) (db : Db Text Request) (s : Submission)
    (url : Text) : Except CaptureError Receipt × Db Text Request :=
  match acquire S m url with
  | .error error => (.error error, x₁.db)
  | .ok (value, finalUrl, acquisition) =>
    captureBytes S tenant m x₁ x₂ db s [value] (some finalUrl) [] (some acquisition)

/-- a submission: its answer, and the table after the last of its statements that ran -/
def submit (m : Moment) (x₁ x₂ : Sight) (db : Db Text Request) (s : Submission) :
    Except CaptureError Receipt × Db Text Request :=
  match s.content with
  | .text text locator acquisition => captureText S tenant m x₁ x₂ db s text locator acquisition
  | .items values locator participants acquisition =>
    captureBytes S tenant m x₁ x₂ db s values locator participants acquisition
  | .uploads references locator participants acquisition =>
    captureReferences S tenant m x₁ db s references locator participants acquisition
  | .url url => capturePublicUrl S tenant m x₁ x₂ db s url

/-! ## what a submission asks for -/

def prepareBytes (m : Moment) (s : Submission) (values : List ArtifactValue)
    (locator : Option Text) (participants : List Participant)
    (acquisition : Option AcquisitionProvenance) :
    Except CaptureError (Envelope × Option (List (ArtifactValue × ArtifactRef))) := do
  let pairs ← referencesOf S values
  let e ← envelope S tenant s (s.capturedAt.getD m.now) (pairs.map (·.2)) locator participants
    acquisition
  return (e, some pairs)

/-- the envelope of a submission, and the bytes it still has to store -/
def prepare (m : Moment) (s : Submission) :
    Except CaptureError (Envelope × Option (List (ArtifactValue × ArtifactRef))) :=
  match s.content with
  | .text text locator acquisition =>
    if text.isEmpty then .error (.submissionRejected "text is required".toList)
    else prepareBytes S tenant m s [⟨S.encode text, some MEDIA_TEXT, none, none⟩] locator []
      acquisition
  | .items values locator participants acquisition =>
    prepareBytes S tenant m s values locator participants acquisition
  | .uploads references locator participants acquisition => do
    let e ← envelope S tenant s (s.capturedAt.getD m.now) references locator participants
      acquisition
    return (e, none)
  | .url url => do
    let (value, finalUrl, acquisition) ← acquire S m url
    prepareBytes S tenant m s [value] (some finalUrl) [] (some acquisition)

/-- the request a submission makes -/
def requestOf (m : Moment) (s : Submission) : Except CaptureError Envelope :=
  (prepare S tenant m s).map Prod.fst

/-- the statements a prepared submission runs -/
def submitPrepared (m : Moment) (x₁ x₂ : Sight) (db : Db Text Request) (e : Envelope) :
    Option (List (ArtifactValue × ArtifactRef)) → Except CaptureError Receipt × Db Text Request
  | none => queueEnvelope tenant m x₁ db e
  | some pairs =>
    match look tenant x₁ e with
    | .error error => (.error error, x₁.db)
    | .ok (some receipt) => (.ok receipt, x₁.db)
    | .ok none =>
      match storeAll m pairs with
      | .error error => (.error error, x₁.db)
      | .ok () => queueEnvelope tenant m x₂ db e

theorem captureBytes_eq (m : Moment) (x₁ x₂ : Sight) (db : Db Text Request) (s : Submission)
    (values : List ArtifactValue) (locator : Option Text) (participants : List Participant)
    (acquisition : Option AcquisitionProvenance) :
    captureBytes S tenant m x₁ x₂ db s values locator participants acquisition =
      match prepareBytes S tenant m s values locator participants acquisition with
      | .error error => (.error error, x₁.db)
      | .ok (e, pairs) => submitPrepared tenant m x₁ x₂ db e pairs := by
  unfold captureBytes prepareBytes
  cases referencesOf S values with
  | error error => rfl
  | ok pairs =>
    simp only [bind, Except.bind]
    cases envelope S tenant s (s.capturedAt.getD m.now) (pairs.map (·.2)) locator participants
      acquisition <;> rfl

/-- a submission prepares its request, then runs the statements -/
theorem submit_eq (m : Moment) (x₁ x₂ : Sight) (db : Db Text Request) (s : Submission) :
    submit S tenant m x₁ x₂ db s =
      match prepare S tenant m s with
      | .error error => (.error error, x₁.db)
      | .ok (e, pairs) => submitPrepared tenant m x₁ x₂ db e pairs := by
  unfold submit prepare
  cases s.content with
  | text text locator acquisition =>
    by_cases ht : text.isEmpty = true
    · simp only [captureText, ht, if_true]
    · simp only [captureText, if_neg ht]
      exact captureBytes_eq S tenant m x₁ x₂ db s _ locator [] acquisition
  | items values locator participants acquisition =>
    exact captureBytes_eq S tenant m x₁ x₂ db s values locator participants acquisition
  | uploads references locator participants acquisition =>
    simp only [captureReferences, bind, Except.bind]
    cases envelope S tenant s (s.capturedAt.getD m.now) references locator participants
      acquisition <;> rfl
  | url url =>
    simp only [capturePublicUrl, bind, Except.bind]
    cases acquire S m url with
    | error error => rfl
    | ok a => exact captureBytes_eq S tenant m x₁ x₂ db s [a.1] (some a.2.1) [] (some a.2.2)

/-! ## the time of a capture -/

/-- the envelope with another time of capture -/
def Envelope.capturedAt (e : Envelope) (t : Time) : Envelope :=
  { e with origin := { e.origin with capturedAt := t } }

theorem semantic_capturedAt (e : Envelope) (t : Time) : semantic (e.capturedAt t) = semantic e := rfl

/-- no validator of the origin reads the time of the capture -/
theorem Origin.clean_capturedAt (withoutCapability : Text → Except Text Text) (o : Origin)
    (t : Time) :
    Origin.clean withoutCapability { o with capturedAt := t } =
      (Origin.clean withoutCapability o).map fun p => { p with capturedAt := t } := by
  simp only [Origin.clean, bind, Except.bind]
  cases cleanOptionalText MAX_TITLE_CHARS o.title with
  | error message => rfl
  | ok title =>
    dsimp only
    cases cleanOptionalText MAX_LOCATOR_CHARS o.locator with
    | error message => rfl
    | ok locator =>
      dsimp only
      cases optional withoutCapability locator <;> rfl

theorem Envelope.clean_capturedAt (e : Envelope) (t : Time) :
    Envelope.clean (e.capturedAt t) = (Envelope.clean e).map fun p => p.capturedAt t := by
  simp only [Envelope.clean, Envelope.capturedAt, bind, Except.bind]
  cases cleanIdempotencyKey e.idempotencyKey with
  | error message => rfl
  | ok idempotencyKey =>
    dsimp only
    cases validAudience e.audience with
    | error message => rfl
    | ok audience =>
      dsimp only
      cases captureBytesAreBounded e.artifacts <;> rfl

/-- two envelopes of one submission differ in the time of their capture -/
theorem envelope_capturedAt {s : Submission} {t : Time} {references : List ArtifactRef}
    {locator : Option Text} {participants : List Participant}
    {acquisition : Option AcquisitionProvenance} {e : Envelope}
    (h : envelope S tenant s t references locator participants acquisition = .ok e) (t' : Time) :
    envelope S tenant s t' references locator participants acquisition = .ok (e.capturedAt t') := by
  unfold envelope at h ⊢
  simp only [bind, Except.bind] at h ⊢
  rw [Origin.clean_capturedAt S.withoutCapability
    ⟨s.adapter, t, s.occurredAt, s.title, locator, participants, acquisition⟩ t']
  cases ho : Origin.clean S.withoutCapability
      ⟨s.adapter, t, s.occurredAt, s.title, locator, participants, acquisition⟩ with
  | error message => rw [ho] at h; exact nomatch h
  | ok origin =>
    rw [ho] at h
    simp only [Except.map] at h ⊢
    set e₀ : Envelope := ⟨S.uuid5 (tenant ++ '\x00' :: s.actor.subject ++ '\x00' ::
      s.idempotencyKey), s.idempotencyKey, s.actor, s.audience, origin, references,
      s.intent.getD ⟨none, none⟩⟩ with he₀
    have hclean := Envelope.clean_capturedAt e₀ t'
    cases hc : Envelope.clean e₀ with
    | error message => rw [hc] at h; exact nomatch h
    | ok e₁ =>
      rw [hc] at h hclean
      obtain rfl := Except.ok.inj h
      show validated (Envelope.clean (e₀.capturedAt t')) = _
      rw [hclean]
      rfl

/-- the parts of a submission that its outside decides are the same -/
def SameOutside (m m' : Moment) (s : Submission) : Prop :=
  ∀ url, s.content = .url url → m'.fetched url = m.fetched url ∧ m'.acquiredAt = m.acquiredAt

theorem prepareBytes_capturedAt {m m' : Moment} {s : Submission} {values : List ArtifactValue}
    {locator : Option Text} {participants : List Participant}
    {acquisition : Option AcquisitionProvenance} {e : Envelope}
    {pairs : Option (List (ArtifactValue × ArtifactRef))}
    (h : prepareBytes S tenant m s values locator participants acquisition = .ok (e, pairs)) :
    ∃ t, prepareBytes S tenant m' s values locator participants acquisition =
      .ok (e.capturedAt t, pairs) := by
  refine ⟨s.capturedAt.getD m'.now, ?_⟩
  simp only [prepareBytes, bind, Except.bind] at h ⊢
  cases hr : referencesOf S values with
  | error error => rw [hr] at h; exact nomatch h
  | ok pairs =>
    rw [hr] at h
    dsimp only at h ⊢
    cases he : envelope S tenant s (s.capturedAt.getD m.now) (pairs.map (·.2)) locator participants
        acquisition with
    | error error => rw [he] at h; exact nomatch h
    | ok e₀ =>
      rw [he] at h
      obtain ⟨rfl, rfl⟩ := Prod.mk.inj (Except.ok.inj h)
      rw [envelope_capturedAt S tenant he]
      rfl

/-- a submission made again asks for the same but for the time of the capture -/
theorem prepare_again {m m' : Moment} {s : Submission} {e : Envelope}
    {pairs : Option (List (ArtifactValue × ArtifactRef))} (hsame : SameOutside m m' s)
    (h : prepare S tenant m s = .ok (e, pairs)) :
    ∃ t, prepare S tenant m' s = .ok (e.capturedAt t, pairs) := by
  unfold prepare at h ⊢
  unfold SameOutside at hsame
  cases hc : s.content with
  | text text locator acquisition =>
    rw [hc] at h
    dsimp only at h ⊢
    split at h
    · exact nomatch h
    · rename_i ht
      rw [if_neg ht]
      exact prepareBytes_capturedAt S tenant h
  | items values locator participants acquisition =>
    rw [hc] at h
    exact prepareBytes_capturedAt S tenant h
  | uploads references locator participants acquisition =>
    rw [hc] at h
    simp only [bind, Except.bind] at h ⊢
    refine ⟨s.capturedAt.getD m'.now, ?_⟩
    cases he : envelope S tenant s (s.capturedAt.getD m.now) references locator participants
        acquisition with
    | error error => rw [he] at h; exact nomatch h
    | ok e₀ =>
      rw [he] at h
      obtain ⟨rfl, rfl⟩ := Prod.mk.inj (Except.ok.inj h)
      rw [envelope_capturedAt S tenant he]
      rfl
  | url url =>
    obtain ⟨hf, hat⟩ := hsame url hc
    have hacq : acquire S m' url = acquire S m url := by
      unfold acquire
      rw [hf, hat]
    rw [hc] at h
    simp only [bind, Except.bind] at h ⊢
    rw [hacq]
    cases ha : acquire S m url with
    | error error => rw [ha] at h; exact nomatch h
    | ok a =>
      rw [ha] at h
      exact prepareBytes_capturedAt S tenant h

theorem envelope_prepareBytes {m : Moment} {s : Submission} {values : List ArtifactValue}
    {locator : Option Text} {participants : List Participant}
    {acquisition : Option AcquisitionProvenance} {e : Envelope}
    {pairs : Option (List (ArtifactValue × ArtifactRef))}
    (h : prepareBytes S tenant m s values locator participants acquisition = .ok (e, pairs)) :
    ∃ t references locator participants acquisition,
      envelope S tenant s t references locator participants acquisition = .ok e := by
  simp only [prepareBytes, bind, Except.bind] at h
  split at h
  · exact nomatch h
  · split at h
    · exact nomatch h
    · rename_i e₀ he
      obtain ⟨rfl, -⟩ := Prod.mk.inj (Except.ok.inj h)
      exact ⟨_, _, _, _, _, he⟩

theorem envelope_prepare {m : Moment} {s : Submission} {e : Envelope}
    {pairs : Option (List (ArtifactValue × ArtifactRef))}
    (h : prepare S tenant m s = .ok (e, pairs)) :
    ∃ t references locator participants acquisition,
      envelope S tenant s t references locator participants acquisition = .ok e := by
  unfold prepare at h
  split at h
  · split at h
    · exact nomatch h
    · exact envelope_prepareBytes S tenant h
  · exact envelope_prepareBytes S tenant h
  · simp only [bind, Except.bind] at h
    split at h
    · exact nomatch h
    · rename_i e₀ he
      obtain ⟨rfl, -⟩ := Prod.mk.inj (Except.ok.inj h)
      exact ⟨_, _, _, _, _, he⟩
  · simp only [bind, Except.bind] at h
    split at h
    · exact nomatch h
    · exact envelope_prepareBytes S tenant h

/-- the actor, the key and the audience of a request are those of its submission, cleaned -/
theorem prepare_eq_ok {m : Moment} {s : Submission} {e : Envelope}
    {pairs : Option (List (ArtifactValue × ArtifactRef))}
    (h : prepare S tenant m s = .ok (e, pairs)) :
    e.actor = s.actor ∧ cleanIdempotencyKey s.idempotencyKey = .ok e.idempotencyKey ∧
      validAudience s.audience = .ok e.audience := by
  obtain ⟨t, references, locator, participants, acquisition, he⟩ := envelope_prepare S tenant h
  simp only [envelope, bind, Except.bind] at he
  split at he
  · exact nomatch he
  · rename_i origin ho
    cases hc : Envelope.clean ⟨S.uuid5 (tenant ++ '\x00' :: s.actor.subject ++ '\x00' ::
        s.idempotencyKey), s.idempotencyKey, s.actor, s.audience, origin, references,
        s.intent.getD ⟨none, none⟩⟩ with
    | error message => rw [hc] at he; exact nomatch he
    | ok e₁ =>
      rw [hc] at he
      obtain rfl := Except.ok.inj he
      exact Envelope.clean_eq_ok hc

/-! ## the row of a request -/

/-- the row that holds a capture -/
structure Filed (e : Envelope) (r : Row Request) : Prop where
  tenantId : r.tenantId = tenant
  operation : r.operation = .capture
  submittedBy : r.submittedBy = e.actor.subject
  idempotencyKey : r.idempotencyKey = e.idempotencyKey
  acl : r.acl = e.audience
  request : r.request = .capture e

variable {tenant}

theorem Filed.onward {e : Envelope} {r r' : Row Request} (h : Filed tenant e r)
    (ho : r.Onward r') : Filed tenant e r' where
  tenantId := ho.tenantId.trans h.tenantId
  operation := ho.operation.trans h.operation
  submittedBy := ho.submittedBy.trans h.submittedBy
  idempotencyKey := ho.idempotencyKey.trans h.idempotencyKey
  acl := ho.acl.trans h.acl
  request := ho.request.trans h.request

theorem Filed.back {e : Envelope} {r r' : Row Request} (h : Filed tenant e r')
    (ho : r.Onward r') : Filed tenant e r where
  tenantId := ho.tenantId.symm.trans h.tenantId
  operation := ho.operation.symm.trans h.operation
  submittedBy := ho.submittedBy.symm.trans h.submittedBy
  idempotencyKey := ho.idempotencyKey.symm.trans h.idempotencyKey
  acl := ho.acl.symm.trans h.acl
  request := ho.request.symm.trans h.request

/-- a request under the key of a row is answered by that row, when it asks for the same -/
theorem findCapture_filed {db : Db Text Request} (hk : Keyed db) {id : Text} {r : Row Request}
    {e e' : Envelope} (hr : db.lookup id = some r) (hf : Filed tenant e r)
    (hactor : e'.actor.subject = e.actor.subject) (hkey : e'.idempotencyKey = e.idempotencyKey) :
    findCapture tenant db e' =
      if semantic e = semantic e' then .ok (some ⟨id, r, false⟩)
      else .error (.submissionRejected
        "idempotency key was already used for a different request".toList) := by
  have hby : byIdempotency db tenant e'.actor.subject e'.idempotencyKey = some (id, r) := by
    rw [hactor, hkey, ← hf.tenantId, ← hf.submittedBy, ← hf.idempotencyKey]
    exact byIdempotency_of_lookup hk hr
  have hequiv : equivalentRequest r.request (.capture e') = (semantic e == semantic e') := by
    rw [hf.request]
    rfl
  unfold findCapture findIdempotent
  rw [hby]
  simp only [hequiv, hf.operation, ne_eq, not_true_eq_false, false_or, beq_eq_false_iff_ne]
  by_cases h : semantic e = semantic e'
  · rw [if_neg (not_not_intro h), if_pos h]
  · rw [if_pos h, if_neg h]

/-- before the row is there, no request under its key finds one -/
theorem findCapture_before {db db' : Db Text Request} (ho : Onward db db') (hk : Keyed db')
    {id : Text} {r : Row Request} {e e' : Envelope} (hr : db'.lookup id = some r)
    (hf : Filed tenant e r) (hnone : db.lookup id = none)
    (hactor : e'.actor.subject = e.actor.subject) (hkey : e'.idempotencyKey = e.idempotencyKey) :
    findCapture tenant db e' = .ok none := by
  unfold findCapture findIdempotent
  cases hby : byIdempotency db tenant e'.actor.subject e'.idempotencyKey with
  | none => rfl
  | some found =>
    obtain ⟨k, q⟩ := found
    obtain ⟨hq, ht, hs, hi⟩ := byIdempotency_eq_some hby
    obtain ⟨q', hq', hqq⟩ := ho k q hq
    have hid : k = id := by
      refine hk id k r q' hr hq' ?_ ?_ ?_
      · rw [hqq.tenantId, ht, hf.tenantId]
      · rw [hqq.submittedBy, hs, hactor, hf.submittedBy]
      · rw [hqq.idempotencyKey, hi, hkey, hf.idempotencyKey]
    rw [hid, hnone] at hq
    exact nomatch hq

/-! ## the first submission -/

theorem not_created_of_findCapture {db : Db Text Request} {e : Envelope} {c : Receipt}
    (h : findCapture tenant db e = .ok (some c)) : c.created = false := by
  unfold findCapture findIdempotent at h
  split at h
  · exact nomatch h
  · split at h
    · exact nomatch h
    · rw [← Option.some.inj (Except.ok.inj h)]

theorem look_eq_some {x : Sight} {e : Envelope} {o : Option Receipt}
    (h : look tenant x e = .ok o) :
    refuseClosedLayer x.closed e = .ok () ∧ findCapture tenant x.db e = .ok o := by
  simp only [look, bind, Except.bind] at h
  cases hc : refuseClosedLayer x.closed e with
  | error error => rw [hc] at h; exact nomatch h
  | ok u => rw [hc] at h; exact ⟨rfl, h⟩

/-- a receipt of a new row comes from an `INSERT` that added it -/
theorem created_enqueueCapture {now : Time} {db db' : Db Text Request} {e : Envelope} {id : Text}
    {row : Row Request} (h : enqueueCapture tenant now db e = (.ok ⟨id, row, true⟩, db')) :
    db'.lookup id = some row ∧ Filed tenant e row ∧ ∃ o, insert db e.captureId
      (insertRow tenant .capture e.idempotencyKey e.actor.subject e.audience (.capture e) now) =
        .ok (o, db') := by
  unfold enqueueCapture at h
  split at h
  · rename_i r d hok
    obtain ⟨hc, rfl⟩ := Prod.mk.inj h
    obtain ⟨rfl, rfl, -⟩ := Receipt.mk.inj (Except.ok.inj hc)
    obtain ⟨rfl, rfl, -, -⟩ := insert_eq_ok hok
    exact ⟨AList.lookup_insert db, ⟨rfl, rfl, rfl, rfl, rfl, rfl⟩, _, hok⟩
  · rename_i d hok
    obtain ⟨hc, -⟩ := Prod.mk.inj h
    unfold requiredCapture at hc
    split at hc
    · rename_i c hfind
      rw [Except.ok.inj hc] at hfind
      exact nomatch not_created_of_findCapture hfind
    · exact nomatch hc
    · exact nomatch hc
  · exact nomatch (Prod.mk.inj h).1

/-- `enqueue_capture` on the table: one `INSERT`, or nothing -/
theorem enqueueCapture_db (tenant : Text) (now : Time) (db : Db Text Request) (e : Envelope) :
    (enqueueCapture tenant now db e).2 = db ∨ ∃ o, Queue.insert db e.captureId (insertRow tenant .capture
      e.idempotencyKey e.actor.subject e.audience (.capture e) now) = .ok (o, (enqueueCapture tenant now db e).2) := by
  unfold enqueueCapture
  split
  · next hok => exact Or.inr ⟨_, hok⟩
  · next hok => exact Or.inr ⟨_, hok⟩
  · exact Or.inl rfl

theorem onward_enqueueCapture (tenant : Text) (now : Time) (db : Db Text Request) (e : Envelope) :
    Onward db (enqueueCapture tenant now db e).2 := by
  rcases enqueueCapture_db tenant now db e with heq | ⟨o, hok⟩
  · rw [heq]
    exact Onward.refl db
  · exact onward_insert hok

theorem keyed_enqueueCapture (tenant : Text) (now : Time) {db : Db Text Request} (hk : Keyed db) (e : Envelope) :
    Keyed (enqueueCapture tenant now db e).2 := by
  rcases enqueueCapture_db tenant now db e with heq | ⟨o, hok⟩
  · rw [heq]
    exact hk
  · exact hk.insert hok

/-- a receipt is of the row that was added, or of the one found under the key -/
theorem enqueueCapture_eq_ok {now : Time} {db db' : Db Text Request} {e : Envelope} {receipt : Receipt}
    (h : enqueueCapture tenant now db e = (.ok receipt, db')) :
    (receipt.created = true ∧ receipt.id = e.captureId ∧ ∃ row, db' = db.insert receipt.id row ∧
      Filed tenant e row) ∨
    (receipt.created = false ∧ db' = db ∧ ∃ row, db.lookup receipt.id = some row ∧ row.tenantId = tenant ∧
      row.submittedBy = e.actor.subject ∧ row.idempotencyKey = e.idempotencyKey) := by
  have hdb := h
  unfold enqueueCapture at h
  split at h
  · next row db'' hok =>
    obtain ⟨hc, rfl⟩ := Prod.mk.inj h
    obtain rfl := Except.ok.inj hc
    obtain ⟨-, hfiled, -⟩ := created_enqueueCapture hdb
    obtain ⟨rfl, hinsert, -, -⟩ := insert_eq_ok hok
    exact Or.inl ⟨rfl, rfl, _, hinsert, hfiled⟩
  · next db'' hok =>
    obtain ⟨hc, rfl⟩ := Prod.mk.inj h
    have hsame := insert_eq_nothing hok
    unfold requiredCapture at hc
    split at hc
    · next found hfind =>
      obtain rfl := Except.ok.inj hc
      refine Or.inr ⟨not_created_of_findCapture hfind, hsame, ?_⟩
      unfold findCapture findIdempotent at hfind
      split at hfind
      · exact nomatch hfind
      · next id row hby =>
        split at hfind
        · exact nomatch hfind
        · rw [← Option.some.inj (Except.ok.inj hfind)]
          exact ⟨row, hsame ▸ byIdempotency_eq_some hby⟩
    · exact nomatch hc
    · exact nomatch hc
  · exact nomatch (Prod.mk.inj h).1

theorem created_queueEnvelope {m : Moment} {x : Sight} {db db' : Db Text Request} {e : Envelope}
    {id : Text} {row : Row Request}
    (h : queueEnvelope tenant m x db e = (.ok ⟨id, row, true⟩, db')) :
    enqueueCapture tenant m.insertedAt db e = (.ok ⟨id, row, true⟩, db') := by
  unfold queueEnvelope at h
  split at h
  · exact nomatch (Prod.mk.inj h).1
  · rename_i c hl
    rw [Except.ok.inj (Prod.mk.inj h).1] at hl
    exact nomatch not_created_of_findCapture (look_eq_some hl).2
  · split at h
    · exact h
    · exact nomatch (Prod.mk.inj h).1

theorem created_submit {m : Moment} {x₁ x₂ : Sight} {db db' : Db Text Request} {s : Submission}
    {id : Text} {row : Row Request}
    (h : submit S tenant m x₁ x₂ db s = (.ok ⟨id, row, true⟩, db')) :
    ∃ e pairs, prepare S tenant m s = .ok (e, pairs) ∧
      enqueueCapture tenant m.insertedAt db e = (.ok ⟨id, row, true⟩, db') := by
  rw [submit_eq] at h
  split at h
  · exact nomatch (Prod.mk.inj h).1
  · rename_i e pairs hp
    refine ⟨e, pairs, hp, ?_⟩
    cases pairs with
    | none => exact created_queueEnvelope h
    | some pairs =>
      unfold submitPrepared at h
      dsimp only at h
      split at h
      · exact nomatch (Prod.mk.inj h).1
      · rename_i c hl
        rw [Except.ok.inj (Prod.mk.inj h).1] at hl
        exact nomatch not_created_of_findCapture (look_eq_some hl).2
      · split at h
        · exact nomatch (Prod.mk.inj h).1
        · exact created_queueEnvelope h

/-! ## a submission under a key that is taken -/

theorem look_filed {x : Sight} {db : Db Text Request} (ho : Onward x.db db) (hk : Keyed db)
    {id : Text} {r : Row Request} {e e' : Envelope} (hr : db.lookup id = some r)
    (hf : Filed tenant e r) (hactor : e'.actor.subject = e.actor.subject)
    (hkey : e'.idempotencyKey = e.idempotencyKey) (hopen : refuseClosedLayer x.closed e' = .ok ()) :
    (x.db.lookup id = none ∧ look tenant x e' = .ok none) ∨
      ∃ q, x.db.lookup id = some q ∧ look tenant x e' =
        if semantic e = semantic e' then .ok (some ⟨id, q, false⟩)
        else .error (.submissionRejected
          "idempotency key was already used for a different request".toList) := by
  have hlook : look tenant x e' = findCapture tenant x.db e' := by
    simp only [look, hopen, bind, Except.bind]
  rw [hlook]
  cases hq : x.db.lookup id with
  | none => exact Or.inl ⟨rfl, findCapture_before ho hk hr hf hq hactor hkey⟩
  | some q =>
    obtain ⟨q', hq', hqq⟩ := ho id q hq
    obtain rfl := Option.some.inj (hr.symm.trans hq')
    exact Or.inr ⟨q, rfl, findCapture_filed (hk.of_onward ho) hq (hf.back hqq) hactor hkey⟩

/-- an `INSERT` that meets the row leaves the table and reads the row -/
theorem enqueueCapture_filed {now : Time} {db : Db Text Request} (hk : Keyed db) {id : Text}
    {r : Row Request} {e e' : Envelope} (hr : db.lookup id = some r) (hf : Filed tenant e r)
    (hactor : e'.actor.subject = e.actor.subject) (hkey : e'.idempotencyKey = e.idempotencyKey) :
    enqueueCapture tenant now db e' =
      (if semantic e = semantic e' then .ok ⟨id, r, false⟩
        else .error (.submissionRejected
          "idempotency key was already used for a different request".toList), db) := by
  have hby : byIdempotency db tenant e'.actor.subject e'.idempotencyKey = some (id, r) := by
    rw [hactor, hkey, ← hf.tenantId, ← hf.submittedBy, ← hf.idempotencyKey]
    exact byIdempotency_of_lookup hk hr
  have hins : insert db e'.captureId (insertRow tenant .capture e'.idempotencyKey e'.actor.subject
      e'.audience (.capture e') now) = .ok (none, db) := by
    simp only [Queue.insert, insertRow, hby]
  unfold enqueueCapture
  rw [hins]
  simp only [requiredCapture, findCapture_filed hk hr hf hactor hkey]
  by_cases h : semantic e = semantic e'
  · rw [if_pos h, if_pos h]
  · rw [if_neg h, if_neg h]

/-- the answers a key that is taken allows -/
def Answered (id : Text) (e e' : Envelope) (out : Except CaptureError Receipt × Db Text Request) :
    Prop :=
  (∃ error, out.1 = .error error) ∨
    semantic e = semantic e' ∧ ∃ q, out.1 = .ok ⟨id, q, false⟩ ∧ out.2.lookup id = some q

theorem queueEnvelope_filed {m : Moment} {x : Sight} {db : Db Text Request} (ho : Onward x.db db)
    (hk : Keyed db) {id : Text} {r : Row Request} {e e' : Envelope} (hr : db.lookup id = some r)
    (hf : Filed tenant e r) (hactor : e'.actor.subject = e.actor.subject)
    (hkey : e'.idempotencyKey = e.idempotencyKey) :
    ((queueEnvelope tenant m x db e').2 = x.db ∨ (queueEnvelope tenant m x db e').2 = db) ∧
      Answered id e e' (queueEnvelope tenant m x db e') := by
  cases hopen : refuseClosedLayer x.closed e' with
  | error error =>
    have hlook : look tenant x e' = .error error := by
      simp only [look, hopen, bind, Except.bind]
    unfold queueEnvelope
    rw [hlook]
    exact ⟨Or.inl rfl, Or.inl ⟨error, rfl⟩⟩
  | ok u =>
    unfold queueEnvelope
    rcases look_filed ho hk hr hf hactor hkey hopen with ⟨-, hlook⟩ | ⟨q, hq, hlook⟩
    · rw [hlook, enqueueCapture_filed hk hr hf hactor hkey]
      dsimp only
      split
      · refine ⟨Or.inr rfl, ?_⟩
        by_cases h : semantic e = semantic e'
        · rw [if_pos h]
          exact Or.inr ⟨h, r, rfl, hr⟩
        · rw [if_neg h]
          exact Or.inl ⟨_, rfl⟩
      · exact ⟨Or.inl rfl, Or.inl ⟨_, rfl⟩⟩
    · rw [hlook]
      by_cases h : semantic e = semantic e'
      · rw [if_pos h]
        exact ⟨Or.inl rfl, Or.inr ⟨h, q, rfl, hq⟩⟩
      · rw [if_neg h]
        exact ⟨Or.inl rfl, Or.inl ⟨_, rfl⟩⟩

theorem submitPrepared_filed {m : Moment} {x₁ x₂ : Sight} {db : Db Text Request}
    (h₁ : Onward x₁.db db) (h₂ : Onward x₂.db db) (hk : Keyed db) {id : Text} {r : Row Request}
    {e e' : Envelope} (hr : db.lookup id = some r) (hf : Filed tenant e r)
    (hactor : e'.actor.subject = e.actor.subject) (hkey : e'.idempotencyKey = e.idempotencyKey)
    (pairs : Option (List (ArtifactValue × ArtifactRef))) :
    ((submitPrepared tenant m x₁ x₂ db e' pairs).2 = x₁.db ∨
      (submitPrepared tenant m x₁ x₂ db e' pairs).2 = x₂.db ∨
      (submitPrepared tenant m x₁ x₂ db e' pairs).2 = db) ∧
      Answered id e e' (submitPrepared tenant m x₁ x₂ db e' pairs) := by
  cases pairs with
  | none =>
    obtain ⟨hdb, hans⟩ := queueEnvelope_filed (m := m) h₁ hk hr hf hactor hkey
    exact ⟨hdb.imp (fun h => h) Or.inr, hans⟩
  | some pairs =>
    obtain ⟨hdb, hans⟩ := queueEnvelope_filed (m := m) h₂ hk hr hf hactor hkey
    unfold submitPrepared
    dsimp only
    cases hopen : refuseClosedLayer x₁.closed e' with
    | error error =>
      have hlook : look tenant x₁ e' = .error error := by
        simp only [look, hopen, bind, Except.bind]
      rw [hlook]
      exact ⟨Or.inl rfl, Or.inl ⟨error, rfl⟩⟩
    | ok u =>
      rcases look_filed h₁ hk hr hf hactor hkey hopen with ⟨-, hlook⟩ | ⟨q, hq, hlook⟩
      · rw [hlook]
        dsimp only
        split
        · exact ⟨Or.inl rfl, Or.inl ⟨_, rfl⟩⟩
        · exact ⟨Or.inr hdb, hans⟩
      · rw [hlook]
        by_cases h : semantic e = semantic e'
        · rw [if_pos h]
          exact ⟨Or.inl rfl, Or.inr ⟨h, q, rfl, hq⟩⟩
        · rw [if_neg h]
          exact ⟨Or.inl rfl, Or.inl ⟨_, rfl⟩⟩

/-! ## a submission made again -/

theorem refuseClosedLayer_of_open {closed : Text → Bool} {e : Envelope} {layer : Text}
    (hl : Layers.layerOfAcl e.audience = some layer)
    (ho : layer = Layers.PUBLIC ∨ closed layer = false) : refuseClosedLayer closed e = .ok () := by
  unfold refuseClosedLayer
  rw [hl]
  rcases ho with h | h
  · simp [h]
  · simp [h]

theorem refuseClosedLayer_of_closed {closed : Text → Bool} {e : Envelope} {layer : Text}
    (hl : Layers.layerOfAcl e.audience = some layer) (hp : layer ≠ Layers.PUBLIC)
    (hc : closed layer = true) :
    ∃ message, refuseClosedLayer closed e = .error (.layerErasing message) := by
  unfold refuseClosedLayer
  rw [hl]
  simp [hc, hp]

/-- the evidence store keeps what it is given -/
def Moment.Keeps (m : Moment) (e : Envelope) : Prop :=
  (∀ data, m.put data = .ok (contentRef (S.sha256 data))) ∧
    ∀ a ∈ e.artifacts, m.verify a.blobRef a.sha256 a.bytes = true

theorem blobRef_referenceOf {v : ArtifactValue × Text} {p : ArtifactValue × ArtifactRef}
    (h : referenceOf S v = .ok p) : p.2.blobRef = contentRef (S.sha256 p.1.data) := by
  unfold referenceOf at h
  dsimp only at h
  split at h
  · cases hc : ArtifactRef.clean S.runtime S.withoutCapability ⟨contentRef (S.sha256 v.1.data),
        S.sha256 v.1.data, v.1.data.length, v.2, v.1.originalName, v.1.sourceUrl⟩ with
    | error message => rw [hc] at h; exact nomatch h
    | ok reference =>
      rw [hc] at h
      obtain rfl := Except.ok.inj h
      exact ArtifactRef.blobRef_clean hc
  · exact nomatch h

theorem blobRef_mapM {vs : List (ArtifactValue × Text)} {ps : List (ArtifactValue × ArtifactRef)}
    (h : vs.mapM (referenceOf S) = .ok ps) :
    ∀ p ∈ ps, p.2.blobRef = contentRef (S.sha256 p.1.data) := by
  induction vs generalizing ps with
  | nil =>
    obtain rfl := Except.ok.inj h
    exact fun p hp => absurd hp List.not_mem_nil
  | cons v vs ih =>
    rw [List.mapM_cons] at h
    simp only [bind, Except.bind] at h
    cases hv : referenceOf S v with
    | error error => rw [hv] at h; exact nomatch h
    | ok p =>
      rw [hv] at h
      dsimp only at h
      cases hvs : vs.mapM (referenceOf S) with
      | error error => rw [hvs] at h; exact nomatch h
      | ok qs =>
        rw [hvs] at h
        obtain rfl := Except.ok.inj h
        intro q hq
        rcases List.mem_cons.mp hq with rfl | hq
        · exact blobRef_referenceOf S hv
        · exact ih hvs q hq

theorem blobRef_referencesOf {values : List ArtifactValue}
    {ps : List (ArtifactValue × ArtifactRef)} (h : referencesOf S values = .ok ps) :
    ∀ p ∈ ps, p.2.blobRef = contentRef (S.sha256 p.1.data) := by
  simp only [referencesOf, bind, Except.bind] at h
  split at h
  · cases h
  · split at h
    · cases h
    · split at h
      · cases h
      · exact blobRef_mapM S h

theorem blobRef_prepareBytes {m : Moment} {s : Submission} {values : List ArtifactValue}
    {locator : Option Text} {participants : List Participant}
    {acquisition : Option AcquisitionProvenance} {e : Envelope}
    {ps : List (ArtifactValue × ArtifactRef)}
    (h : prepareBytes S tenant m s values locator participants acquisition = .ok (e, some ps)) :
    ∀ p ∈ ps, p.2.blobRef = contentRef (S.sha256 p.1.data) := by
  simp only [prepareBytes, bind, Except.bind] at h
  cases hr : referencesOf S values with
  | error error => rw [hr] at h; exact nomatch h
  | ok pairs =>
    rw [hr] at h
    dsimp only at h
    split at h
    · exact nomatch h
    · obtain ⟨-, hps⟩ := Prod.mk.inj (Except.ok.inj h)
      obtain rfl := Option.some.inj hps
      exact blobRef_referencesOf S hr

/-- the bytes a submission stores are stored under the references it sends -/
theorem blobRef_prepare {m : Moment} {s : Submission} {e : Envelope}
    {ps : List (ArtifactValue × ArtifactRef)} (h : prepare S tenant m s = .ok (e, some ps)) :
    ∀ p ∈ ps, p.2.blobRef = contentRef (S.sha256 p.1.data) := by
  unfold prepare at h
  split at h
  · split at h
    · exact nomatch h
    · exact blobRef_prepareBytes S h
  · exact blobRef_prepareBytes S h
  · simp only [bind, Except.bind] at h
    split at h
    · exact nomatch h
    · exact nomatch (Prod.mk.inj (Except.ok.inj h)).2
  · simp only [bind, Except.bind] at h
    split at h
    · exact nomatch h
    · exact blobRef_prepareBytes S h

theorem storeAll_keeps {m : Moment} {e : Envelope} (hm : m.Keeps S e)
    {ps : List (ArtifactValue × ArtifactRef)}
    (h : ∀ p ∈ ps, p.2.blobRef = contentRef (S.sha256 p.1.data)) : storeAll m ps = .ok () := by
  induction ps with
  | nil => rfl
  | cons p ps ih =>
    obtain ⟨v, reference⟩ := p
    have hp : reference.blobRef = contentRef (S.sha256 v.data) := h (v, reference) List.mem_cons_self
    simp only [storeAll, bind, Except.bind, hm.1 v.data, hp, bne_self_eq_false, if_false,
      Bool.false_eq_true]
    exact ih fun q hq => h q (List.mem_cons_of_mem _ hq)

theorem queueEnvelope_same {m : Moment} {x : Sight} {db : Db Text Request} (ho : Onward x.db db)
    (hk : Keyed db) {id : Text} {r : Row Request} {e : Envelope} {t : Time}
    (hr : db.lookup id = some r) (hf : Filed tenant e r)
    (hopen : refuseClosedLayer x.closed (e.capturedAt t) = .ok ())
    (hm : (∃ q, x.db.lookup id = some q) ∨ m.Keeps S e) :
    ∃ q, (queueEnvelope tenant m x db (e.capturedAt t)).1 = .ok ⟨id, q, false⟩ := by
  unfold queueEnvelope
  have hactor : (e.capturedAt t).actor.subject = e.actor.subject := rfl
  have hkey : (e.capturedAt t).idempotencyKey = e.idempotencyKey := rfl
  rcases look_filed ho hk hr hf hactor hkey hopen with ⟨hnone, hlook⟩ | ⟨q, -, hlook⟩
  · rw [hlook]
    dsimp only
    have hkeeps : m.Keeps S e := by
      rcases hm with ⟨q, hq⟩ | hkeeps
      · rw [hnone] at hq; exact nomatch hq
      · exact hkeeps
    have hall : ((e.capturedAt t).artifacts.all fun a => m.verify a.blobRef a.sha256 a.bytes) =
        true := List.all_eq_true.mpr hkeeps.2
    rw [if_pos hall, enqueueCapture_filed hk hr hf hactor hkey]
    exact ⟨r, if_pos (semantic_capturedAt e t).symm⟩
  · rw [hlook, if_pos (semantic_capturedAt e t).symm]
    exact ⟨q, rfl⟩

theorem submitPrepared_same {m : Moment} {x₁ x₂ : Sight} {db : Db Text Request}
    (h₁ : Onward x₁.db db) (h₂ : Onward x₂.db db) (hk : Keyed db) {id : Text} {r : Row Request}
    {e : Envelope} {t : Time} (hr : db.lookup id = some r) (hf : Filed tenant e r)
    (hopen₁ : refuseClosedLayer x₁.closed (e.capturedAt t) = .ok ())
    (hopen₂ : refuseClosedLayer x₂.closed (e.capturedAt t) = .ok ())
    {pairs : Option (List (ArtifactValue × ArtifactRef))}
    (hpairs : ∀ ps, pairs = some ps → ∀ p ∈ ps, p.2.blobRef = contentRef (S.sha256 p.1.data))
    (hm : (∃ q, x₁.db.lookup id = some q) ∨ m.Keeps S e) :
    ∃ q, (submitPrepared tenant m x₁ x₂ db (e.capturedAt t) pairs).1 = .ok ⟨id, q, false⟩ := by
  cases pairs with
  | none => exact queueEnvelope_same S h₁ hk hr hf hopen₁ hm
  | some ps =>
    unfold submitPrepared
    dsimp only
    have hactor : (e.capturedAt t).actor.subject = e.actor.subject := rfl
    have hkey : (e.capturedAt t).idempotencyKey = e.idempotencyKey := rfl
    rcases look_filed h₁ hk hr hf hactor hkey hopen₁ with ⟨hnone, hlook⟩ | ⟨q, -, hlook⟩
    · have hkeeps : m.Keeps S e := by
        rcases hm with ⟨q, hq⟩ | hkeeps
        · rw [hnone] at hq; exact nomatch hq
        · exact hkeeps
      rw [hlook, storeAll_keeps S hkeeps (hpairs ps rfl)]
      exact queueEnvelope_same S h₂ hk hr hf hopen₂ (Or.inr hkeeps)
    · rw [hlook, if_pos (semantic_capturedAt e t).symm]
      exact ⟨q, rfl⟩

/-- a submission to a layer that is closed when it looks first -/
theorem refused_submitPrepared {m : Moment} {x₁ x₂ : Sight} {db : Db Text Request} {e : Envelope}
    {error : CaptureError} (h : refuseClosedLayer x₁.closed e = .error error)
    {pairs : Option (List (ArtifactValue × ArtifactRef))} :
    (submitPrepared tenant m x₁ x₂ db e pairs).1 = .error error := by
  have hlook : look tenant x₁ e = .error error := by
    simp only [look, h, bind, Except.bind]
  cases pairs with
  | none =>
    unfold submitPrepared queueEnvelope
    dsimp only
    rw [hlook]
  | some ps =>
    unfold submitPrepared
    dsimp only
    rw [hlook]

variable {π : Type*} [DecidableEq π]

/-- the erasures and the rows of a state of the queue -/
def sight (tenant : Text) (w : Writers.World Text π Request) : Sight :=
  ⟨w.env.closed tenant, w.db⟩

theorem keyed_run {env : Env} {w : Writers.World Text π Request}
    {as : List (Writers.Action Text π Request)}
    (h : Runs.exec Writers.step (Writers.init env) as = some w) : Keyed w.db :=
  Writers.keyed_exec keyed_empty h

/-- **Submitting again.**  A submission has queued a row; another one of the same actor under its key
reads two later states of the queue and inserts in a third.  Whatever has happened to the row, it
writes nothing, and a request with other artifacts, audience or intent is refused.  The same request
gets that row back while its layer is not being erased, and is refused while it is; the bytes of a
request that is not queued yet when it looks must first be stored. -/
theorem resubmitted {env : Env} {w w₁ w₂ w₃ : Writers.World Text π Request}
    {before after l₁ l₂ : List (Writers.Action Text π Request)} {m : Moment} {a₁ a₂ : Sight}
    {s : Submission} {id : Text} {row : Row Request} {db : Db Text Request}
    (hw : Runs.exec Writers.step (Writers.init env) before = some w)
    (hfirst : submit S tenant m a₁ a₂ w.db s = (.ok ⟨id, row, true⟩, db))
    (hafter : Runs.exec Writers.step { w with db := db } after = some w₃)
    (h₁ : Runs.exec Writers.step w₁ l₁ = some w₂) (h₂ : Runs.exec Writers.step w₂ l₂ = some w₃) :
    ∃ e, requestOf S tenant m s = .ok e ∧ row.request = .capture e ∧
      (∀ m' s', s'.actor.subject = s.actor.subject →
        cleanIdempotencyKey s'.idempotencyKey = cleanIdempotencyKey s.idempotencyKey →
        let out := submit S tenant m' (sight tenant w₁) (sight tenant w₂) w₃.db s'
        (out.2 = w₁.db ∨ out.2 = w₂.db ∨ out.2 = w₃.db) ∧
        ∀ e', requestOf S tenant m' s' = .ok e' →
          e'.artifacts ≠ e.artifacts ∨ e'.audience ≠ e.audience ∨ e'.intent ≠ e.intent →
          ∃ error, out.1 = .error error) ∧
      ∀ m', SameOutside m m' s →
        let out := submit S tenant m' (sight tenant w₁) (sight tenant w₂) w₃.db s
        ∃ layer, Layers.layerOfAcl e.audience = some layer ∧
          ((layer = Layers.PUBLIC ∨
              w₁.env.closed tenant layer = false ∧ w₂.env.closed tenant layer = false) →
            (∃ q, w₁.db.lookup id = some q) ∨ m'.Keeps S e →
            ∃ q, out.1 = .ok ⟨id, q, false⟩ ∧ out.2.lookup id = some q) ∧
          (layer ≠ Layers.PUBLIC → w₁.env.closed tenant layer = true →
            ∃ message, out.1 = .error (.layerErasing message)) := by
  obtain ⟨e, pairs, hp, henq⟩ := created_submit S hfirst
  obtain ⟨hrow, hfiled, o, hins⟩ := created_enqueueCapture henq
  -- the row in the table the second `INSERT` meets
  have hkeyed : Keyed w₃.db := Writers.keyed_exec ((keyed_run hw).insert hins) hafter
  obtain ⟨r, hr, hrow_r⟩ := Writers.onward_exec hafter id row hrow
  have hf : Filed tenant e r := hfiled.onward hrow_r
  have ho₂ : Onward w₂.db w₃.db := Writers.onward_exec h₂
  have ho₁ : Onward w₁.db w₃.db := (Writers.onward_exec h₁).trans ho₂
  have hreq := prepare_eq_ok S tenant hp
  -- every submission of the actor under the key
  have hany : ∀ m' s' e' pairs', prepare S tenant m' s' = .ok (e', pairs') →
      s'.actor.subject = s.actor.subject →
      cleanIdempotencyKey s'.idempotencyKey = cleanIdempotencyKey s.idempotencyKey →
      let out := submit S tenant m' (sight tenant w₁) (sight tenant w₂) w₃.db s'
      (out.2 = w₁.db ∨ out.2 = w₂.db ∨ out.2 = w₃.db) ∧ Answered id e e' out := by
    intro m' s' e' pairs' hp' hactor hkey
    have hreq' := prepare_eq_ok S tenant hp'
    rw [submit_eq, hp']
    refine submitPrepared_filed ho₁ ho₂ hkeyed hr hf ?_ ?_ pairs'
    · rw [hreq'.1, hreq.1, hactor]
    · have hk : Except.ok e'.idempotencyKey = (Except.ok e.idempotencyKey : Except Text Text) := by
        rw [← hreq'.2.1, ← hreq.2.1, hkey]
      exact Except.ok.inj hk
  refine ⟨e, ?_, hfiled.request, ?_, ?_⟩
  · unfold requestOf
    rw [hp]
    rfl
  · intro m' s' hactor hkey
    cases hp' : prepare S tenant m' s' with
    | error error =>
      rw [submit_eq, hp']
      exact ⟨Or.inl rfl, fun _ _ _ => ⟨error, rfl⟩⟩
    | ok p =>
      obtain ⟨e₁, pairs'⟩ := p
      obtain ⟨hdb, hans⟩ := hany m' s' e₁ pairs' hp' hactor hkey
      refine ⟨hdb, fun e' he' hdiff => ?_⟩
      have he : e₁ = e' := by
        unfold requestOf at he'
        rw [hp'] at he'
        exact Except.ok.inj he'
      subst he
      rcases hans with herr | ⟨hsem, -⟩
      · exact herr
      · have hparts : e₁.artifacts = e.artifacts ∧ e₁.audience = e.audience ∧
            e₁.intent = e.intent := by
          obtain ⟨-, -, -, haudience, -, hartifacts, hintent⟩ := Envelope.mk.inj hsem
          exact ⟨hartifacts.symm, haudience.symm, hintent.symm⟩
        rcases hdiff with h | h | h
        · exact absurd hparts.1 h
        · exact absurd hparts.2.1 h
        · exact absurd hparts.2.2 h
  · intro m' hsame
    obtain ⟨layer, hlayer⟩ := layerOfAcl_validAudience hreq.2.2
    obtain ⟨t, hp'⟩ := prepare_again S tenant hsame hp
    refine ⟨layer, hlayer, fun hopen hstored => ?_, fun hpublic hclosed => ?_⟩
    · obtain ⟨-, hans⟩ := hany m' s (e.capturedAt t) pairs hp' rfl rfl
      have hok : ∃ q, (submit S tenant m' (sight tenant w₁) (sight tenant w₂) w₃.db s).1 =
          .ok ⟨id, q, false⟩ := by
        have hpairs : ∀ ps, pairs = some ps →
            ∀ p ∈ ps, p.2.blobRef = contentRef (S.sha256 p.1.data) := by
          rintro ps rfl
          exact blobRef_prepare S hp
        have hopen₁ : refuseClosedLayer (w₁.env.closed tenant) (e.capturedAt t) = .ok () :=
          refuseClosedLayer_of_open hlayer (hopen.imp (fun h => h) And.left)
        have hopen₂ : refuseClosedLayer (w₂.env.closed tenant) (e.capturedAt t) = .ok () :=
          refuseClosedLayer_of_open hlayer (hopen.imp (fun h => h) And.right)
        rw [submit_eq, hp']
        exact submitPrepared_same S ho₁ ho₂ hkeyed hr hf hopen₁ hopen₂ hpairs hstored
      obtain ⟨q, hq⟩ := hok
      rcases hans with ⟨error, herr⟩ | ⟨-, q', hq', hlook⟩
      · rw [hq] at herr
        exact nomatch herr
      · exact ⟨q', hq', hlook⟩
    · have hrefuse : ∃ message, refuseClosedLayer (sight tenant w₁).closed (e.capturedAt t) =
          .error (.layerErasing message) := refuseClosedLayer_of_closed hlayer hpublic hclosed
      obtain ⟨message, hrefuse⟩ := hrefuse
      rw [submit_eq, hp']
      exact ⟨message, refused_submitPrepared hrefuse⟩

end

/-! ## a note to a layer -/

/-- services that answer without looking: one digest, no capabilities in URLs -/
def plainServices : Services where
  runtime := ascii
  withoutCapability := .ok
  detectMedia := fun _ declared _ => .ok (declared.getD MEDIA_TEXT)
  sha256 := fun _ => List.replicate 64 'a'
  encode := fun t => t.map fun c => c.toNat.toUInt8
  uuid5 := id

def plainMoment (now : Time) : Moment where
  now := now
  acquiredAt := now
  insertedAt := now
  fetched := fun _ => .error (.fetch [])
  put := fun _ => .ok (contentRef (List.replicate 64 'a'))
  verify := fun _ _ _ => true

def note : Submission where
  actor := ⟨"ada".toList, "Ada".toList⟩
  audience := some ["team".toList]
  adapter := .mcp
  idempotencyKey := "k1".toList
  title := none
  occurredAt := none
  capturedAt := none
  intent := none
  content := .text "hello".toList none none

def start : Writers.World Text Bool Request := Writers.init Writers.openEnv

def firstNote : Except CaptureError Receipt × Db Text Request :=
  submit plainServices ['t'] (plainMoment 1) (sight ['t'] start) (sight ['t'] start) start.db note

def laterNote (w : Writers.World Text Bool Request) : Except CaptureError Receipt × Db Text Request :=
  submit plainServices ['t'] (plainMoment 9) (sight ['t'] w) (sight ['t'] w) w.db note

def noteId : Text := "t\x00ada\x00k1".toList

def isCreated : Except CaptureError Receipt → Bool
  | .ok receipt => receipt.created && receipt.id == noteId
  | .error _ => false

theorem created_of_isCreated {out : Except CaptureError Receipt × Db Text Request}
    (h : isCreated out.1 = true) : ∃ row, out = (.ok ⟨noteId, row, true⟩, out.2) := by
  obtain ⟨answer, db⟩ := out
  cases answer with
  | error error => exact nomatch h
  | ok receipt =>
    obtain ⟨id, row, created⟩ := receipt
    simp only [isCreated, Bool.and_eq_true, beq_iff_eq] at h
    obtain ⟨rfl, rfl⟩ := h
    exact ⟨row, rfl⟩

theorem firstNote_created : ∃ row, firstNote = (.ok ⟨noteId, row, true⟩, firstNote.2) :=
  created_of_isCreated (by decide +kernel)

/-- a writer takes the note before it is submitted again -/
theorem resubmitted_note :
    ∃ w, Runs.exec Writers.step { start with db := firstNote.2 } [.trySweep true,
        .sweep true 2 900 100 [], .endSweep true, .claim true noteId 3 4 60] = some w ∧
      ∃ q, (laterNote w).1 = .ok ⟨noteId, q, false⟩ ∧ (laterNote w).2.lookup noteId = some q := by
  have hrun : (Runs.exec Writers.step { start with db := firstNote.2 } [.trySweep true,
      .sweep true 2 900 100 [], .endSweep true, .claim true noteId 3 4 60]).any (fun w =>
        (w.db.lookup noteId).isSome && !w.env.closed ['t'] "team".toList) = true := by
    decide +kernel
  obtain ⟨w, hw, hrow⟩ := (Option.any_eq_true _ _).mp hrun
  rw [Bool.and_eq_true, Option.isSome_iff_exists, Bool.not_eq_true'] at hrow
  obtain ⟨row, hfirst⟩ := firstNote_created
  have hstart : Runs.exec Writers.step (Writers.init Writers.openEnv) [] = some start := rfl
  have hstay : Runs.exec Writers.step w [] = some w := rfl
  obtain ⟨e, he, -, -, hagain⟩ := resubmitted plainServices hstart hfirst hw hstay hstay
  have haudience : e.audience = some ["team".toList] := by
    have hparts : (requestOf plainServices ['t'] (plainMoment 1) note).toOption.map
        Envelope.audience = some (some ["team".toList]) := by decide +kernel
    rw [he] at hparts
    exact Option.some.inj hparts
  obtain ⟨layer, hlayer, hsame, -⟩ := hagain (plainMoment 9) (fun _ h => nomatch h)
  refine ⟨w, hw, hsame (Or.inr ?_) (Or.inl hrow.1)⟩
  rw [haudience] at hlayer
  obtain rfl : "team".toList = layer := Option.some.inj hlayer
  exact ⟨hrow.2, hrow.2⟩

/-- the same note while its layer is being erased -/
theorem not_resubmitted_while_erasing :
    ∃ w row, firstNote = (.ok ⟨noteId, row, true⟩, firstNote.2) ∧
      Runs.exec Writers.step { start with db := firstNote.2 }
        [.environment ⟨fun _ => true, fun _ _ => true⟩] = some w ∧
      ∃ error, (laterNote w).1 = .error error := by
  obtain ⟨row, hfirst⟩ := firstNote_created
  refine ⟨_, row, hfirst, rfl, ?_⟩
  have hno : (laterNote { start with
      db := firstNote.2
      env := ⟨fun _ => true, fun _ _ => true⟩ }).1.toOption.isSome = false := by decide +kernel
  cases h : (laterNote { start with
      db := firstNote.2
      env := ⟨fun _ => true, fun _ _ => true⟩ }).1 with
  | error error => exact ⟨error, rfl⟩
  | ok receipt =>
    rw [h] at hno
    exact nomatch hno

end Capture
