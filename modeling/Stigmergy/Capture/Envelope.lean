import Mathlib.Data.List.Forall2
import Stigmergy.Kernel.Layers
import Stigmergy.Lib.Checks

/-!
# Capture envelopes

The provenance a capture is filed with, and the checks of the models in `capture/schema.py` that an
envelope goes through when it is built.

* `Origin`, `ArtifactRef`, `Intent`, `Envelope`   the models;
* `Origin.clean`, `ArtifactRef.clean`, `Envelope.clean`   their validators, in the order they run;
* `AcquisitionProvenance.clean`   the validators of a fetched URL's provenance;
* `Envelope.validate`   an envelope with all its parts, as the schema accepts it.
-/

set_option linter.unusedSectionVars false

namespace Capture

def MAX_ARTIFACT_BYTES : ℕ := 50 * 1024 * 1024
def MAX_CAPTURE_BYTES : ℕ := 50 * 1024 * 1024
def MAX_ARTIFACTS : ℕ := 20
def MAX_IDEMPOTENCY_KEY_CHARS : ℕ := 200
def MAX_TITLE_CHARS : ℕ := 500
def MAX_LOCATOR_CHARS : ℕ := 4096
def MAX_NAME_CHARS : ℕ := 500

def MEDIA_TEXT : Text := "text/plain".toList

def SUPPORTED_MEDIA_TYPES : List Text :=
  [MEDIA_TEXT, "text/markdown".toList, "text/html".toList, "application/pdf".toList,
    "application/vnd.openxmlformats-officedocument.wordprocessingml.document".toList,
    "application/vnd.openxmlformats-officedocument.presentationml.presentation".toList,
    "image/png".toList, "image/jpeg".toList,
    "application/vnd.stigmergy.slack-thread+json".toList]

inductive Adapter where
  | mcp | slack | admin
deriving DecidableEq, Repr

/-- a date, or an instant in UTC -/
inductive Occurred where
  | date (day : Text)
  | instant (t : Time)
deriving DecidableEq

structure Actor where
  subject : Text
  displayName : Text
deriving DecidableEq

structure Participant where
  subject : Option Text
  displayName : Text
deriving DecidableEq

structure AcquisitionProvenance where
  originalUrl : Text
  finalUrl : Text
  acquiredAt : Time
  driveFileId : Option Text
  driveMediaType : Option Text
  exportMediaType : Option Text
deriving DecidableEq

structure Origin where
  adapter : Adapter
  capturedAt : Time
  occurredAt : Option Occurred
  title : Option Text
  locator : Option Text
  participants : List Participant
  acquisition : Option AcquisitionProvenance
deriving DecidableEq

structure ArtifactRef where
  blobRef : Text
  sha256 : Text
  bytes : ℕ
  mediaType : Text
  originalName : Option Text
  sourceUrl : Option Text
deriving DecidableEq

structure Intent where
  resolutionOf : Option Text
  rationale : Option Text
deriving DecidableEq

structure Envelope where
  captureId : Text
  idempotencyKey : Text
  actor : Actor
  audience : Option (List Text)
  origin : Origin
  artifacts : List ArtifactRef
  intent : Intent
deriving DecidableEq

section
variable (R : Runtime) (withoutCapability : Text → Except Text Text)

def tooLong (limit : ℕ) (t : Text) : Except Text Unit :=
  if limit < t.length then .error "string is too long".toList else .ok ()

/-- a validator of an optional field -/
def optional {α : Type} (f : Text → Except Text α) : Option Text → Except Text (Option α)
  | none => .ok none
  | some t => (f t).map some

/-- `clean_optional_text` -/
def cleanOptionalText (limit : ℕ) : Option Text → Except Text (Option Text)
  | none => .ok none
  | some value => do
    tooLong limit value
    let cleaned := Text.strip value
    if cleaned.isEmpty then return none
    if cleaned.any fun c => c.toNat < 32 && c != '\t' then
      throw "value contains control characters".toList
    return some cleaned

/-- `safe_url` -/
def safeUrl (value : Text) : Except Text Text := do
  tooLong MAX_LOCATOR_CHARS value
  let cleaned := Text.strip value
  let sanitized ← withoutCapability cleaned
  if sanitized != cleaned || !(Text.startsWith "http://".toList sanitized ||
      Text.startsWith "https://".toList sanitized) then
    throw "acquisition URLs must be sanitized HTTP or HTTPS URLs".toList
  return sanitized

def AcquisitionProvenance.clean (a : AcquisitionProvenance) : Except Text AcquisitionProvenance := do
  let originalUrl ← safeUrl withoutCapability a.originalUrl
  let finalUrl ← safeUrl withoutCapability a.finalUrl
  return { a with originalUrl := originalUrl, finalUrl := finalUrl }

/-- the validators of `Origin`; none of them reads `captured_at` -/
def Origin.clean (o : Origin) : Except Text Origin := do
  let title ← cleanOptionalText MAX_TITLE_CHARS o.title
  let locator ← cleanOptionalText MAX_LOCATOR_CHARS o.locator
  let locator ← optional withoutCapability locator
  return { o with title := title, locator := locator }

def isHex (c : Char) : Bool := Layers.isDigit c || ('a' ≤ c && c ≤ 'f')

/-- `_SHA256_RE` -/
def isDigest (t : Text) : Bool := t.length == 64 && t.all isHex

/-- `content_ref` -/
def contentRef (digest : Text) : Text :=
  "sha256/".toList ++ digest.take 2 ++ '/' :: (digest.drop 2).take 2 ++ '/' :: digest

/-- `_BLOB_RE` with the digest it ends in -/
def blobDigest (blobRef : Text) : Option Text :=
  let digest := blobRef.drop 13
  let fan := blobRef.take 13
  if Text.startsWith "sha256/".toList fan && ((fan.drop 7).take 2).all isHex &&
      (fan.drop 9).take 1 == ['/'] && ((fan.drop 10).take 2).all isHex && fan.drop 12 == ['/'] &&
      isDigest digest then some digest else none

/-- `supported_media_type` -/
def supportedMediaType (value : Text) : Except Text Text :=
  let normalized := R.lower (Text.strip (value.takeWhile (· != ';')))
  if SUPPORTED_MEDIA_TYPES.contains normalized then .ok normalized
  else .error ("unsupported media type: ".toList ++
    if normalized.isEmpty then "<empty>".toList else normalized)

/-- `clean_name` -/
def cleanName (value : Text) : Except Text Text :=
  let slashed := value.map fun c => if c = '\\' then '/' else c
  let name := Text.strip (slashed.reverse.takeWhile (· != '/')).reverse
  if name.isEmpty || name == ['.'] || name == ['.', '.'] || name.any fun c => c.toNat < 32 then
    .error "original_name is invalid".toList
  else .ok name

/-- `safe_source_url` -/
def safeSourceUrl : Option Text → Except Text (Option Text)
  | none => .ok none
  | some value => if value.isEmpty then .ok none else (withoutCapability (Text.strip value)).map some

def ArtifactRef.clean (a : ArtifactRef) : Except Text ArtifactRef := do
  if a.bytes = 0 || MAX_ARTIFACT_BYTES < a.bytes then throw "bytes is out of range".toList
  if !isDigest a.sha256 then throw "sha256 must be 64 lowercase hexadecimal characters".toList
  let mediaType ← supportedMediaType R a.mediaType
  let originalName ← optional (fun t => do tooLong MAX_NAME_CHARS t; cleanName t) a.originalName
  let _ ← optional (tooLong MAX_LOCATOR_CHARS) a.sourceUrl
  let sourceUrl ← safeSourceUrl withoutCapability a.sourceUrl
  if blobDigest a.blobRef != some a.sha256 then throw "blob_ref does not match sha256".toList
  return { a with mediaType := mediaType, originalName := originalName, sourceUrl := sourceUrl }

/-- `clean_idempotency_key` -/
def cleanIdempotencyKey (value : Text) : Except Text Text := do
  if value.isEmpty then throw "idempotency_key is too short".toList
  tooLong MAX_IDEMPOTENCY_KEY_CHARS value
  let cleaned := Text.strip value
  if cleaned.isEmpty || cleaned.any fun c => c.toNat < 33 || c.toNat == 127 then
    throw "idempotency_key must be one printable token".toList
  return cleaned

/-- `valid_audience` -/
def validAudience : Option (List Text) → Except Text (Option (List Text))
  | none => .ok none
  | some value =>
    let cleaned := (value.map Text.strip).filter fun t => !t.isEmpty
    let cleaned := cleaned.reverse.dedup.reverse
    if cleaned.isEmpty then .error "audience cannot be empty".toList
    else if cleaned.length != value.length then
      .error "audience contains empty or duplicate groups".toList
    else if cleaned.length != 1 || !cleaned.all Layers.isLayerName then
      .error "audience names exactly one layer; public is stored as no audience".toList
    else .ok (some cleaned)

/-- the number of artifacts and `capture_bytes_are_bounded` -/
def captureBytesAreBounded (artifacts : List ArtifactRef) : Except Text Unit :=
  if artifacts.isEmpty || MAX_ARTIFACTS < artifacts.length then
    .error "artifacts has a wrong length".toList
  else if MAX_CAPTURE_BYTES < (artifacts.map ArtifactRef.bytes).sum then
    .error "artifacts exceed the capture-wide byte limit".toList
  else .ok ()

/-- the validators of `CaptureEnvelope` on parts that have passed their own -/
def Envelope.clean (e : Envelope) : Except Text Envelope := do
  let idempotencyKey ← cleanIdempotencyKey e.idempotencyKey
  let audience ← validAudience e.audience
  captureBytesAreBounded e.artifacts
  return { e with idempotencyKey := idempotencyKey, audience := audience }

theorem strip_cleanIdempotencyKey {value cleaned : Text} (h : cleanIdempotencyKey value = .ok cleaned) :
    cleaned = Text.strip value := by
  simp only [cleanIdempotencyKey, bind, Except.bind] at h
  repeat (split at h; · exact nomatch h)
  exact (Except.ok.inj h).symm

/-! ## whole models -/

def MAX_IDENTITY_CHARS : ℕ := 300

/-- the length `Field(min_length=1, max_length=limit)` asks for -/
def bounded (limit : ℕ) (t : Text) : Except Text Unit :=
  if t.isEmpty then .error "string is too short".toList else tooLong limit t

/-- `clean_identity` -/
def cleanIdentity (value : Text) : Except Text Text :=
  (bounded MAX_IDENTITY_CHARS value).bind fun _ =>
    let cleaned := Text.oneLine value
    if cleaned.isEmpty || cleaned.any fun c => c.toNat < 32 then
      .error "identity contains invalid characters".toList
    else .ok cleaned

def Actor.validate (a : Actor) : Except Text Actor :=
  (cleanIdentity a.subject).bind fun subject =>
    (cleanIdentity a.displayName).map fun displayName => ⟨subject, displayName⟩

def Participant.validate (p : Participant) : Except Text Participant :=
  (optional (fun t => (bounded MAX_IDENTITY_CHARS t).map fun _ => t) p.subject).bind fun _ =>
    (bounded MAX_IDENTITY_CHARS p.displayName).map fun _ => p

/-- `_DRIVE_FILE_ID_RE` -/
def isDriveFileId (t : Text) : Bool :=
  !t.isEmpty && decide (t.length ≤ 300) && t.all fun c =>
    ('A' ≤ c && c ≤ 'Z') || ('a' ≤ c && c ≤ 'z') || ('0' ≤ c && c ≤ '9') || c == '_' || c == '-'

/-- `valid_drive_file_id` -/
def validDriveFileId (t : Text) : Except Text Text :=
  if isDriveFileId t then .ok t else .error "drive_file_id is invalid".toList

def MAX_MEDIA_TYPE_CHARS : ℕ := 255

/-- `clean_media_type` -/
def cleanMediaType (value : Text) : Except Text Text :=
  (tooLong MAX_MEDIA_TYPE_CHARS value).bind fun _ =>
    let cleaned := R.lower (Text.strip value)
    if cleaned.isEmpty || cleaned.any fun c => c.toNat < 33 || c.toNat == 127 then
      .error "acquisition media types must be printable tokens".toList
    else .ok cleaned

/-- `complete_drive_provenance` -/
def AcquisitionProvenance.complete (a : AcquisitionProvenance) : Bool :=
  !(a.driveFileId.isSome || a.driveMediaType.isSome || a.exportMediaType.isSome) ||
    (a.driveFileId.isSome && a.driveMediaType.isSome)

def AcquisitionProvenance.validate (a : AcquisitionProvenance) : Except Text AcquisitionProvenance :=
  (a.clean withoutCapability).bind fun urls =>
    (optional validDriveFileId a.driveFileId).bind fun driveFileId =>
      (optional (cleanMediaType R) a.driveMediaType).bind fun driveMediaType =>
        (optional (cleanMediaType R) a.exportMediaType).bind fun exportMediaType =>
          let cleaned := { urls with
            driveFileId := driveFileId
            driveMediaType := driveMediaType
            exportMediaType := exportMediaType }
          if cleaned.complete then .ok cleaned
          else .error "Drive provenance requires a file id and media type".toList

/-- the validators of each value in turn -/
def validateAll {α : Type} (f : α → Except Text α) : List α → Except Text (List α)
  | [] => .ok []
  | a :: as => (f a).bind fun b => (validateAll f as).map (b :: ·)

/-- the validator of a nested model that may be missing -/
def validateOption {α : Type} (f : α → Except Text α) : Option α → Except Text (Option α)
  | none => .ok none
  | some a => (f a).map some

def Origin.validate (o : Origin) : Except Text Origin :=
  (o.clean withoutCapability).bind fun cleaned =>
    (validateAll Participant.validate o.participants).bind fun participants =>
      (validateOption (AcquisitionProvenance.validate R withoutCapability) o.acquisition).map
        fun acquisition => { cleaned with participants := participants, acquisition := acquisition }

/-- the lengths and `resolution_has_rationale` -/
def Intent.validate (i : Intent) : Except Text Intent :=
  (optional (fun t => (bounded 100 t).map fun _ => t) i.resolutionOf).bind fun _ =>
    (optional (fun t => (bounded 2000 t).map fun _ => t) i.rationale).bind fun _ =>
      if i.resolutionOf.isSome && i.rationale.isNone then
        .error "a contradiction resolution requires a rationale".toList
      else if i.rationale.isSome && i.resolutionOf.isNone then
        .error "rationale is only valid with resolution_of".toList
      else .ok i

def Envelope.validate (e : Envelope) : Except Text Envelope :=
  e.actor.validate.bind fun actor =>
    (e.origin.validate R withoutCapability).bind fun origin =>
      (validateAll (ArtifactRef.clean R withoutCapability) e.artifacts).bind fun artifacts =>
        e.intent.validate.bind fun intent =>
          Envelope.clean { e with actor := actor, origin := origin, artifacts := artifacts, intent := intent }

theorem ArtifactRef.blobRef_clean {R : Runtime} {withoutCapability : Text → Except Text Text}
    {a b : ArtifactRef} (h : ArtifactRef.clean R withoutCapability a = .ok b) :
    b.blobRef = a.blobRef := by
  simp only [ArtifactRef.clean, bind, Except.bind] at h
  repeat (split at h; · exact nomatch h)
  rw [← Except.ok.inj h]

/-- an audience that passes is public or one layer -/
theorem validAudience_cases {a b : Option (List Text)} (h : validAudience a = .ok b) :
    b = none ∨ ∃ name, b = some [name] ∧ Layers.isLayerName name = true := by
  cases a with
  | none => exact Or.inl (Except.ok.inj h).symm
  | some value =>
    simp only [validAudience] at h
    obtain ⟨-, h⟩ := Checks.of_ite_error h
    obtain ⟨-, h⟩ := Checks.of_ite_error h
    obtain ⟨hone, h⟩ := Checks.of_ite_error h
    simp only [Bool.or_eq_true, bne_iff_ne, not_or, not_not, Bool.not_eq_true',
      Bool.not_eq_false] at hone
    obtain ⟨name, hname⟩ := List.length_eq_one_iff.mp hone.1
    rw [hname] at hone h
    exact Or.inr ⟨name, (Except.ok.inj h).symm, by simpa using hone.2⟩

theorem layerOfAcl_validAudience {a b : Option (List Text)} (h : validAudience a = .ok b) :
    ∃ layer, Layers.layerOfAcl b = some layer := by
  rcases validAudience_cases h with rfl | ⟨name, rfl, hname⟩
  · exact ⟨Layers.PUBLIC, rfl⟩
  · exact ⟨name, if_pos hname⟩

/-- what the validators of an envelope leave as it was -/
theorem Envelope.clean_eq_ok {a b : Envelope} (h : Envelope.clean a = .ok b) :
    b.actor = a.actor ∧ cleanIdempotencyKey a.idempotencyKey = .ok b.idempotencyKey ∧
      validAudience a.audience = .ok b.audience := by
  simp only [Envelope.clean, bind, Except.bind] at h
  split at h
  · exact nomatch h
  · rename_i key hkey
    split at h
    · exact nomatch h
    · rename_i audience haudience
      split at h
      · exact nomatch h
      · obtain rfl := Except.ok.inj h
        exact ⟨rfl, hkey, haudience⟩

/-! ## values that have been through their validator -/

theorem tooLong_eq_ok {limit : ℕ} {t : Text} : tooLong limit t = .ok () ↔ t.length ≤ limit := by
  rw [tooLong]
  split
  · next h => exact ⟨nofun, fun hle => absurd h (Nat.not_lt.mpr hle)⟩
  · next h => exact ⟨fun _ => Nat.not_lt.mp h, fun _ => rfl⟩

theorem bounded_eq_ok {limit : ℕ} {t : Text} : bounded limit t = .ok () ↔ t ≠ [] ∧ t.length ≤ limit := by
  cases t with
  | nil => exact ⟨nofun, fun h => absurd rfl h.1⟩
  | cons c t => exact tooLong_eq_ok.trans ⟨fun h => ⟨List.cons_ne_nil c t, h⟩, And.right⟩

theorem cleanOptionalText_eq_ok {limit : ℕ} {v : Option Text} {w : Text} :
    cleanOptionalText limit v = .ok (some w) ↔ ∃ t, v = some t ∧ t.length ≤ limit ∧
      w = Text.strip t ∧ w ≠ [] ∧ ∀ c ∈ w, 32 ≤ c.toNat ∨ c = '\t' := by
  cases v with
  | none => exact ⟨nofun, nofun⟩
  | some t =>
    simp only [cleanOptionalText, bind, Except.bind, pure, Except.pure, throw, throwThe,
      MonadExceptOf.throw]
    constructor
    · intro h
      split at h
      · exact nomatch h
      · next hlen =>
        split at h
        · exact nomatch h
        · next hne =>
          split at h
          · exact nomatch h
          · next hctl =>
            have hw : Text.strip t = w := Option.some.inj (Except.ok.inj h)
            refine ⟨t, rfl, tooLong_eq_ok.mp hlen, hw.symm, ?_, fun c hc => ?_⟩
            · rintro rfl
              exact hne (hw ▸ rfl)
            · by_contra hbad
              refine hctl (List.any_eq_true.mpr ⟨c, hw ▸ hc, ?_⟩)
              rw [Bool.and_eq_true, decide_eq_true_eq, bne_iff_ne]
              exact ⟨Nat.lt_of_not_le fun hle => hbad (Or.inl hle), fun e => hbad (Or.inr e)⟩
    · rintro ⟨t', ht, hlen, rfl, hne, hctl⟩
      obtain rfl := Option.some.inj ht
      rw [tooLong_eq_ok.mpr hlen]
      dsimp only
      rw [if_neg (fun he => hne (List.isEmpty_iff.mp he)), if_neg]
      rw [List.any_eq_true]
      rintro ⟨c, hc, hbad⟩
      rw [Bool.and_eq_true, decide_eq_true_eq, bne_iff_ne] at hbad
      rcases hctl c hc with h | h
      · exact absurd hbad.1 (Nat.not_lt.mpr h)
      · exact hbad.2 h

theorem cleanOptionalText_idem {limit : ℕ} {v w : Option Text} (h : cleanOptionalText limit v = .ok w) :
    cleanOptionalText limit w = .ok w := by
  cases w with
  | none => rfl
  | some w =>
    obtain ⟨t, -, hlen, rfl, hne, hctl⟩ := cleanOptionalText_eq_ok.mp h
    exact cleanOptionalText_eq_ok.mpr ⟨Text.strip t, rfl, (Text.length_strip_le t).trans hlen,
      (Text.strip_strip t).symm, hne, hctl⟩

theorem cleanIdentity_eq_ok {v w : Text} : cleanIdentity v = .ok w ↔
    v ≠ [] ∧ v.length ≤ MAX_IDENTITY_CHARS ∧ w = Text.oneLine v ∧ w ≠ [] ∧ ∀ c ∈ w, 32 ≤ c.toNat := by
  rw [cleanIdentity, Checks.bind_eq_ok]
  constructor
  · rintro ⟨_, hb, h⟩
    obtain ⟨hne, hlen⟩ := bounded_eq_ok.mp hb
    obtain ⟨hw, h⟩ := Checks.of_ite_error h
    obtain rfl := Except.ok.inj h
    rw [Bool.or_eq_true, not_or, List.any_eq_true] at hw
    refine ⟨hne, hlen, rfl, fun e => hw.1 (by rw [e]; rfl), ?_⟩
    exact fun c hc => Nat.not_lt.mp fun hlt => hw.2 ⟨c, hc, decide_eq_true hlt⟩
  · rintro ⟨hv, hlen, rfl, hne, hctl⟩
    refine ⟨(), bounded_eq_ok.mpr ⟨hv, hlen⟩, if_neg fun h => ?_⟩
    rw [Bool.or_eq_true, List.any_eq_true] at h
    rcases h with h | ⟨c, hc, hlt⟩
    · exact hne (List.isEmpty_iff.mp h)
    · exact absurd (of_decide_eq_true hlt) (Nat.not_lt.mpr (hctl c hc))

theorem cleanIdentity_idem {v w : Text} (h : cleanIdentity v = .ok w) : cleanIdentity w = .ok w := by
  obtain ⟨-, hlen, rfl, hne, hctl⟩ := cleanIdentity_eq_ok.mp h
  exact cleanIdentity_eq_ok.mpr ⟨hne, (Text.length_oneLine_le v).trans hlen,
    (Text.oneLine_oneLine v).symm, hne, hctl⟩

theorem optional_eq_ok {f : Text → Except Text Text} {v w : Option Text} :
    optional f v = .ok w ↔ (v = none ∧ w = none) ∨ ∃ t u, v = some t ∧ w = some u ∧ f t = .ok u := by
  cases v with
  | none =>
    refine ⟨fun h => Or.inl ⟨rfl, (Except.ok.inj h).symm⟩, ?_⟩
    rintro (⟨-, rfl⟩ | ⟨t, u, ht, -⟩)
    · rfl
    · exact nomatch ht
  | some t =>
    rw [optional]
    cases hf : f t with
    | error e =>
      refine ⟨nofun, ?_⟩
      rintro (⟨ht, -⟩ | ⟨t', u, ht, -, hu⟩)
      · exact nomatch ht
      · rw [← Option.some.inj ht, hf] at hu
        exact nomatch hu
    | ok u =>
      refine ⟨fun h => Or.inr ⟨t, u, rfl, (Except.ok.inj h).symm, hf⟩, ?_⟩
      rintro (⟨ht, -⟩ | ⟨t', u', ht, rfl, hu⟩)
      · exact nomatch ht
      · rw [← Option.some.inj ht, hf] at hu
        exact congrArg (fun x => Except.ok (some x)) (Except.ok.inj hu)

/-- a validator of an optional field that gives its own results back -/
theorem optional_idem {f : Text → Except Text Text} (hf : ∀ t u, f t = .ok u → f u = .ok u)
    {v w : Option Text} (h : optional f v = .ok w) : optional f w = .ok w := by
  rcases optional_eq_ok.mp h with ⟨-, rfl⟩ | ⟨t, u, -, rfl, hu⟩
  · rfl
  · exact optional_eq_ok.mpr (Or.inr ⟨u, u, rfl, rfl, hf t u hu⟩)

theorem cleanName_idem {v w : Text} (h : cleanName v = .ok w) : cleanName w = .ok w := by
  rw [cleanName] at h
  obtain ⟨hgood, h⟩ := Checks.of_ite_error h
  have hw := Except.ok.inj h
  -- the name has no separator left, and stripping it again changes nothing
  have hsep : ∀ c ∈ w, c ≠ '/' ∧ c ≠ '\\' := by
    intro c hc
    rw [← hw] at hc
    have hc := List.mem_reverse.mp (Text.mem_strip hc)
    have hne := List.mem_takeWhile_imp hc
    obtain ⟨d, -, hd⟩ := List.mem_map.mp (List.mem_reverse.mp ((List.takeWhile_prefix _).subset hc))
    refine ⟨by simpa using hne, ?_⟩
    rintro rfl
    split at hd
    · exact absurd hd (by decide)
    · next hback => exact hback hd
  have hmap : w.map (fun c => if c = '\\' then '/' else c) = w := by
    rw [List.map_congr_left fun c hc => if_neg (hsep c hc).2]
    exact List.map_id' w
  have htake : (w.reverse.takeWhile (· != '/')).reverse = w := by
    rw [List.takeWhile_eq_self_iff.mpr, List.reverse_reverse]
    exact fun c hc => by simpa using (hsep c (List.mem_reverse.mp hc)).1
  have hstrip : Text.strip w = w := by
    rw [← hw]
    exact Text.strip_strip _
  rw [cleanName, hmap, htake, hstrip, if_neg (by rw [← hw]; exact hgood)]

theorem safeUrl_idem {v w : Text} (h : safeUrl withoutCapability v = .ok w) :
    safeUrl withoutCapability w = .ok w := by
  simp only [safeUrl, bind, Except.bind, pure, Except.pure, throw, throwThe,
    MonadExceptOf.throw] at h ⊢
  split at h
  · exact nomatch h
  · next hlen =>
    split at h
    · exact nomatch h
    · next sanitized hsan =>
      split at h
      · exact nomatch h
      · next hgood =>
        obtain rfl := Except.ok.inj h
        simp only [Bool.or_eq_true, not_or, bne_iff_ne, not_not] at hgood
        have hstrip : Text.strip sanitized = sanitized := by
          rw [hgood.1, Text.strip_strip]
        have hshort : tooLong MAX_LOCATOR_CHARS sanitized = .ok () := by
          rw [tooLong_eq_ok, hgood.1]
          exact (Text.length_strip_le v).trans (tooLong_eq_ok.mp hlen)
        rw [hshort]
        dsimp only
        rw [hstrip]
        rw [← hgood.1] at hsan
        rw [hsan]
        dsimp only
        rw [if_neg]
        simp only [Bool.or_eq_true, not_or, bne_iff_ne, not_not]
        exact ⟨trivial, hgood.2⟩

theorem isSpace_layerName {name : Text} (h : Layers.isLayerName name = true) :
    name ≠ [] ∧ ∀ c ∈ name, Text.isSpace c = false := by
  rw [Layers.isLayerName, Bool.and_eq_true] at h
  have hchar : ∀ c : Char, (Layers.isLower c || Layers.isDigit c || c == '-') = true →
      Text.isSpace c = false := by
    intro c hc
    simp only [Layers.isLower, Layers.isDigit, Bool.or_eq_true, Bool.and_eq_true, decide_eq_true_eq,
      beq_iff_eq, Char.le_def, UInt32.le_iff_toNat_le] at hc
    rcases hc with hc | rfl
    · simp only [Text.isSpace, Bool.or_eq_false_iff, Bool.and_eq_false_iff, decide_eq_false_iff_not,
        beq_eq_false_iff_ne]
      have hnat : c.val.toNat = c.toNat := rfl
      have h97 : ('a' : Char).val.toNat = 97 := rfl
      have h122 : ('z' : Char).val.toNat = 122 := rfl
      have h48 : ('0' : Char).val.toNat = 48 := rfl
      have h57 : ('9' : Char).val.toNat = 57 := rfl
      omega
    · rfl
  cases name with
  | nil => exact nomatch h.1
  | cons c t =>
    obtain ⟨hmatch, -⟩ := h
    rw [Layers.matchesName, Bool.and_eq_true, Bool.and_eq_true, List.all_eq_true] at hmatch
    refine ⟨List.cons_ne_nil c t, fun d hd => hchar d ?_⟩
    rcases List.mem_cons.mp hd with rfl | hd
    · rw [hmatch.1.1]
      rfl
    · exact hmatch.1.2 d hd

theorem validAudience_idem {v w : Option (List Text)} (h : validAudience v = .ok w) :
    validAudience w = .ok w := by
  rcases validAudience_cases h with rfl | ⟨name, rfl, hname⟩
  · rfl
  · obtain ⟨hne, hspace⟩ := isSpace_layerName hname
    have hempty : name.isEmpty = false := List.isEmpty_eq_false_iff.mpr hne
    have hone : (([name].filter fun t : Text => !t.isEmpty).reverse.dedup).reverse = [name] := by
      rw [List.filter_cons_of_pos (by rw [hempty]; rfl)]
      rfl
    rw [validAudience, List.map_singleton, Text.strip_eq_self_of_all hspace, hone, if_neg nofun,
      if_neg (by simp), if_neg (by simp [hname])]

theorem AcquisitionProvenance.clean_eq_ok {a b : AcquisitionProvenance} :
    a.clean withoutCapability = .ok b ↔ ∃ original final,
      safeUrl withoutCapability a.originalUrl = .ok original ∧
      safeUrl withoutCapability a.finalUrl = .ok final ∧
      b = { a with originalUrl := original, finalUrl := final } := by
  show ((safeUrl withoutCapability a.originalUrl).bind fun original =>
    (safeUrl withoutCapability a.finalUrl).bind fun final =>
      .ok { a with originalUrl := original, finalUrl := final }) = _ ↔ _
  rw [Checks.bind_eq_ok]
  constructor
  · rintro ⟨original, ho, h⟩
    obtain ⟨final, hf, h⟩ := Checks.bind_eq_ok.mp h
    exact ⟨original, final, ho, hf, (Except.ok.inj h).symm⟩
  · rintro ⟨original, final, ho, hf, rfl⟩
    exact ⟨original, ho, Checks.bind_eq_ok.mpr ⟨final, hf, rfl⟩⟩

theorem AcquisitionProvenance.validate_eq_ok {a b : AcquisitionProvenance} :
    a.validate R withoutCapability = .ok b ↔
      safeUrl withoutCapability a.originalUrl = .ok b.originalUrl ∧
      safeUrl withoutCapability a.finalUrl = .ok b.finalUrl ∧
      optional validDriveFileId a.driveFileId = .ok b.driveFileId ∧
      optional (cleanMediaType R) a.driveMediaType = .ok b.driveMediaType ∧
      optional (cleanMediaType R) a.exportMediaType = .ok b.exportMediaType ∧
      b.acquiredAt = a.acquiredAt ∧ b.complete = true := by
  rw [AcquisitionProvenance.validate, Checks.bind_eq_ok]
  constructor
  · rintro ⟨urls, hurls, h⟩
    obtain ⟨original, final, ho, hf, rfl⟩ := (AcquisitionProvenance.clean_eq_ok _).mp hurls
    obtain ⟨d, hd, h⟩ := Checks.bind_eq_ok.mp h
    obtain ⟨m, hm, h⟩ := Checks.bind_eq_ok.mp h
    obtain ⟨x, hx, h⟩ := Checks.bind_eq_ok.mp h
    dsimp only at h
    split at h
    · next hc =>
      obtain rfl := Except.ok.inj h
      exact ⟨ho, hf, hd, hm, hx, rfl, hc⟩
    · exact nomatch h
  · rintro ⟨ho, hf, hd, hm, hx, ht, hc⟩
    refine ⟨_, (AcquisitionProvenance.clean_eq_ok _).mpr ⟨_, _, ho, hf, rfl⟩, ?_⟩
    refine Checks.bind_eq_ok.mpr ⟨_, hd, Checks.bind_eq_ok.mpr ⟨_, hm, Checks.bind_eq_ok.mpr ⟨_, hx, ?_⟩⟩⟩
    obtain ⟨_, _, _, _, _, _⟩ := b
    obtain rfl := ht
    exact if_pos hc

/-- the media types of a file drive, as the schema gives them back -/
def AcquisitionProvenance.MediaKept (a : AcquisitionProvenance) : Prop :=
  optional (cleanMediaType R) a.driveMediaType = .ok a.driveMediaType ∧
    optional (cleanMediaType R) a.exportMediaType = .ok a.exportMediaType

theorem AcquisitionProvenance.validate_again {a b : AcquisitionProvenance}
    (h : a.validate R withoutCapability = .ok b) :
    b.validate R withoutCapability = .ok b ↔ b.MediaKept R := by
  obtain ⟨ho, hf, hd, -, -, -, hc⟩ := (AcquisitionProvenance.validate_eq_ok R _).mp h
  rw [AcquisitionProvenance.validate_eq_ok]
  refine ⟨fun hb => ⟨hb.2.2.2.1, hb.2.2.2.2.1⟩, fun hb => ⟨safeUrl_idem _ ho, safeUrl_idem _ hf, ?_,
    hb.1, hb.2, rfl, hc⟩⟩
  refine optional_idem (fun t u hu => ?_) hd
  rw [validDriveFileId] at hu
  split at hu
  · next hgood =>
    obtain rfl := Except.ok.inj hu
    exact if_pos hgood
  · exact nomatch hu

theorem Participant.validate_eq_ok {p q : Participant} (h : p.validate = .ok q) : q = p := by
  obtain ⟨_, -, h⟩ := Checks.bind_eq_ok.mp h
  cases hb : bounded MAX_IDENTITY_CHARS p.displayName with
  | error e =>
    rw [hb] at h
    exact nomatch h
  | ok _ =>
    rw [hb] at h
    exact (Except.ok.inj h).symm

theorem Intent.validate_eq_ok {i j : Intent} (h : i.validate = .ok j) : j = i := by
  obtain ⟨_, -, h⟩ := Checks.bind_eq_ok.mp h
  obtain ⟨_, -, h⟩ := Checks.bind_eq_ok.mp h
  obtain ⟨-, h⟩ := Checks.of_ite_error h
  obtain ⟨-, h⟩ := Checks.of_ite_error h
  exact (Except.ok.inj h).symm

theorem map_eq_ok {α β : Type} {x : Except Text α} {f : α → β} {b : β} :
    x.map f = .ok b ↔ ∃ a, x = .ok a ∧ f a = b := by
  cases x with
  | error e => exact ⟨nofun, fun ⟨a, h, _⟩ => nomatch h⟩
  | ok a => exact ⟨fun h => ⟨a, rfl, Except.ok.inj h⟩, fun ⟨c, hc, h⟩ => by rw [← h, ← Except.ok.inj hc]; rfl⟩

theorem validateAll_eq_ok {α : Type} {f : α → Except Text α} {as bs : List α} :
    validateAll f as = .ok bs ↔ List.Forall₂ (fun a b => f a = .ok b) as bs := by
  induction as generalizing bs with
  | nil =>
    rw [List.forall₂_nil_left_iff]
    exact ⟨fun h => (Except.ok.inj h).symm, fun h => congrArg Except.ok h.symm⟩
  | cons a as ih =>
    rw [validateAll, Checks.bind_eq_ok, List.forall₂_cons_left_iff]
    constructor
    · rintro ⟨b, hb, h⟩
      obtain ⟨bs', hbs, rfl⟩ := map_eq_ok.mp h
      exact ⟨b, bs', hb, ih.mp hbs, rfl⟩
    · rintro ⟨b, bs', hb, hbs, rfl⟩
      exact ⟨b, hb, map_eq_ok.mpr ⟨bs', ih.mpr hbs, rfl⟩⟩

theorem mem_validateAll {α : Type} {f : α → Except Text α} {as bs : List α}
    (h : validateAll f as = .ok bs) {b : α} (hb : b ∈ bs) : ∃ a, f a = .ok b := by
  rw [validateAll_eq_ok] at h
  induction h with
  | nil => exact absurd hb List.not_mem_nil
  | cons hab _ ih =>
    rcases List.mem_cons.mp hb with rfl | hb
    · exact ⟨_, hab⟩
    · exact ih hb

/-- each value a validator of whole lists gave is given back, one by one -/
theorem validateAll_again {α : Type} {f : α → Except Text α} {as bs : List α}
    (h : validateAll f as = .ok bs) (hf : ∀ a ∈ as, ∀ b, f a = .ok b → f b = .ok b) :
    validateAll f bs = .ok bs := by
  rw [validateAll_eq_ok] at h ⊢
  induction h with
  | nil => exact List.Forall₂.nil
  | cons hab _ ih =>
    exact List.Forall₂.cons (hf _ List.mem_cons_self _ hab)
      (ih fun a ha => hf a (List.mem_cons_of_mem _ ha))

theorem Origin.clean_eq_ok {o p : Origin} : o.clean withoutCapability = .ok p ↔
    cleanOptionalText MAX_TITLE_CHARS o.title = .ok p.title ∧
    (cleanOptionalText MAX_LOCATOR_CHARS o.locator).bind (optional withoutCapability) =
      .ok p.locator ∧ p = { o with title := p.title, locator := p.locator } := by
  show ((cleanOptionalText MAX_TITLE_CHARS o.title).bind fun title =>
    (cleanOptionalText MAX_LOCATOR_CHARS o.locator).bind fun locator =>
      (optional withoutCapability locator).bind fun locator =>
        .ok { o with title := title, locator := locator }) = _ ↔ _
  rw [Checks.bind_eq_ok]
  constructor
  · rintro ⟨title, ht, h⟩
    obtain ⟨cleaned, hc, h⟩ := Checks.bind_eq_ok.mp h
    obtain ⟨locator, hl, h⟩ := Checks.bind_eq_ok.mp h
    obtain rfl := Except.ok.inj h
    exact ⟨ht, Checks.bind_eq_ok.mpr ⟨cleaned, hc, hl⟩, rfl⟩
  · rintro ⟨ht, hl, hp⟩
    obtain ⟨cleaned, hc, hl⟩ := Checks.bind_eq_ok.mp hl
    refine ⟨_, ht, Checks.bind_eq_ok.mpr ⟨cleaned, hc, Checks.bind_eq_ok.mpr ⟨_, hl, ?_⟩⟩⟩
    exact congrArg Except.ok hp.symm

theorem Origin.validate_eq_ok {o p : Origin} : o.validate R withoutCapability = .ok p ↔
    cleanOptionalText MAX_TITLE_CHARS o.title = .ok p.title ∧
    (cleanOptionalText MAX_LOCATOR_CHARS o.locator).bind (optional withoutCapability) =
      .ok p.locator ∧
    validateAll Participant.validate o.participants = .ok p.participants ∧
    validateOption (AcquisitionProvenance.validate R withoutCapability) o.acquisition =
      .ok p.acquisition ∧
    p.adapter = o.adapter ∧ p.capturedAt = o.capturedAt ∧ p.occurredAt = o.occurredAt := by
  rw [Origin.validate, Checks.bind_eq_ok]
  constructor
  · rintro ⟨cleaned, hc, h⟩
    obtain ⟨participants, hp, h⟩ := Checks.bind_eq_ok.mp h
    obtain ⟨acquisition, ha, rfl⟩ := map_eq_ok.mp h
    obtain ⟨ht, hl, hcl⟩ := (Origin.clean_eq_ok _).mp hc
    rw [hcl]
    exact ⟨ht, hl, hp, ha, rfl, rfl, rfl⟩
  · rintro ⟨ht, hl, hp, ha, had, hca, hoc⟩
    refine ⟨{ o with title := p.title, locator := p.locator },
      (Origin.clean_eq_ok _).mpr ⟨ht, hl, rfl⟩, ?_⟩
    refine Checks.bind_eq_ok.mpr ⟨_, hp, map_eq_ok.mpr ⟨_, ha, ?_⟩⟩
    obtain ⟨_, _, _, _, _, _, _⟩ := p
    obtain rfl := had
    obtain rfl := hca
    obtain rfl := hoc
    rfl

/-- the locator and the media types, as the schema gives them back -/
structure Origin.Kept (o : Origin) : Prop where
  locator : (cleanOptionalText MAX_LOCATOR_CHARS o.locator).bind (optional withoutCapability) =
    .ok o.locator
  media : ∀ a, o.acquisition = some a → a.MediaKept R

theorem Origin.validate_again {o p : Origin} (h : o.validate R withoutCapability = .ok p) :
    p.validate R withoutCapability = .ok p ↔ p.Kept R withoutCapability := by
  obtain ⟨ht, -, hp, ha, -, -, -⟩ := (Origin.validate_eq_ok R _).mp h
  rw [Origin.validate_eq_ok]
  have hacq : validateOption (AcquisitionProvenance.validate R withoutCapability) p.acquisition =
      .ok p.acquisition ↔ ∀ a, p.acquisition = some a → a.MediaKept R := by
    cases hpa : p.acquisition with
    | none => exact ⟨fun _ _ => nofun, fun _ => rfl⟩
    | some b =>
      rw [hpa] at ha
      have hb : ∃ a : AcquisitionProvenance, a.validate R withoutCapability = .ok b := by
        cases hoa : o.acquisition with
        | none =>
          rw [hoa] at ha
          exact nomatch ha
        | some a =>
          rw [hoa] at ha
          obtain ⟨b', hb', hbb⟩ := map_eq_ok.mp ha
          exact ⟨a, Option.some.inj hbb ▸ hb'⟩
      obtain ⟨a, hab⟩ := hb
      have hagain := AcquisitionProvenance.validate_again R _ hab
      constructor
      · intro hv a' ha'
        obtain ⟨b', hb', hbb⟩ := map_eq_ok.mp hv
        rw [← Option.some.inj ha']
        exact hagain.mp (Option.some.inj hbb ▸ hb')
      · intro hk
        exact map_eq_ok.mpr ⟨b, hagain.mpr (hk b rfl), rfl⟩
  constructor
  · rintro ⟨-, hl, -, hv, -⟩
    exact ⟨hl, hacq.mp hv⟩
  · intro hk
    refine ⟨cleanOptionalText_idem ht, hk.locator, ?_, hacq.mpr hk.media, rfl, rfl, rfl⟩
    exact validateAll_again hp fun a _ b hb => Participant.validate_eq_ok hb ▸ hb

theorem length_cleanName {v w : Text} (h : cleanName v = .ok w) : w.length ≤ v.length := by
  rw [cleanName] at h
  obtain ⟨-, h⟩ := Checks.of_ite_error h
  rw [← Except.ok.inj h]
  refine (Text.length_strip_le _).trans ?_
  rw [List.length_reverse]
  refine (List.takeWhile_prefix _).length_le.trans ?_
  rw [List.length_reverse, List.length_map]

theorem blobDigest_contentRef {digest : Text} (h : isDigest digest = true) :
    blobDigest (contentRef digest) = some digest := by
  have hd := h
  rw [isDigest, Bool.and_eq_true, beq_iff_eq] at hd
  match digest, hd with
  | a :: b :: c :: d :: t, ⟨_, hall⟩ =>
    simp only [List.all_cons, Bool.and_eq_true] at hall
    obtain ⟨ha, hb, hc, hd, -⟩ := hall
    have htext : contentRef (a :: b :: c :: d :: t) = 's' :: 'h' :: 'a' :: '2' :: '5' :: '6' :: '/' ::
        a :: b :: '/' :: c :: d :: '/' :: (a :: b :: c :: d :: t) := rfl
    have hstart : Text.startsWith "sha256/".toList ['s', 'h', 'a', '2', '5', '6', '/', a, b, '/', c, d,
        '/'] = true := rfl
    rw [htext, blobDigest]
    simp only [List.drop_succ_cons, List.drop_zero, List.take_succ_cons, List.take_zero, hstart,
      List.all_cons, List.all_nil, ha, hb, hc, hd, h, Bool.and_true, beq_self_eq_true, if_true]
  | [], ⟨hl, _⟩ | [_], ⟨hl, _⟩ | [_, _], ⟨hl, _⟩ | [_, _, _], ⟨hl, _⟩ =>
    simp at hl

theorem ArtifactRef.clean_eq_ok {a b : ArtifactRef} :
    ArtifactRef.clean R withoutCapability a = .ok b ↔
      (a.bytes ≠ 0 ∧ a.bytes ≤ MAX_ARTIFACT_BYTES) ∧ isDigest a.sha256 = true ∧
      supportedMediaType R a.mediaType = .ok b.mediaType ∧
      optional (fun t => (tooLong MAX_NAME_CHARS t).bind fun _ => cleanName t) a.originalName =
        .ok b.originalName ∧
      ((optional (tooLong MAX_LOCATOR_CHARS) a.sourceUrl).bind
        fun _ => safeSourceUrl withoutCapability a.sourceUrl) = .ok b.sourceUrl ∧
      blobDigest a.blobRef = some a.sha256 ∧
      b.blobRef = a.blobRef ∧ b.sha256 = a.sha256 ∧ b.bytes = a.bytes := by
  have hclean : ArtifactRef.clean R withoutCapability a =
      if a.bytes = 0 || MAX_ARTIFACT_BYTES < a.bytes then .error "bytes is out of range".toList
      else if !isDigest a.sha256 then
        .error "sha256 must be 64 lowercase hexadecimal characters".toList
      else (supportedMediaType R a.mediaType).bind fun mediaType =>
        (optional (fun t => (tooLong MAX_NAME_CHARS t).bind fun _ => cleanName t) a.originalName).bind
          fun originalName => (optional (tooLong MAX_LOCATOR_CHARS) a.sourceUrl).bind fun _ =>
            (safeSourceUrl withoutCapability a.sourceUrl).bind fun sourceUrl =>
              if blobDigest a.blobRef != some a.sha256 then
                .error "blob_ref does not match sha256".toList
              else .ok { a with
                mediaType := mediaType
                originalName := originalName
                sourceUrl := sourceUrl } := by
    rw [ArtifactRef.clean]
    split
    · rfl
    · split
      · rfl
      · rfl
  rw [hclean]
  constructor
  · intro h
    obtain ⟨hbytes, h⟩ := Checks.of_ite_error h
    obtain ⟨hdigest, h⟩ := Checks.of_ite_error h
    obtain ⟨m, hm, h⟩ := Checks.bind_eq_ok.mp h
    obtain ⟨n, hn, h⟩ := Checks.bind_eq_ok.mp h
    obtain ⟨u, hu, h⟩ := Checks.bind_eq_ok.mp h
    obtain ⟨x, hx, h⟩ := Checks.bind_eq_ok.mp h
    obtain ⟨hblob, h⟩ := Checks.of_ite_error h
    obtain rfl := Except.ok.inj h
    rw [Bool.or_eq_true, decide_eq_true_eq, decide_eq_true_eq, not_or, Nat.not_lt] at hbytes
    rw [bne_iff_ne, not_not] at hblob
    exact ⟨hbytes, by simpa using hdigest, hm, hn, Checks.bind_eq_ok.mpr ⟨u, hu, hx⟩, hblob, rfl, rfl,
      rfl⟩
  · rintro ⟨hbytes, hdigest, hm, hn, hx, hblob, hb₁, hb₂, hb₃⟩
    obtain ⟨u, hu, hx⟩ := Checks.bind_eq_ok.mp hx
    rw [if_neg, if_neg]
    · refine Checks.bind_eq_ok.mpr ⟨_, hm, Checks.bind_eq_ok.mpr ⟨_, hn, ?_⟩⟩
      refine Checks.bind_eq_ok.mpr ⟨u, hu, Checks.bind_eq_ok.mpr ⟨_, hx, ?_⟩⟩
      rw [hblob, if_neg (by simp)]
      obtain ⟨_, _, _, _, _, _⟩ := b
      obtain rfl := hb₁
      obtain rfl := hb₂
      obtain rfl := hb₃
      rfl
    · rw [hdigest]
      exact Bool.false_ne_true
    · rw [Bool.or_eq_true, decide_eq_true_eq, decide_eq_true_eq, not_or, Nat.not_lt]
      exact hbytes

/-- the reference and the address of an artifact, as the schema gives them back -/
structure ArtifactRef.Kept (a : ArtifactRef) : Prop where
  sourceUrl : ((optional (tooLong MAX_LOCATOR_CHARS) a.sourceUrl).bind
    fun _ => safeSourceUrl withoutCapability a.sourceUrl) = .ok a.sourceUrl
  blobRef : a.blobRef = contentRef a.sha256

/-- a property of a literal, proved of its characters -/
theorem of_literal (P : Text → Prop) {l : List Char} (h : P l) : P (String.ofList l).toList := by
  rw [String.toList_ofList]
  exact h

theorem supported_plain : ∀ m ∈ SUPPORTED_MEDIA_TYPES,
    m.takeWhile (· != ';') = m ∧ Text.strip m = m ∧ Text.isBlank m = false := by
  intro m hm
  unfold SUPPORTED_MEDIA_TYPES at hm
  iterate 9
    rcases List.mem_cons.mp hm with rfl | hm
    · exact of_literal (fun m => m.takeWhile (· != ';') = m ∧ Text.strip m = m ∧ Text.isBlank m = false)
        (by decide +kernel)
  exact absurd hm List.not_mem_nil

/-- an artifact built again from its digest -/
theorem ArtifactRef.clean_again (hlower : ∀ m ∈ SUPPORTED_MEDIA_TYPES, R.lower m = m)
    {a b : ArtifactRef} (h : ArtifactRef.clean R withoutCapability a = .ok b) :
    ArtifactRef.clean R withoutCapability { b with blobRef := contentRef b.sha256 } = .ok b ↔
      b.Kept withoutCapability := by
  obtain ⟨hbytes, hdigest, hm, hn, -, hblob, hb₁, hb₂, hb₃⟩ := (ArtifactRef.clean_eq_ok R _).mp h
  rw [ArtifactRef.clean_eq_ok]
  constructor
  · rintro ⟨-, -, -, -, hu, -, hr, -⟩
    exact ⟨hu, hr⟩
  · intro hk
    have hdigest' : isDigest b.sha256 = true := hb₂ ▸ hdigest
    refine ⟨hb₃ ▸ hbytes, hdigest', ?_, ?_, hk.sourceUrl, blobDigest_contentRef hdigest',
      hk.blobRef, rfl, rfl⟩
    · rw [supportedMediaType] at hm
      split at hm
      · next hmem =>
        rw [Except.ok.inj hm, List.contains_iff_mem] at hmem
        obtain ⟨hfirst, hstrip, -⟩ := supported_plain _ hmem
        rw [supportedMediaType, hfirst, hstrip, hlower _ hmem]
        exact if_pos (List.contains_iff_mem.mpr hmem)
      · exact nomatch hm
    · refine optional_idem (fun t u hu => ?_) hn
      obtain ⟨_, ht, hu⟩ := Checks.bind_eq_ok.mp hu
      refine Checks.bind_eq_ok.mpr ⟨(), ?_, cleanName_idem hu⟩
      exact tooLong_eq_ok.mpr ((length_cleanName hu).trans (tooLong_eq_ok.mp ht))

theorem Envelope.clean_iff {a b : Envelope} : Envelope.clean a = .ok b ↔
    cleanIdempotencyKey a.idempotencyKey = .ok b.idempotencyKey ∧
    validAudience a.audience = .ok b.audience ∧ captureBytesAreBounded a.artifacts = .ok () ∧
    b = { a with idempotencyKey := b.idempotencyKey, audience := b.audience } := by
  show ((cleanIdempotencyKey a.idempotencyKey).bind fun key =>
    (validAudience a.audience).bind fun audience =>
      (captureBytesAreBounded a.artifacts).bind fun _ =>
        .ok { a with idempotencyKey := key, audience := audience }) = _ ↔ _
  rw [Checks.bind_eq_ok]
  constructor
  · rintro ⟨key, hk, h⟩
    obtain ⟨audience, ha, h⟩ := Checks.bind_eq_ok.mp h
    obtain ⟨_, hb, h⟩ := Checks.bind_eq_ok.mp h
    obtain rfl := Except.ok.inj h
    exact ⟨hk, ha, hb, rfl⟩
  · rintro ⟨hk, ha, hb, h⟩
    refine ⟨_, hk, Checks.bind_eq_ok.mpr ⟨_, ha, Checks.bind_eq_ok.mpr ⟨(), hb, ?_⟩⟩⟩
    exact congrArg Except.ok h.symm

/-- what an accepted envelope has been through -/
theorem Envelope.of_validate {raw e : Envelope} (h : raw.validate R withoutCapability = .ok e) :
    cleanIdentity raw.actor.subject = .ok e.actor.subject ∧
    (∃ o : Origin, o.validate R withoutCapability = .ok e.origin) ∧
    (∀ b ∈ e.artifacts, ∃ a, ArtifactRef.clean R withoutCapability a = .ok b) ∧
    e.intent.validate = .ok e.intent ∧ (∃ v, validAudience v = .ok e.audience) ∧
    captureBytesAreBounded e.artifacts = .ok () := by
  obtain ⟨actor, hactor, h⟩ := Checks.bind_eq_ok.mp h
  obtain ⟨origin, horigin, h⟩ := Checks.bind_eq_ok.mp h
  obtain ⟨artifacts, hartifacts, h⟩ := Checks.bind_eq_ok.mp h
  obtain ⟨intent, hintent, h⟩ := Checks.bind_eq_ok.mp h
  obtain ⟨-, haudience, hbounded, he⟩ := Envelope.clean_iff.mp h
  obtain ⟨subject, hsubject, hactor⟩ := Checks.bind_eq_ok.mp hactor
  obtain ⟨displayName, -, rfl⟩ := map_eq_ok.mp hactor
  have hsub : e.actor.subject = subject := by rw [he]
  have hori : e.origin = origin := by rw [he]
  have hart : e.artifacts = artifacts := by rw [he]
  have hint : e.intent = intent := by rw [he]
  refine ⟨hsub ▸ hsubject, ⟨_, hori ▸ horigin⟩, fun b hb => ?_, ?_, ⟨_, haudience⟩, hart ▸ hbounded⟩
  · rw [hart] at hb
    exact mem_validateAll hartifacts hb
  · rw [hint, Intent.validate_eq_ok hintent]
    exact Intent.validate_eq_ok hintent ▸ hintent

end

end Capture
