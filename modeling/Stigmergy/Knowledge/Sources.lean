import Stigmergy.Capture.Source
import Stigmergy.Knowledge.Lint

/-!
# Reading source pages

`knowledge/sources.py`: the contract of a source page and the envelope a recompile files it with again.

* `originOf`, `artifactOf`    what the schema models make of the front matter;
* `parseSource`               a page checked against its path and its heading;
* `sourceEnvelope`            the capture as it was filed.
-/

set_option linter.unusedSectionVars false

namespace Sources

open Capture

structure SourceDocument where
  path : Text
  acl : Option (List Text)
  title : Text
  capturedAt : Time
  body : Text
  text : Text
  byteSize : ℕ

def ARTIFACT_FIELDS : List Text :=
  ["sha256".toList, "bytes".toList, "media_type".toList, "original_name".toList, "source_url".toList,
    "readable_sha256".toList, "extractor".toList, "extractor_version".toList, "ocr_pages".toList]

def REQUIRED_ARTIFACT_FIELDS : List Text :=
  ["sha256".toList, "bytes".toList, "media_type".toList, "readable_sha256".toList, "extractor".toList,
    "extractor_version".toList, "ocr_pages".toList]

/-- `not fields - allowed and fields >= required` -/
def hasFields (allowed required : List Text) (m : Dict) : Bool :=
  m.keys.all (allowed.contains ·) && required.all (m.keys.contains ·)

/-! ## values -/

/-- an optional `str` field -/
def textOf : Value → Except Text (Option Text)
  | .null => .ok none
  | .str s => .ok (some s)
  | _ => .error "input should be a valid string".toList

def requiredText : Value → Except Text Text
  | .str s => .ok s
  | _ => .error "input should be a valid string".toList

/-- `value == text` -/
def isText (text : String) : Value → Bool
  | .str s => s == text.toList
  | _ => false

def orError {α : Type} (message : String) : Option α → Except Text α
  | none => .error message.toList
  | some a => .ok a

def adapterOf : Value → Option Adapter
  | .str s => [Adapter.mcp, .slack, .admin].find? fun a => a.name == s
  | _ => none

/-- a field that holds a list -/
def listOf {α : Type} (f : Value → Except Text α) : List Value → Except Text (List α)
  | [] => .ok []
  | v :: vs => (f v).bind fun a => (listOf f vs).map (a :: ·)

def itemsOf : Value → Except Text (List Value)
  | .list items => .ok items
  | _ => .error "input should be a valid list".toList

/-- a nested model with `extra="forbid"` -/
def fieldsOf (allowed : List String) : Value → Except Text Dict
  | .dict m =>
    if (Capture.Dict.keys m).all fun key => allowed.any fun name => name.toList == key then .ok m
    else .error "extra inputs are not permitted".toList
  | _ => .error "input should be a valid dictionary".toList

def participantOf (v : Value) : Except Text Participant :=
  (fieldsOf ["subject", "display_name"] v).bind fun m =>
    (textOf (m.get "subject")).bind fun subject =>
      (requiredText (m.get "display_name")).map fun displayName => ⟨subject, displayName⟩

section
variable (R : Runtime) (F : Formats) (withoutCapability : Text → Except Text Text)

/-- `str(value)` -/
def shown : Value → Text
  | .str s => s
  | v => F.shown v

/-- `str(value or "")` -/
def orEmpty (v : Value) : Text := if v.truthy then shown F v else []

def acquisitionOf (v : Value) : Except Text AcquisitionProvenance :=
  (fieldsOf ["original_url", "final_url", "acquired_at", "drive_file_id", "drive_media_type",
      "export_media_type"] v).bind fun m =>
    (requiredText (m.get "original_url")).bind fun originalUrl =>
      (requiredText (m.get "final_url")).bind fun finalUrl =>
        (orError "input should be a valid datetime" (F.datetime (m.get "acquired_at"))).bind fun acquiredAt =>
          (textOf (m.get "drive_file_id")).bind fun driveFileId =>
            (textOf (m.get "drive_media_type")).bind fun driveMediaType =>
              (textOf (m.get "export_media_type")).map fun exportMediaType =>
                ⟨originalUrl, finalUrl, acquiredAt, driveFileId, driveMediaType, exportMediaType⟩

/-- a value that may be missing -/
def unlessNull {α : Type} (f : Value → Except Text α) (v : Value) : Except Text (Option α) :=
  if v.isNull then .ok none else (f v).map some

/-- the fields of `Origin` as the front matter has them -/
def rawOrigin (m : Dict) : Except Text Origin :=
  (orError "input should be 'mcp', 'slack' or 'admin'" (adapterOf (m.get "origin"))).bind fun adapter =>
    (orError "input should be a valid datetime" (F.datetime (m.get "captured_at"))).bind fun capturedAt =>
      (unlessNull (fun v => orError "input should be a valid date" (F.occurred v))
          (m.get "occurred_at")).bind fun occurredAt =>
        (textOf (m.get "title")).bind fun title =>
          (textOf (m.get "locator")).bind fun locator =>
            ((itemsOf (m.get "participants")).bind (listOf participantOf)).bind fun participants =>
              (unlessNull (acquisitionOf F) (m.get "acquisition")).map fun acquisition =>
                ⟨adapter, capturedAt, occurredAt, title, locator, participants, acquisition⟩

/-- `Origin.model_validate` of the front matter -/
def originOf (m : Dict) : Except Text Origin :=
  (rawOrigin F m).bind (Origin.validate R withoutCapability)

/-- `CaptureIntent` of the front matter -/
def intentOf (m : Dict) : Except Text Intent :=
  (textOf (m.get "resolution_of")).bind fun resolutionOf =>
    (textOf (m.get "resolution_rationale")).bind fun rationale =>
      Intent.validate ⟨resolutionOf, rationale⟩

/-- `ArtifactRef` of one entry, under its digest -/
def artifactOf (m : Dict) (digest : Text) : Except Text ArtifactRef :=
  if !isDigest digest then .error "sha256 must be 64 lowercase hexadecimal characters".toList
  else
    (orError "input should be a valid integer" (F.integer (m.get "bytes"))).bind fun bytes =>
      (requiredText (m.get "media_type")).bind fun mediaType =>
        (textOf (m.get "original_name")).bind fun originalName =>
          (textOf (m.get "source_url")).bind fun sourceUrl =>
            if bytes < 0 then .error "input should be greater than 0".toList
            else ArtifactRef.clean R withoutCapability
              ⟨contentRef digest, digest, bytes.toNat, mediaType, originalName, sourceUrl⟩

/-! ## `parse_source` -/

/-- the text of a field that must not be blank -/
def isNamed : Value → Bool
  | .str s => !Text.isBlank s
  | _ => false

/-- the pages of `ocr_pages`, when it is a list of pages -/
def ocrPages : List Value → Option (List ℤ)
  | [] => some []
  | .int n :: vs => if n < 1 then none else (ocrPages vs).map (n :: ·)
  | _ :: _ => none

def validOcrPages : Value → Bool
  | .list items => (ocrPages items).any fun pages => decide pages.Nodup
  | _ => false

/-- one round of `_validate_artifacts` -/
def validateArtifact (v : Value) : Except Text Unit :=
  match v with
  | .dict m =>
    if !hasFields ARTIFACT_FIELDS REQUIRED_ARTIFACT_FIELDS m then
      .error "source artifact metadata is incomplete".toList
    else
      match artifactOf R F withoutCapability m (orEmpty F (Dict.get m "sha256")) with
      | .error _ => .error "source artifact metadata is invalid".toList
      | .ok _ =>
        if !isDigest (orEmpty F (Dict.get m "readable_sha256")) then
          .error "source readable sha256 is invalid".toList
        else if !(isNamed (Dict.get m "media_type") && isNamed (Dict.get m "extractor") &&
            isNamed (Dict.get m "extractor_version")) then
          .error "source artifact metadata is incomplete".toList
        else if !validOcrPages (Dict.get m "ocr_pages") then
          .error "source artifact OCR pages are invalid".toList
        else .ok ()
  | _ => .error "source artifact metadata is incomplete".toList

def validateArtifacts : Value → Except Text Unit
  | .list (v :: vs) => (listOf (validateArtifact R F withoutCapability) (v :: vs)).map fun _ => ()
  | _ => .error "source artifacts must be a non-empty list".toList

/-- the strings of a list, when none is empty -/
def labels : List Value → Option (List Text)
  | [] => some []
  | .str s :: vs => if s.isEmpty then none else (labels vs).map (s :: ·)
  | _ :: _ => none

/-- `_acl` -/
def aclOf : Value → Except Text (Option (List Text))
  | .null => .ok none
  | .list (v :: vs) =>
    match labels (v :: vs) with
    | none => .error "source acl is invalid".toList
    | some groups =>
      if groups.Nodup then .ok (some groups) else .error "source acl contains duplicates".toList
  | _ => .error "source acl is invalid".toList

/-- `split_frontmatter_checked` -/
def splitFrontmatter (text : Text) : Dict × Text × Bool :=
  match (Corpus.opener text).bind Corpus.upToCloser with
  | some (block, body) =>
    match F.safeLoad block with
    | none => ([], text, true)
    | some .null => ([], body, false)
    | some (.dict m) => (m, body, false)
    | some _ => ([], body, true)
  | none => ([], text, (Corpus.opener text).any R.askedForAnAudience)

/-- origin, submitter and intent of the front matter -/
def provenanceOf (m : Dict) : Except Text Origin :=
  (originOf R F withoutCapability m).bind fun origin =>
    (Actor.validate ⟨orEmpty F (m.get "submitted_by"), orEmpty F (m.get "submitted_by")⟩).bind fun _ =>
      (intentOf m).map fun _ => origin

/-- the checks of `parse_source` on a page whose fields are known -/
def checkSource (path text body : Text) (m : Dict) : Except Text SourceDocument :=
  if orEmpty F (m.get "id") ≠ (path.drop 16).take 36 ∨ Text.isBlank body then
    .error "source id or body is invalid".toList
  else
    match provenanceOf R F withoutCapability m with
    | .error _ => .error "source provenance is invalid".toList
    | .ok origin =>
      if (F.calendar origin.capturedAt).1 ≠ Lint.intOf R ((path.drop 8).take 4) ∨
          (F.calendar origin.capturedAt).2 ≠ Lint.intOf R ((path.drop 13).take 2) then
        .error "source path does not match captured_at".toList
      else
        (validateArtifacts R F withoutCapability (m.get "artifacts")).bind fun _ =>
          if (Text.splitlines (Text.strip body)).head?.map Text.strip ≠
              some ("# ".toList ++ headingOf origin.title) then
            .error "source heading does not match its title".toList
          else
            (aclOf (m.get "acl")).map fun acl =>
              ⟨path, acl, headingOf origin.title, origin.capturedAt, body, text,
                (text.map Char.utf8Size).sum⟩

def parseSource (path text : Text) : Except Text SourceDocument :=
  match splitFrontmatter R F text with
  | (m, body, malformed) =>
    if !Corpus.isSourcePath R path || malformed || !isText "source" (m.get "type") then
      .error "source path or frontmatter is invalid".toList
    else if !hasFields Lint.SOURCE_FIELDS Lint.REQUIRED_SOURCE_FIELDS m then
      .error "source frontmatter contains unsupported fields".toList
    else checkSource R F withoutCapability path text body m

/-! ## `source_envelope` -/

def sourceArtifact (v : Value) : Except Text ArtifactRef :=
  match v with
  | .dict m =>
    if (Capture.Dict.keys m).contains "sha256".toList then
      artifactOf R F withoutCapability m (shown F (Dict.get m "sha256"))
    else .error "sha256".toList
  | _ => .error "list indices must be integers or slices".toList

/-- the envelope a recompile files the source with; every failure is a `SourceContractError` -/
def sourceEnvelope (source : SourceDocument) : Except Text Envelope :=
  match splitFrontmatter R F source.text with
  | (_, _, true) => .error "source frontmatter is invalid".toList
  | (m, _, false) =>
    ((itemsOf (m.get "artifacts")).bind (listOf (sourceArtifact R F withoutCapability))).bind fun artifacts =>
      (orError "badly formed hexadecimal UUID string" (F.uuid (shown F (m.get "id")))).bind fun captureId =>
        (Actor.validate ⟨shown F (m.get "submitted_by"), shown F (m.get "submitted_by")⟩).bind fun actor =>
          (originOf R F withoutCapability m).bind fun origin =>
            (intentOf m).bind fun intent =>
              Envelope.clean
                ⟨captureId, "recompile:".toList ++ shown F (m.get "id"), actor, source.acl, origin, artifacts,
                  intent⟩

end

end Sources
