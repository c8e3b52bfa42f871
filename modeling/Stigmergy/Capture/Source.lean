import Stigmergy.Capture.Envelope
import Stigmergy.Capture.Provenance

/-!
# Source pages

`render_source` of `capture/source.py`: a capture as an immutable page, its provenance in the front
matter and the readable text of its artifacts in the body.

* `Value`         loaded YAML with all its data;
* `Formats`       the formats of dates and of YAML;
* `sourcePath`    the path of the page;
* `frontmatter`, `sourceBody`, `renderSource`   the page.
-/

set_option linter.unusedSectionVars false

namespace Capture

/-- a value `yaml.safe_load` returns -/
inductive Value where
  | null
  | bool (b : Bool)
  | int (n : ℤ)
  | str (s : Text)
  | list (items : List Value)
  | dict (entries : List (Text × Value))
  /-- a float, a date or a timestamp -/
  | other (truthy : Bool) (shown : Text)

abbrev Dict := List (Text × Value)

namespace Value

def isNull : Value → Bool
  | null => true
  | _ => false

/-- `bool(value)` -/
def truthy : Value → Bool
  | null => false
  | bool b => b
  | int n => n != 0
  | str s => !s.isEmpty
  | list items => !items.isEmpty
  | dict entries => !entries.isEmpty
  | other t _ => t

/-- a text, or `None` -/
def ofText : Option Text → Value
  | none => null
  | some t => str t

end Value

namespace Dict

/-- `metadata.get(key)` -/
def get (m : Dict) (key : String) : Value :=
  ((m.find? fun e => e.1 == key.toList).map (·.2)).getD .null

/-- `{key: value for key, value in m.items() if value is not None}` -/
def present (m : Dict) : Dict := m.filter fun e => !e.2.isNull

def keys (m : Dict) : List Text := m.map (·.1)

end Dict

/-- the formats of dates and of YAML, and what the schema models read in a value -/
structure Formats where
  /-- `datetime.isoformat()` in UTC -/
  isoformat : Time → Text
  /-- a datetime as `model_dump(mode="json")` writes it -/
  jsonTime : Time → Text
  /-- year and month in UTC -/
  calendar : Time → ℕ × ℕ
  /-- a datetime field, followed by `_utc` -/
  datetime : Value → Option Time
  /-- `occurred_at` through its two validators -/
  occurred : Value → Option Occurred
  /-- an `int` field -/
  integer : Value → Option ℤ
  /-- `str()` of a value that is no string -/
  shown : Value → Text
  /-- `uuid.UUID()`, as `str()` gives it back -/
  uuid : Text → Option Text
  safeDump : Dict → Text
  safeLoad : Text → Option Value

/-- what `extract_capture` returns for one artifact, as far as a page holds it -/
structure ExtractedArtifact where
  original : ArtifactRef
  readableSha256 : Text
  text : Text
  mediaType : Text
  extractor : Text
  extractorVersion : Text
  ocrPages : List ℕ
  digest : isDigest readableSha256 = true
  named : Text.isBlank extractor = false ∧ Text.isBlank extractorVersion = false
  pages : ocrPages.Nodup ∧ ∀ page ∈ ocrPages, 1 ≤ page

def Adapter.name : Adapter → Text
  | .mcp => "mcp".toList
  | .slack => "slack".toList
  | .admin => "admin".toList

/-- `width` decimal digits of a number, zeros in front -/
def padded : ℕ → ℕ → Text
  | 0, _ => []
  | width + 1, n => padded width (n / 10) ++ [Nat.digitChar (n % 10)]

def MAX_CAPTURE_RENDERED_SOURCE_BYTES : ℕ := 2 * 1024 * 1024 + 256 * 1024

section
variable (F : Formats)

/-- `source_path`; a year has four digits -/
def sourcePath (e : Envelope) : Text :=
  "sources/".toList ++ padded 4 (F.calendar e.origin.capturedAt).1 ++
    '/' :: padded 2 (F.calendar e.origin.capturedAt).2 ++ '/' :: e.captureId ++ ".md".toList

def Occurred.isoformat : Occurred → Text
  | .date day => day
  | .instant t => F.isoformat t

def AcquisitionProvenance.fields (a : AcquisitionProvenance) : Dict :=
  [("original_url".toList, .str a.originalUrl), ("final_url".toList, .str a.finalUrl),
    ("acquired_at".toList, .str (F.jsonTime a.acquiredAt)),
    ("drive_file_id".toList, .ofText a.driveFileId),
    ("drive_media_type".toList, .ofText a.driveMediaType),
    ("export_media_type".toList, .ofText a.exportMediaType)]

/-- `model_dump(mode="json", exclude_none=True)` -/
def AcquisitionProvenance.dump (a : AcquisitionProvenance) : Value := .dict (a.fields F).present

def Participant.dump (p : Participant) : Value :=
  .dict [("subject".toList, .ofText p.subject), ("display_name".toList, .str p.displayName)]

def ExtractedArtifact.fields (x : ExtractedArtifact) : Dict :=
  [("sha256".toList, .str x.original.sha256), ("bytes".toList, .int x.original.bytes),
    ("media_type".toList, .str x.original.mediaType),
    ("original_name".toList, .ofText x.original.originalName),
    ("source_url".toList, .ofText x.original.sourceUrl),
    ("readable_sha256".toList, .str x.readableSha256), ("extractor".toList, .str x.extractor),
    ("extractor_version".toList, .str x.extractorVersion),
    ("ocr_pages".toList, .list (x.ocrPages.map fun page => .int page))]

def ExtractedArtifact.dump (x : ExtractedArtifact) : Value := .dict x.fields

/-- the fields of the front matter, before those without a value are left out -/
def sourceFields (e : Envelope) (xs : List ExtractedArtifact) : Dict :=
  [("id".toList, .str e.captureId), ("type".toList, .str "source".toList),
    ("submitted_by".toList, .str e.actor.subject),
    ("acl".toList, e.audience.elim .null fun groups => .list (groups.map .str)),
    ("captured_at".toList, .str (F.isoformat e.origin.capturedAt)),
    ("occurred_at".toList, e.origin.occurredAt.elim .null fun o => .str (o.isoformat F)),
    ("origin".toList, .str e.origin.adapter.name), ("title".toList, .ofText e.origin.title),
    ("locator".toList, .ofText e.origin.locator),
    ("acquisition".toList, e.origin.acquisition.elim .null (AcquisitionProvenance.dump F)),
    ("participants".toList, .list (e.origin.participants.map Participant.dump)),
    ("artifacts".toList, .list (xs.map ExtractedArtifact.dump)),
    ("resolution_of".toList, .ofText e.intent.resolutionOf),
    ("resolution_rationale".toList, .ofText e.intent.rationale)]

def frontmatter (e : Envelope) (xs : List ExtractedArtifact) : Dict := (sourceFields F e xs).present

/-- `title or "Captured source"` -/
def headingOf : Option Text → Text
  | some t => if t.isEmpty then "Captured source".toList else t
  | none => "Captured source".toList

def OCR_MARK : Text := "OCR transcription".toList

/-- `_readable_mark` -/
def readableMark (x : ExtractedArtifact) : Text :=
  if !x.ocrPages.isEmpty && ["image/png".toList, "image/jpeg".toList].contains x.mediaType then
    " (".toList ++ OCR_MARK ++ ")".toList
  else []

def decimal (n : ℕ) : Text := Nat.toDigits 10 n

/-- the part of the body for one artifact -/
def artifactSection (index : ℕ) (x : ExtractedArtifact) : Text :=
  let name := match x.original.originalName with
    | some t => if t.isEmpty then "artifact-".toList ++ decimal index else t
    | none => "artifact-".toList ++ decimal index
  "\n## Artifact ".toList ++ decimal index ++ ": ".toList ++ name ++ "\n\n".toList ++
    "- Media type: ".toList ++ x.original.mediaType ++ "\n".toList ++
    "- Bytes: ".toList ++ decimal x.original.bytes ++ "\n".toList ++
    "- SHA-256: ".toList ++ x.original.sha256 ++ "\n".toList ++
    "- Extraction: ".toList ++ x.extractor ++ '@' :: x.extractorVersion ++ "\n".toList ++
    "\n### Readable content".toList ++ readableMark x ++ "\n\n".toList ++
    x.text ++ if Text.endsWith ['\n'] x.text then [] else ['\n']

def artifactSections : ℕ → List ExtractedArtifact → Text
  | _, [] => []
  | index, x :: xs => artifactSection index x ++ artifactSections (index + 1) xs

def sourceBody (e : Envelope) (xs : List ExtractedArtifact) : Text :=
  "# ".toList ++ headingOf e.origin.title ++ '\n' :: artifactSections 1 xs

/-- the YAML between the fences -/
def yamlText (e : Envelope) (xs : List ExtractedArtifact) : Text :=
  Text.rstrip (F.safeDump (frontmatter F e xs))

def renderSource (e : Envelope) (xs : List ExtractedArtifact) : Except Text Text :=
  if xs.map (·.original) ≠ e.artifacts then
    .error "extractions do not match the capture artifacts".toList
  else
    let rendered := "---\n".toList ++ yamlText F e xs ++ "\n---\n\n".toList ++ sourceBody e xs
    if MAX_CAPTURE_RENDERED_SOURCE_BYTES < (rendered.map Char.utf8Size).sum then
      .error "rendered source exceeds capture source capacity".toList
    else .ok rendered

end

end Capture
