import Mathlib.Data.Prod.Lex
import Stigmergy.Knowledge.Contradictions
import Stigmergy.Knowledge.Pages

/-!
# The gates of a corpus

What `knowledge/lint.py` finds wrong with a tree, and the contract of source pages from
`knowledge/sources.py` it rests on.

* `parseSource`              the record of a source page;
* `nameCollisions`, `relationshipViolations`, `editorialViolations`   the three groups of checks;
* `check`                    all violations of a tree, sorted;
* `check_congr`              they depend on the Markdown pages of the tree only.
-/

set_option linter.unusedSectionVars false

namespace Lint

open Corpus Pages

/-! ## sources -/

def SOURCE_FIELDS : List Text :=
  ["id".toList, "type".toList, "submitted_by".toList, "acl".toList, "captured_at".toList,
    "occurred_at".toList, "origin".toList, "title".toList, "locator".toList, "acquisition".toList,
    "participants".toList, "artifacts".toList, "resolution_of".toList, "resolution_rationale".toList]

def REQUIRED_SOURCE_FIELDS : List Text :=
  ["id".toList, "type".toList, "submitted_by".toList, "captured_at".toList, "origin".toList,
    "participants".toList, "artifacts".toList]

/-- what the checks of a corpus use of a `SourceDocument` -/
structure SourceDocument where
  acl : Option (List Text)
  title : Text
  text : Text
deriving DecidableEq

/-- the strings of a list of strings none of which is empty -/
def aclStrings : List Yaml → Option (List Text)
  | [] => some []
  | .str s :: vs => if s.isEmpty then none else (aclStrings vs).map (s :: ·)
  | _ :: _ => none

/-- `_acl` of a source -/
def sourceAcl (v : Yaml) : Except Text (Option (List Text)) :=
  match v with
  | .null => .ok none
  | .list items _ =>
    match aclStrings items with
    | none => .error "source acl is invalid".toList
    | some [] => .error "source acl is invalid".toList
    | some labels =>
      if labels.Nodup then .ok (some labels) else .error "source acl contains duplicates".toList
  | _ => .error "source acl is invalid".toList

section
variable (R : Runtime)

/-- `int` of a text of decimal characters -/
def intOf (t : Text) : ℕ := t.foldl (fun n c => 10 * n + R.digit c) 0

/-- the checks `parse_source` makes after the fields, in order -/
def sourceRefusal (path : Text) (metadata : Metadata) (body : Text) : Except Text (Option Text) :=
  if (metadata.get "id").orEmpty ≠ (path.drop 16).take 36 ∨ Text.isBlank body then
    .error "source id or body is invalid".toList
  else
    match R.provenance metadata with
    | none => .error "source provenance is invalid".toList
    | some (year, month, title) =>
      if year ≠ intOf R ((path.drop 8).take 4) ∨ month ≠ intOf R ((path.drop 13).take 2) then
        .error "source path does not match captured_at".toList
      else
        match R.artifactsError (metadata.get "artifacts") with
        | some e => .error e
        | none => .ok title

/-- `parse_source` -/
def parseSource (path text : Text) : Except Text SourceDocument :=
  match splitFrontmatter R text with
  | (metadata, body, malformed) =>
    if !isSourcePath R path || malformed || (metadata.get "type").asStr != some "source".toList then
      .error "source path or frontmatter is invalid".toList
    else if metadata.any (fun e => !SOURCE_FIELDS.contains e.1) ||
        REQUIRED_SOURCE_FIELDS.any (fun field => !metadata.any fun e => e.1 == field) then
      .error "source frontmatter contains unsupported fields".toList
    else
      match sourceRefusal R path metadata body with
      | .error e => .error e
      | .ok found =>
        let title := match found with
          | some t => if t.isEmpty then "Captured source".toList else t
          | none => "Captured source".toList
        if (Text.splitlines (Text.strip body)).head?.map Text.strip ≠ some ("# ".toList ++ title) then
          .error "source heading does not match its title".toList
        else
          match sourceAcl (metadata.get "acl") with
          | .error e => .error e
          | .ok acl => .ok ⟨acl, title, text⟩

end

/-! ## pages of a corpus -/

structure Violation where
  path : Text
  code : Text
  message : Text
deriving DecidableEq

namespace Violation

/-- the fields in the order violations are sorted by -/
def sortKey (v : Violation) : Text ×ₗ Text ×ₗ Text := toLex (v.path, toLex (v.code, v.message))

def ofSortKey (k : Text ×ₗ Text ×ₗ Text) : Violation :=
  ⟨(ofLex k).1, (ofLex (ofLex k).2).1, (ofLex (ofLex k).2).2⟩

end Violation

structure CorpusPage where
  path : Text
  pageType : PageType
  title : Text
  acl : Option (List Text)
  sources : List Text
  text : Text
  nameKeys : List Text
  layer : Text
  vpath : Text
deriving DecidableEq

/-- the type a page's role gives it -/
def typeOfRole : Role → PageType
  | .note => .note
  | .concept => .concept
  | .entity => .entity
  | .project => .project

/-- `flows_into`: every reader of the page may read the content -/
def flowsInto (contentAcl pageAcl : Option (List Text)) : Bool :=
  match contentAcl, pageAcl with
  | none, _ => true
  | some _, none => false
  | some content, some page => page.all content.contains

/-- a Markdown file in a zone of the root or of a folder of `layers` -/
def isMarkdownPath (path : Text) : Bool :=
  let inZone (p : Text) := Text.startsWith "wiki/".toList p || Text.startsWith "sources/".toList p
  Text.endsWith ".md".toList path &&
    (inZone path ||
      (Text.startsWith (Layers.LAYER_ROOT ++ ['/']) path &&
        match Layers.cutSlash (path.drop 7) with
        | some (name, rest) => !name.isEmpty && inZone rest
        | none => false))

/-- `_markdown_paths`, each with its text -/
def markdownPages (t : Worktree) : List (Text × Text) :=
  (sortedSet (t.keys.filter isMarkdownPath)).filterMap fun path =>
    (t.lookup path).map fun text => (path, Text.universalNewlines text)

section
variable (R : Runtime)

/-- `_parse_corpus_page` -/
def parseCorpusPage (path text : Text) : Except Text CorpusPage :=
  match Layers.splitPath path with
  | none => .error "page lives outside a valid layer folder".toList
  | some (layer, vpath) =>
    let parsed : Except Text CorpusPage :=
      if (pathRole vpath).isSome then
        match parsePage R vpath text with
        | .error e => .error e
        | .ok page =>
          .ok
            { path := path
              pageType := typeOfRole page.role
              title := page.title
              acl := page.acl
              sources := page.sources
              text := text
              nameKeys := if page.role = .entity then page.nameKeys R else []
              layer := layer
              vpath := vpath }
      else if Text.startsWith "sources/".toList vpath then
        match parseSource R vpath text with
        | .error e => .error e
        | .ok source => .ok ⟨path, .source, [], source.acl, [], source.text, [], layer, vpath⟩
      else .error "Markdown is outside an allowed corpus folder".toList
    match parsed with
    | .error e => .error e
    | .ok page =>
      if page.acl ≠ Layers.aclOfLayer layer then
        .error "page audience does not match its layer folder".toList
      else .ok page

/-- the pages that parse, and a violation for each that does not -/
def parsedPages : List (Text × Text) → List CorpusPage × List Violation
  | [] => ([], [])
  | (path, text) :: files =>
    match parseCorpusPage R path text with
    | .error e => ((parsedPages files).1, ⟨path, "page-contract".toList, e⟩ :: (parsedPages files).2)
    | .ok page => (page :: (parsedPages files).1, (parsedPages files).2)

/-- `str(metadata.get("id") or "")` -/
def idOf (text : Text) : Text := ((splitFrontmatter R text).1.get "id").orEmpty

/-- every id that a page before it has; the last page before it is named -/
def duplicateIds : List (Text × Text) → List CorpusPage → List Violation
  | _, [] => []
  | seen, page :: pages =>
    if (idOf R page.text).isEmpty then duplicateIds seen pages
    else
      let rest := duplicateIds ((idOf R page.text, page.path) :: seen) pages
      match seen.find? fun e => e.1 == idOf R page.text with
      | some e => ⟨page.path, "duplicate-id".toList, "page id is also used by ".toList ++ e.2⟩ :: rest
      | none => rest

/-- `_name_collisions`; the order is that of `check` anyway -/
def nameCollisions (pages : List CorpusPage) : List Violation :=
  pages.flatMap fun page => page.nameKeys.flatMap fun key =>
    (pages.filter fun other => other.layer == page.layer && other.nameKeys.contains key &&
      other.path != page.path).map fun other =>
        ⟨page.path, "alias-collision".toList,
          "entity name ".toList ++ R.repr key ++ " is also claimed by ".toList ++ other.path⟩

/-! ## relationships -/

/-- the layers a page's names are looked up in -/
def scopeOf (layer : Text) : List Text :=
  if layer = Layers.PUBLIC then [Layers.PUBLIC] else [layer, Layers.PUBLIC]

/-- the pages of one layer with one name, case folded -/
def byStem (pages : List CorpusPage) (layer name : Text) : List CorpusPage :=
  pages.filter fun page => page.layer == layer && R.casefold (stem page.vpath) == name

/-- `resolve_source`: the page at a virtual path, the page's own layer first -/
def resolveSource (pages : List CorpusPage) (layer vpath : Text) : Option CorpusPage :=
  ((scopeOf layer).filterMap fun l => pages.find? fun page => page.layer == l && page.vpath == vpath).head?

/-- how many different virtual paths there are -/
def vpathsOf (pages : List CorpusPage) : List Text := (pages.map CorpusPage.vpath).dedup

/-- the number as text -/
def decimal (n : ℕ) : Text := (toString n).toList

/-- what is wrong with one wikilink -/
def linkViolations (pages : List CorpusPage) (page : CorpusPage) (target : Text) : List Violation :=
  let perLayer := (scopeOf page.layer).map fun layer => byStem R pages layer (R.casefold target)
  let found := perLayer.flatten
  if found.isEmpty || perLayer.any fun f => 1 < (vpathsOf f).length then
    let code := if found.isEmpty then "dead-link".toList else "ambiguous-link".toList
    [⟨page.path, code, "wikilink ".toList ++ R.repr target ++ " resolves ".toList ++
      decimal found.length ++ " times".toList⟩]
  else if 1 < (vpathsOf found).length then []
  else (found.filter fun other => !flowsInto other.acl page.acl).map fun other =>
    ⟨page.path, "acl-link-leak".toList,
      "link to ".toList ++ other.path ++ " crosses visibility".toList⟩

/-- what is wrong with a source a page declares -/
def sourceViolations (pages : List CorpusPage) (page : CorpusPage) (source : Text) : List Violation :=
  match resolveSource pages page.layer source with
  | some target =>
    if target.pageType ≠ .source then
      [⟨page.path, "missing-source".toList, "source ".toList ++ R.repr source ++
        " does not exist".toList⟩]
    else if !flowsInto target.acl page.acl then
      [⟨page.path, "acl-source-leak".toList, "source ".toList ++ source ++
        " crosses visibility".toList⟩]
    else []
  | none => [⟨page.path, "missing-source".toList, "source ".toList ++ R.repr source ++
      " does not exist".toList⟩]

/-- what is wrong with the source a contradiction claims -/
def claimViolations (pages : List CorpusPage) (page : CorpusPage) (claim : Claim) : List Violation :=
  let dead : Violation := ⟨page.path, "contradiction-source".toList,
    "contradiction source ".toList ++ claim.source ++ " does not exist".toList⟩
  match resolveSource pages page.layer claim.source with
  | some target =>
    if target.pageType ≠ .source then [dead]
    else if !flowsInto target.acl page.acl then
      [⟨page.path, "acl-contradiction-leak".toList,
        "contradiction source ".toList ++ claim.source ++ " crosses visibility".toList⟩]
    else []
  | none => [dead]

variable (C : Contradictions.Codec)

/-- the contradictions of one page, their ids among those of the pages before it -/
def contradictionViolations (pages : List CorpusPage) (page : CorpusPage) :
    List (Text × Text) → List Contradictions.LocatedContradiction →
      List Violation × List (Text × Text)
  | ids, [] => ([], ids)
  | ids, item :: items =>
    let claims := item.record.claims.flatMap (claimViolations pages page)
    match ids.find? fun e => e.1 == item.record.contradictionId with
    | some e =>
      let rest := contradictionViolations pages page ids items
      (⟨page.path, "duplicate-contradiction".toList,
        "contradiction id is also used by ".toList ++ e.2⟩ :: claims ++ rest.1, rest.2)
    | none =>
      let rest := contradictionViolations pages page ((item.record.contradictionId, page.path) :: ids) items
      (claims ++ rest.1, rest.2)

/-- what is wrong with one page that is no source -/
def pageViolations (pages : List CorpusPage) (ids : List (Text × Text)) (page : CorpusPage) :
    List Violation × List (Text × Text) :=
  let links := (linkTargets R page.text).flatMap (linkViolations R pages page)
  let sources := page.sources.flatMap (sourceViolations R pages page)
  match Contradictions.parseAll C page.text with
  | .error e => (links ++ sources ++ [⟨page.path, "contradiction-contract".toList, e⟩], ids)
  | .ok items =>
    let found := contradictionViolations pages page ids items
    (links ++ sources ++ found.1, found.2)

/-- `_relationship_violations` over the pages that are left -/
def relationshipsFrom (pages : List CorpusPage) : List (Text × Text) → List CorpusPage → List Violation
  | _, [] => []
  | ids, page :: rest =>
    if page.pageType = .source then relationshipsFrom pages ids rest
    else
      (pageViolations R C pages ids page).1 ++
        relationshipsFrom pages (pageViolations R C pages ids page).2 rest

def relationshipViolations (pages : List CorpusPage) : List Violation :=
  relationshipsFrom R C pages [] pages

end

/-! ## editorial minimums -/

section
variable (R : Runtime)

/-- `[^\s)\]>]` without the backtick -/
def isReferenceChar (c : Char) : Bool :=
  !(Text.isSpace c || c.toNat == 0x60 || c == ']' || c == ')' || c == '>')

/-- the longest text before `.md` among characters of a reference, at least one -/
def upToExtension (t : Text) : Option ℕ :=
  let run := t.takeWhile isReferenceChar
  ((List.range (run.length + 1)).filter fun n =>
    4 ≤ n && Text.endsWith ".md".toList (run.take n)).getLast?

/-- `_SOURCE_REFERENCE` -/
def sourceReference (t : Text) : Option (ℕ × Text) :=
  let rest := t.drop 8
  let digits (i : ℕ) := (rest[i]?).any R.isDecimal
  if Text.startsWith "sources/".toList t && digits 0 && digits 1 && digits 2 && digits 3 &&
      rest[4]? == some '/' && digits 5 && digits 6 && rest[7]? == some '/' then
    (upToExtension (rest.drop 8)).map fun n => (n + 16, t.take (n + 16))
  else none

/-- the words of `_PLACEHOLDER` -/
def PLACEHOLDERS : List Text :=
  ["todo".toList, "tbd".toList, "placeholder".toList, "to be written".toList, "coming soon".toList]

def isWordChar (c : Char) : Bool := R.isAlnum c || c == '_'

/-- `_PLACEHOLDER.search`, after a character of a word or not -/
def hasPlaceholder : Bool → Text → Bool
  | _, [] => false
  | inWord, c :: t =>
    (!inWord && PLACEHOLDERS.any fun word =>
      Text.startsWith word (R.lower (c :: t)) && !((c :: t)[word.length]?).any (isWordChar R)) ||
    hasPlaceholder (isWordChar R c) t

def isAsciiAlnum (c : Char) : Bool :=
  ('A' ≤ c && c ≤ 'Z') || ('a' ≤ c && c ≤ 'z') || ('0' ≤ c && c ≤ '9')

/-- the prose of a body whose first line is its heading -/
def proseViolations (path : Text) (prose : Text) : List Violation :=
  if prose.isEmpty then
    [⟨path, "empty-knowledge-body".toList, "knowledge body has no prose after its H1".toList⟩]
  else if hasPlaceholder R false prose || (prose.filter isAsciiAlnum).length < 32 then
    [⟨path, "placeholder-knowledge-body".toList, "knowledge body is effectively empty".toList⟩]
  else []

/-- the sources a body names against those its page declares -/
def citationViolations (page : CorpusPage) (body : Text) : List Violation :=
  let citations := sortedSet (Scan.found (sourceReference R) body)
  (if !page.sources.isEmpty && !citations.any page.sources.contains then
    [⟨page.path, "missing-local-source-attribution".toList,
      "knowledge body must cite a declared source locally".toList⟩]
  else []) ++
  (citations.filter fun c => !page.sources.contains c).map fun c =>
    ⟨page.path, "invalid-local-source-reference".toList,
      "local source reference ".toList ++ R.repr c ++ " is not declared".toList⟩

/-- `_editorial_violations` of one page -/
def editorialOf (page : CorpusPage) : List Violation :=
  match splitFrontmatter R page.text with
  | (metadata, body, malformed) =>
    if malformed || metadata.isEmpty then []
    else
      match ((Text.splitlines body).map Text.strip).filter fun line => !line.isEmpty with
      | [] => [⟨page.path, "heading-title".toList, "knowledge H1 must match page title".toList⟩]
      | heading :: lines =>
        if heading ≠ "# ".toList ++ page.title then
          [⟨page.path, "heading-title".toList, "knowledge H1 must match page title".toList⟩]
        else
          proseViolations R page.path (Text.oneLine ([' '].intercalate lines)) ++
            citationViolations R page body

def editorialViolations (pages : List CorpusPage) (editorialPaths : List Text) : List Violation :=
  editorialPaths.flatMap fun path =>
    match pages.find? fun page => page.path == path && page.pageType != .source with
    | some page => editorialOf R page
    | none => []

variable (C : Contradictions.Codec)

/-- the violations of the pages as they are read -/
def violationsOf (files : List (Text × Text)) (editorialPaths : List Text) : List Violation :=
  let pages := (parsedPages R files).1
  (parsedPages R files).2 ++ duplicateIds R [] pages ++ nameCollisions R pages ++
    relationshipViolations R C pages ++ editorialViolations R pages editorialPaths

/-- `check` -/
def check (t : Worktree) (editorialPaths : List Text) : List Violation :=
  (sortedSet ((violationsOf R C (markdownPages t) editorialPaths).map Violation.sortKey)).map
    Violation.ofSortKey

end

end Lint
