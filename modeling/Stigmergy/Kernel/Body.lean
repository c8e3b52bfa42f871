import Mathlib.Data.Char
import Mathlib.Data.List.Lex
import Mathlib.Data.List.Sort
import Stigmergy.Lib.SortedSet
import Stigmergy.Kernel.Layers

/-!
# Page bodies

A body is a title line and sections of units, from `kernel/layers.py`.  The parser goes over the lines
once, its state an explicit record.

* `parseBody`, `renderBody`   text to body and back;
* `unitKey`                   what makes two units the same;
* `combine`                   bodies fused section by section, each unit once;
* `mergeForWriting`, `splitFromPublic`   the page a librarian of a layer extends, and the part of it
                              that goes back to the layer;
* `fuseForReading`            the body a reader sees.
-/

set_option linter.unusedSectionVars false

namespace Body

inductive Kind where
  | item | paragraph | callout
deriving DecidableEq, Repr

structure BodyUnit where
  kind : Kind
  text : Text
  layer : Text
deriving DecidableEq

structure BodySection where
  heading : Option Text
  units : List BodyUnit
deriving DecidableEq

structure Parsed where
  titleLine : Text
  sections : List BodySection
deriving DecidableEq

def CALLOUT_START : Text := "<!-- stigmergy-contradiction-start:".toList
def CALLOUT_END : Text := "<!-- stigmergy-contradiction-end:".toList

/-! ## keys -/

/-- `_PUNCTUATION` -/
def punctuation (c : Char) : Char :=
  let n := c.toNat
  if (0x2010 ≤ n && n ≤ 0x2014) || n == 0x2212 then '-'
  else if n == 0x2018 || n == 0x2019 then '\''
  else if n == 0x201c || n == 0x201d then '"'
  else c

section
variable (R : Runtime)

/-- `unit_key` -/
def unitKey (t : Text) : Text := Text.oneLine ((R.nfkc t).map punctuation)

def BodyUnit.key (u : BodyUnit) : Text := unitKey R u.text

/-- the key of a section; none for the units before the first heading -/
def BodySection.key (s : BodySection) : Option Text :=
  s.heading.map fun h => R.casefold (unitKey R h)

/-! ## lines -/

def fenceLine (line : Text) : Bool := Text.startsWith "```".toList (Text.strip line)

/-- `_HEADING_RE` -/
def headingLine (line : Text) : Bool :=
  let level := (line.takeWhile (· == '#')).length
  let rest := line.dropWhile (· == '#')
  2 ≤ level && level ≤ 6 && !(rest.takeWhile Text.isSpace).isEmpty &&
    !(rest.dropWhile Text.isSpace).isEmpty

/-- the length of `\s+` at the front, after `k` characters -/
def blanks (k : ℕ) (t : Text) : Option ℕ :=
  let spaces := t.takeWhile Text.isSpace
  if spaces.isEmpty then none else some (k + spaces.length)

/-- the length of `_ITEM_RE` at the front of a text -/
def itemPrefix (t : Text) : Option ℕ :=
  match t with
  | [] => none
  | c :: rest =>
    if c == '-' || c == '*' || c == '+' then blanks 1 rest
    else
      let digits := t.takeWhile R.isDecimal
      match t.drop digits.length with
      | d :: rest =>
        if 1 ≤ digits.length && digits.length ≤ 9 && (d == '.' || d == ')') then
          blanks (digits.length + 1) rest
        else none
      | [] => none

def itemLine (line : Text) : Bool := (itemPrefix R line).isSome

/-! ## parsing -/

inductive Mode where
  | prose | fence | callout
deriving DecidableEq, Repr

/-- what `parse_body` takes a line for outside fences and callouts, by the order of its tests -/
inductive LineKind where
  | calloutStart | fence | heading | blank | item | text
deriving DecidableEq, Repr

def lineKind (line : Text) : LineKind :=
  if Text.startsWith CALLOUT_START line then .calloutStart
  else if fenceLine line then .fence
  else if headingLine line then .heading
  else if Text.isBlank line then .blank
  else if itemLine R line then .item
  else .text

/-- `parse_body` between two lines; in a callout `current` is its block -/
structure Parser where
  layer : Text
  sections : List BodySection
  heading : Option Text
  units : List BodyUnit
  current : List Text
  kind : Option Kind
  mode : Mode

namespace Parser

/-- `flush` -/
def flush (p : Parser) : Parser :=
  let units :=
    if p.current.any fun line => !Text.isBlank line then
      p.units ++ [⟨p.kind.getD .paragraph, Text.stripChar '\n' (Text.unlines p.current), p.layer⟩]
    else p.units
  { p with units := units, current := [], kind := none }

/-- the section that is open -/
def last (p : Parser) : BodySection := ⟨p.heading, p.units⟩

/-- a line outside fences and callouts -/
def proseStep (p : Parser) (line : Text) : LineKind → Parser
  | .calloutStart => { p.flush with current := [line], kind := some .callout, mode := .callout }
  | .fence =>
    if p.kind = some .item then { p with current := p.current ++ [line], mode := .fence }
    else { p.flush with current := [line], kind := some .paragraph, mode := .fence }
  | .heading =>
    { p.flush with
      sections := p.sections ++ [p.flush.last]
      heading := some (Text.rstrip line)
      units := [] }
  | .blank => p.flush
  | .item => { p.flush with current := [line], kind := some .item }
  | .text =>
    { p with
      current := p.current ++ [line]
      kind := if p.current.isEmpty then some .paragraph else p.kind }

def step (p : Parser) (line : Text) : Parser :=
  match p.mode with
  | .fence =>
    { p with
      current := p.current ++ [line]
      mode := if fenceLine line then .prose else .fence }
  | .callout =>
    if Text.startsWith CALLOUT_END line then
      { p with
        units := p.units ++ [⟨.callout, Text.unlines (p.current ++ [line]), p.layer⟩]
        current := []
        kind := none
        mode := .prose }
    else { p with current := p.current ++ [line] }
  | .prose => p.proseStep line (lineKind R line)

def start (layer : Text) : Parser := ⟨layer, [], none, [], [], none, .prose⟩

/-- the end of the text: a callout that is still open ends there -/
def finish (p : Parser) : List BodySection :=
  let q :=
    if p.mode = .callout then
      { p with units := p.units ++ [⟨.callout, Text.unlines p.current, p.layer⟩] }
    else p.flush
  (q.sections ++ [q.last]).filter fun s => s.heading.isSome || !s.units.isEmpty

end Parser

/-- the lines after leading blank ones, cut into the title line and the rest -/
def titled (body : Text) : Text × List Text :=
  match (Text.linesOf (Text.stripChar '\n' body)).dropWhile Text.isBlank with
  | line :: lines =>
    if Text.startsWith "# ".toList line then (Text.rstrip line, lines) else ([], line :: lines)
  | [] => ([], [])

/-- the parser after the last line -/
def parsed (layer body : Text) : Parser := (titled body).2.foldl (Parser.step R) (Parser.start layer)

def parseBody (layer body : Text) : Parsed := ⟨(titled body).1, (parsed R layer body).finish⟩

/-! ## rendering -/

/-- `MARKER_RE` -/
def marker (t : Text) : Option ℕ :=
  if Text.startsWith "[layer:".toList t then
    let name := (t.drop 7).takeWhile fun c => Layers.isLower c || Layers.isDigit c || c == '-'
    if Layers.matchesName name && Text.startsWith "] ".toList (t.drop (7 + name.length)) then
      some (name.length + 9)
    else none
  else none

/-- `escape_markers`: a backslash before each match -/
def escapeFrom : ℕ → Text → Text
  | _, [] => []
  | k + 1, c :: t => c :: escapeFrom k t
  | 0, c :: t =>
    match marker (c :: t) with
    | some (n + 1) => '\\' :: c :: escapeFrom n t
    | _ => c :: escapeFrom 0 t

def escapeMarkers (t : Text) : Text := escapeFrom 0 t

/-- `_marked` -/
def marked (u : BodyUnit) : Text :=
  let text := escapeMarkers u.text
  if u.layer = Layers.PUBLIC ∨ u.kind = .callout then text
  else
    let tag := "[layer:".toList ++ u.layer ++ "] ".toList
    match itemPrefix R text with
    | some n => text.take n ++ tag ++ text.drop n
    | none => tag ++ text

def unitText (mark : Bool) (u : BodyUnit) : Text := if mark then marked R u else u.text

/-- the units of a section: items on the next line, anything else after a blank one -/
def joinUnits (mark : Bool) : List BodyUnit → Text
  | [] => []
  | [u] => unitText R mark u
  | u :: v :: us =>
    unitText R mark u ++
      (if u.kind = .item ∧ v.kind = .item then ['\n'] else ['\n', '\n']) ++ joinUnits mark (v :: us)

/-- a section's part of the text, when it has one -/
def renderSection (mark : Bool) (s : BodySection) : Option Text :=
  let rendered := joinUnits R mark s.units
  if s.units.isEmpty && s.heading.isSome then none
  else
    match s.heading with
    | some heading =>
      some (if rendered.isEmpty then heading else heading ++ '\n' :: rendered)
    | none => if rendered.isEmpty then none else some rendered

def renderBody (mark : Bool) (b : Parsed) : Text :=
  let parts := (if b.titleLine.isEmpty then [] else [b.titleLine]) ++
    b.sections.filterMap (renderSection R mark)
  if parts.isEmpty then [] else Text.strip (['\n', '\n'].intercalate parts) ++ ['\n']

/-! ## fusing -/

/-- `\d{4}-\d{2}-\d{2}\b` at the front, after an optional `**` -/
def datePrefix (t : Text) : Option Text :=
  let u := if Text.startsWith "**".toList t then t.drop 2 else t
  let digit (i : ℕ) := (u[i]?).any R.isDecimal
  let dash (i : ℕ) := u[i]? == some '-'
  if digit 0 && digit 1 && digit 2 && digit 3 && dash 4 && digit 5 && digit 6 && dash 7 && digit 8 &&
      digit 9 && !(u[10]?).any fun c => R.isAlnum c || c == '_' then some (u.take 10)
  else none

/-- the list marker of `_DATE_RE`, whose white space is optional -/
def dateMarker (t : Text) : Option Text :=
  match t with
  | [] => none
  | c :: rest =>
    if c == '-' || c == '*' || c == '+' then some rest
    else
      let digits := t.takeWhile R.isDecimal
      match t.drop digits.length with
      | d :: rest =>
        if 1 ≤ digits.length && digits.length ≤ 9 && (d == '.' || d == ')') then some rest else none
      | [] => none

/-- `_DATE_RE`: with a list marker when that matches, without one otherwise -/
def dateText (t : Text) : Option Text :=
  ((dateMarker R t).bind fun rest => datePrefix R (Text.lstrip rest)).or
    (datePrefix R (Text.lstrip t))

/-- `_leading_date`, as ISO text -/
def leadingDate (u : BodyUnit) : Option Text := (dateText R u.text).bind R.isoDate

/-- `_WIKILINK_RE`: the first link target of an item -/
def wikilinkTarget : Text → Option Text
  | [] => none
  | c :: t =>
    let inner := (c :: t).drop 2 |>.takeWhile fun d => d != '[' && d != ']' && d != '|' && d != '#'
    if Text.startsWith "[[".toList (c :: t) && !inner.isEmpty then some inner else wikilinkTarget t

/-- the page a Connections item links to -/
def target (u : BodyUnit) : Option Text :=
  if u.kind = .item then (wikilinkTarget u.text).map fun t => R.casefold (Text.strip t) else none

/-- `_dedupe` after the units and targets it has kept -/
def dedupeFrom (connections : Bool) : List Text → List Text → List BodyUnit → List BodyUnit
  | _, _, [] => []
  | seen, targets, u :: us =>
    if u.key R ∈ seen then dedupeFrom connections seen targets us
    else
      match if connections then target R u else none with
      | none => u :: dedupeFrom connections (u.key R :: seen) targets us
      | some t =>
        if t ∈ targets then dedupeFrom connections seen targets us
        else u :: dedupeFrom connections (u.key R :: seen) (t :: targets) us

def dedupe (connections : Bool) (units : List BodyUnit) : List BodyUnit :=
  dedupeFrom R connections [] [] units

def CONNECTIONS : Text := "## connections".toList

/-- the units of all sections with one key -/
def unitsOf (sections : List BodySection) (key : Option Text) : List BodyUnit :=
  (sections.filter fun s => s.key R == key).flatMap BodySection.units

/-- the heading of the first section with a key -/
def headingOf (sections : List BodySection) (key : Option Text) : Option Text :=
  ((sections.find? fun s => s.key R == key).bind BodySection.heading)

/-- whether the first section with a key has dates that go down -/
def newestFirst (sections : List BodySection) (key : Option Text) : Bool :=
  match sections.find? fun s => s.key R == key with
  | none => false
  | some s =>
    let dates := s.units.map (leadingDate R)
    dates.all Option.isSome && 1 < dates.dedup.length &&
      dates == dates.insertionSort fun a b => b.getD [] ≤ a.getD []

/-- the units of a section by date, when each has one -/
def byDate (newest : Bool) (units : List BodyUnit) : List BodyUnit :=
  if units.all fun u => (leadingDate R u).isSome then
    let date (u : BodyUnit) := (leadingDate R u).getD []
    if newest then units.insertionSort fun u v => date v ≤ date u
    else units.insertionSort fun u v => date u ≤ date v
  else units

/-- `_combine` -/
def combine (dateOrder : Bool) (bodies : List Parsed) : Parsed :=
  let sections := bodies.flatMap Parsed.sections
  { titleLine := ((bodies.map Parsed.titleLine).find? fun t => !t.isEmpty).getD []
    sections := (firsts (sections.map (BodySection.key R))).map fun key =>
      let units := dedupe R (key == some CONNECTIONS) (unitsOf R sections key)
      ⟨headingOf R sections key,
        if dateOrder then byDate R (newestFirst R sections key) units else units⟩ }

def mergeForWriting (layer publicBody layerBody : Text) : Text :=
  renderBody R false
    (combine R false [parseBody R Layers.PUBLIC publicBody, parseBody R layer layerBody])

/-- the keys of the units of a body -/
def keysOf (b : Parsed) : List Text := b.sections.flatMap fun s => s.units.map (BodyUnit.key R)

/-- the units of a section that are not known, when there are any -/
def keepUnknown (known : List Text) (s : BodySection) : Option BodySection :=
  let units := s.units.filter fun u => !known.contains (u.key R)
  if units.isEmpty then none else some ⟨s.heading, units⟩

def splitFromPublic (body publicBody : Text) : Text :=
  let b := parseBody R Layers.PUBLIC body
  let known := keysOf R (parseBody R Layers.PUBLIC publicBody)
  let kept := b.sections.filterMap (keepUnknown R known)
  if kept.isEmpty then [] else renderBody R false ⟨b.titleLine, kept⟩

def fuseForReading (parts : List (Text × Text)) : Text :=
  renderBody R true (combine R true (parts.map fun p => parseBody R p.1 p.2))

/-- `reading_text` -/
def readingText (layer body : Text) : Text :=
  if layer = Layers.PUBLIC then escapeMarkers body else fuseForReading R [(layer, body)]

end

end Body
