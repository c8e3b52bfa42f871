import Mathlib.Data.List.AList
import Mathlib.Data.Char
import Mathlib.Data.List.Lex
import Stigmergy.Lib.Scan
import Stigmergy.Lib.SortedSet
import Stigmergy.Kernel.Layers

/-!
# The corpus as index rows

`index/corpus.py`: front matter, links written in a text, the row of one page, and the rows of a
whole tree with the derived fields.

* `linkTargets`      the names a text links to, code left out;
* `upToCloser_block` a block without a closing fence is read back whole;
* `pageRow`          the row of one page, or the reason it is refused;
* `resolveLinks`     the virtual paths those names reach;
* `attachSourceDates`   the dates of the sources a page cites;
* `loadPageTexts`    the rows a rebuild writes.
-/

set_option linter.unusedSectionVars false

/-- a committed tree: the text at each path -/
abbrev Worktree := AList fun _ : Text => Text

namespace Corpus

inductive PageType where
  | source | note | concept | entity | project
deriving DecidableEq, Repr

namespace PageType

def name : PageType → Text
  | source => "source".toList
  | note => "note".toList
  | concept => "concept".toList
  | entity => "entity".toList
  | project => "project".toList

end PageType

/-! ## front matter -/

def isTab (c : Char) : Bool := c == ' ' || c == '\t'

/-- `\r?\n` -/
def newline : Text → Option Text
  | '\r' :: '\n' :: t => some t
  | '\n' :: t => some t
  | _ => none

/-- `^\ufeff?---[ \t]*\r?\n` -/
def opener (t : Text) : Option Text :=
  let u := match t with
    | '\ufeff' :: u => u
    | u => u
  if Text.startsWith "---".toList u then newline ((u.drop 3).dropWhile isTab) else none

/-- `\r?\n---[ \t]*\r?\n?` -/
def closer (t : Text) : Option Text :=
  match newline t with
  | some u =>
    if Text.startsWith "---".toList u then
      let v := (u.drop 3).dropWhile isTab
      let v := match v with
        | '\r' :: w => w
        | w => w
      match v with
      | '\n' :: w => some w
      | w => some w
    else none
  | none => none

/-- the text up to the first closing fence, and the text after it -/
def upToCloser : Text → Option (Text × Text)
  | [] => none
  | c :: t =>
    match closer (c :: t) with
    | some r => some ([], r)
    | none => (upToCloser t).map fun r => (c :: r.1, r.2)

section
variable (R : Runtime)

/-- `split_frontmatter_checked`: the metadata, the body, and whether the front matter is malformed -/
def splitFrontmatter (text : Text) : Metadata × Text × Bool :=
  match (opener text).bind upToCloser with
  | some (block, body) =>
    match R.safeLoad block with
    | none => ([], text, true)
    | some (.inl v) => ([], body, !v.isNull)
    | some (.inr metadata) => (metadata, body, false)
  | none => ([], text, (opener text).any R.askedForAnAudience)

/-- `_string_list` -/
def stringList : Yaml → List Text
  | .list items _ =>
    firsts (((items.filterMap Yaml.asStr).map Text.strip).filter fun s => !s.isEmpty)
  | _ => []

/-- `_acl_labels`; a list that is not all labels gives no labels -/
def aclLabels (metadata : Metadata) : Option (List Text) :=
  match metadata.get "acl" with
  | .null => none
  | .list items _ =>
    let labels := ((items.filterMap Yaml.asStr).map Text.strip).filter fun s => !s.isEmpty
    some (if labels.length = items.length then firsts labels else [])
  | _ => some []

/-! ## links -/

/-- `_FENCE_RE` -/
def fence (t : Text) : Option (ℕ × Text) :=
  if Text.startsWith "```".toList t then
    (Text.find "```".toList (t.drop 3)).map fun r => (r.1.length + 6, [])
  else none

/-- `_INLINE_CODE_RE` -/
def inlineCode : Text → Option (ℕ × Text)
  | '`' :: t =>
    let code := t.takeWhile (· != '`')
    if code.length < t.length then some (code.length + 2, []) else none
  | _ => none

def stripCode (text : Text) : Text := Scan.sub inlineCode (Scan.sub fence text)

def isBracket (c : Char) : Bool := c == '[' || c == ']'

/-- `WIKILINK_RE`, with the text between the brackets -/
def wikilink (t : Text) : Option (ℕ × Text) :=
  let bang := match t with
    | '!' :: _ => 1
    | _ => 0
  let u := t.drop bang
  if Text.startsWith "[[".toList u then
    let inner := (u.drop 2).takeWhile fun c => !isBracket c
    if !inner.isEmpty && Text.startsWith "]]".toList (u.drop (2 + inner.length)) then
      some (bang + inner.length + 4, inner)
    else none
  else none

/-- the name a link names, before case is folded -/
def linkName (inner : Text) : Text :=
  let target := Text.strip ((inner.takeWhile (· != '|')).takeWhile (· != '#'))
  if Text.endsWith ".md".toList (R.lower target) then target.take (target.length - 3) else target

def linkTargets (text : Text) : List Text :=
  (((Scan.found wikilink (stripCode text)).map (linkName R)).filter fun t => !t.isEmpty).map R.lower

/-! ## paths -/

/-- `_WIKI_PATH_RE` with the type of its folder -/
def wikiType (vpath : Text) : Option PageType :=
  let page (folder : String) := Text.startsWith folder.toList vpath &&
    Text.endsWith ".md".toList vpath && folder.length + 3 < vpath.length &&
    !(vpath.drop folder.length).contains '/'
  if page "wiki/notes/" then some .note
  else if page "wiki/concepts/" then some .concept
  else if page "wiki/entities/" then some .entity
  else if page "wiki/projects/" then some .project
  else none

def isHex (c : Char) : Bool := ('0' ≤ c && c ≤ '9') || ('a' ≤ c && c ≤ 'f')

/-- one character test for each place of `_SOURCE_PATH_RE` after `sources/` -/
def sourceShape : List (Char → Bool) :=
  List.replicate 4 R.isDecimal ++ [(· == '/'), (fun c => c == '0' || c == '1'),
    (fun c => '0' ≤ c && c ≤ '9'), (· == '/')] ++
  List.replicate 8 isHex ++ [(· == '-')] ++ List.replicate 4 isHex ++ [(· == '-')] ++
  List.replicate 4 isHex ++ [(· == '-')] ++ List.replicate 4 isHex ++ [(· == '-')] ++
  List.replicate 12 isHex ++ [(· == '.'), (· == 'm'), (· == 'd')]

/-- `0[1-9]|1[0-2]` -/
def isMonth (month : Text) : Bool :=
  match month with
  | ['0', d] => d != '0'
  | ['1', d] => d == '0' || d == '1' || d == '2'
  | _ => false

/-- `_SOURCE_PATH_RE` -/
def isSourcePath (vpath : Text) : Bool :=
  Text.startsWith "sources/".toList vpath &&
    (let rest := vpath.drop 8
     rest.length == (sourceShape R).length && 
      (List.zipWith (fun p c => p c) (sourceShape R) rest).all id && isMonth ((rest.drop 5).take 2))

def isIndexablePage (relPath : Text) : Bool :=
  match Layers.splitPath relPath with
  | none => false
  | some (_, vpath) => (wikiType vpath).isSome || isSourcePath R vpath

def zoneOf (relPath : Text) : Text :=
  match Layers.splitPath relPath with
  | none => []
  | some (_, vpath) => vpath.takeWhile (· != '/')

/-- `Path(vpath).stem` of an indexable page -/
def stem (vpath : Text) : Text :=
  Text.removeSuffix ".md".toList (vpath.reverse.takeWhile (· != '/')).reverse

end

/-! ## rows -/

structure PageRow where
  path : Text
  vpath : Text
  zone : Text
  pageId : Text
  title : Text
  body : Text
  type : PageType
  status : Text
  entityType : Text
  aliases : List Text
  updated : Text
  acl : Option (List Text)
  inlinks : ℕ
  contentHash : Text
  links : List Text
  sources : List Text
  sourceDate : Text
  sourceDates : List Text
deriving DecidableEq

def EDITORIAL_STATUSES : List Text :=
  ["seed".toList, "developing".toList, "mature".toList, "evergreen".toList]

section
variable (R : Runtime)

/-- `iso_day` -/
def isoDay : Yaml → Text
  | .date day _ => day
  | v =>
    let text := (Text.strip v.orEmpty).take 10
    if text.length = 10 then (R.isoDate text).getD [] else []

/-- the title a page shows -/
def titleOf (metadata : Metadata) (type : PageType) (vpath : Text) : Text :=
  let title := Text.strip (metadata.get "title").orEmpty
  if !title.isEmpty then title
  else if type = .source then "Captured source".toList else stem vpath

/-- `iso_day(occurred_at) or iso_day(captured_at)` -/
def sourceDateOf (metadata : Metadata) : Text :=
  let occurred := isoDay R (metadata.get "occurred_at")
  if !occurred.isEmpty then occurred else isoDay R (metadata.get "captured_at")

/-- `metadata.get("updated") or metadata.get("captured_at") or ""` as text -/
def updatedOf (metadata : Metadata) : Text :=
  if (metadata.get "updated").truthy then (metadata.get "updated").shown
  else (metadata.get "captured_at").orEmpty

/-- the checks of `page_row` on the parsed text, in order -/
def refusal (relPath layer : Text) (type : PageType) (metadata : Metadata) (body : Text)
    (malformed : Bool) : Option Text :=
  let acl := aclLabels metadata
  let status := (metadata.get "status").orEmpty
  if malformed || metadata.isEmpty then some "frontmatter is invalid".toList
  else if (metadata.get "type").asStr != some type.name then
    some (relPath ++ " must have type ".toList ++ type.name)
  else if (Text.strip (metadata.get "id").orEmpty).isEmpty || (Text.strip body).isEmpty then
    some "page id and body are required".toList
  else if acl == some [] then some "acl must be null or a non-empty string list".toList
  else if acl != Layers.aclOfLayer layer then
    some (relPath ++ " does not carry its layer's audience".toList)
  else if type != .source && !EDITORIAL_STATUSES.contains status then
    some "wiki status is invalid".toList
  else if type == .source && !status.isEmpty then
    some "source pages do not have editorial status".toList
  else none

/-- the row `page_row` returns -/
def rowFields (relPath vpath zone text : Text) (type : PageType) (metadata : Metadata) (body : Text) :
    PageRow :=
  let sourceDate := if type = .source then sourceDateOf R metadata else []
  { path := relPath
    vpath := vpath
    zone := zone
    pageId := Text.strip (metadata.get "id").orEmpty
    title := titleOf metadata type vpath
    body := body
    type := type
    status := (metadata.get "status").orEmpty
    entityType := if type = .entity then (metadata.get "entity_type").orEmpty else []
    aliases := if type = .entity then stringList (metadata.get "aliases") else []
    updated := (updatedOf metadata).take 10
    acl := aclLabels metadata
    inlinks := 0
    contentHash := R.sha256 (titleOf metadata type vpath ++ '\n' :: body)
    links := linkTargets R text
    sources := stringList (metadata.get "sources")
    sourceDate := sourceDate
    sourceDates := if sourceDate.isEmpty then [] else [sourceDate] }

/-- the type the folder of a page gives it -/
def expectedType (vpath : Text) : PageType := (wikiType vpath).getD .source

/-- `page_row`, or the message of its `CorpusContractError` -/
def pageRow (relPath zone text : Text) : Except Text PageRow :=
  if !(zone == "wiki".toList || zone == "sources".toList) || !isIndexablePage R relPath ||
      zoneOf relPath != zone then
    .error "path is outside the searchable corpus".toList
  else
    match Layers.splitPath relPath with
    | none => .error "layer path is invalid".toList
    | some (layer, vpath) =>
      match splitFrontmatter R text with
      | (metadata, body, malformed) =>
        match refusal relPath layer (expectedType vpath) metadata body malformed with
        | some e => .error e
        | none => .ok (rowFields R relPath vpath zone text (expectedType vpath) metadata body)

/-! ## derived fields -/

/-- the layer of an indexable path -/
def layerOf (path : Text) : Text := ((Layers.splitPath path).map (·.1)).getD Layers.PUBLIC

/-- `dict.fromkeys((layer, PUBLIC))` -/
def scope (path : Text) : List Text :=
  if layerOf path = Layers.PUBLIC then [Layers.PUBLIC] else [layerOf path, Layers.PUBLIC]

/-- `by_stem_index`: the virtual paths of one layer with one name -/
def byStem (paths : List Text) (layer name : Text) : List Text :=
  paths.filterMap fun path =>
    match Layers.splitPath path with
    | some (l, vpath) => if l = layer ∧ R.lower (stem vpath) = name then some vpath else none
    | none => none

/-- the virtual paths a name reaches from a page -/
def targets (paths : List Text) (ownPath name : Text) : List Text :=
  ((scope ownPath).flatMap fun layer => byStem R paths layer name).dedup

/-- the one page a name reaches, when it is another page -/
def reached (paths : List Text) (ownPath name : Text) : Option Text :=
  match targets R paths ownPath name with
  | [vpath] => if some vpath = (Layers.splitPath ownPath).map (·.2) then none else some vpath
  | _ => none

def resolveLinks (paths : List Text) (ownPath : Text) (names : List Text) : List Text :=
  sortedSet (names.filterMap (reached R paths ownPath))

/-- the virtual paths of the pages that link to `vpath` -/
def inbound (rows : List PageRow) (vpath : Text) : List Text :=
  ((rows.filter fun r => r.links.contains vpath).map PageRow.vpath).dedup

/-- the dates of the sources in `rows`, by layer and virtual path -/
def dateIn (rows : List PageRow) (layer vpath : Text) : Option Text :=
  (rows.find? fun r => r.type == .source && !r.sourceDate.isEmpty && r.vpath == vpath &&
    layerOf r.path == layer).map PageRow.sourceDate

/-- the dates a page's sources have by a table -/
def citedDates (dates : Text → Text → Option Text) (path : Text) (sources : List Text) : List Text :=
  sortedSet (sources.flatMap fun source => (scope path).filterMap fun layer => dates layer source)

/-- `attach_source_dates`; a source in `rows` wins over a known one -/
def attachSourceDates (known : Text → Text → Option Text) (rows : List PageRow) : List PageRow :=
  rows.map fun r =>
    if r.type = .source then r
    else
      let dates := fun layer vpath => (dateIn rows layer vpath).or (known layer vpath)
      { r with sourceDates := citedDates dates r.path r.sources }

/-- every row with its links resolved among `paths` -/
def withLinks (paths : List Text) (rows : List PageRow) : List PageRow :=
  rows.map fun r => { r with links := resolveLinks R paths r.path r.links }

def withInlinks (rows : List PageRow) : List PageRow :=
  rows.map fun r => { r with inlinks := (inbound rows r.vpath).length }

/-- the rows of the pages, in order, or the first refusal -/
def pageRows : List (Text × Text) → Except Text (List PageRow)
  | [] => .ok []
  | (path, text) :: pages =>
    match pageRow R path (zoneOf path) text with
    | .error e => .error e
    | .ok r => (pageRows pages).map (r :: ·)

/-- `load_page_texts` -/
def loadPageTexts (pages : List (Text × Text)) : Except Text (List PageRow) :=
  (pageRows R (pages.filter fun p => isIndexablePage R p.1)).map fun rows =>
    let rows := rows.insertionSort fun r s => r.path ≤ s.path
    attachSourceDates (fun _ _ => none)
      (withInlinks (withLinks R (rows.map PageRow.path) rows))

end

/-! ## the closing fence -/

theorem prefix_of_append {p a z : Text} (hp : '\n' ∉ p) (h : p.isPrefixOf (a ++ '\n' :: z) = true) :
    p.isPrefixOf a = true := by
  rw [List.isPrefixOf_iff_prefix] at h ⊢
  induction p generalizing a with
  | nil => exact List.nil_prefix
  | cons c p ih =>
    cases a with
    | nil =>
      rw [List.nil_append, List.cons_prefix_cons] at h
      exact absurd (h.1 ▸ List.mem_cons_self) hp
    | cons d a =>
      rw [List.cons_append, List.cons_prefix_cons] at h
      rw [List.cons_prefix_cons]
      exact ⟨h.1, ih (fun hm => hp (List.mem_cons_of_mem c hm)) h.2⟩

theorem newline_eq_some {t u : Text} (h : newline t = some u) :
    t = '\n' :: u ∨ t = '\r' :: '\n' :: u := by
  unfold newline at h
  split at h
  · exact Or.inr (by rw [Option.some.inj h])
  · exact Or.inl (by rw [Option.some.inj h])
  · exact nomatch h

/-- a block without a closing fence that does not end in a carriage return is found whole -/
theorem upToCloser_block {block : Text} (hfence : Text.contains "\n---".toList block = false)
    (hlast : block.getLast? ≠ some '\r') (rest : Text) :
    upToCloser (block ++ '\n' :: '-' :: '-' :: '-' :: '\n' :: rest) = some (block, rest) := by
  induction block with
  | nil => rfl
  | cons c block ih =>
    rw [Text.contains_cons, Bool.or_eq_false_iff] at hfence
    have hlast' : block.getLast? ≠ some '\r' := by
      intro h
      cases block with
      | nil => exact nomatch h
      | cons d block => exact hlast (by rw [List.getLast?_cons_cons]; exact h)
    have hnone : closer (c :: (block ++ '\n' :: '-' :: '-' :: '-' :: '\n' :: rest)) = none := by
      have hdash : ∀ u : Text, Text.contains "\n---".toList ('\n' :: u) = false →
          Text.startsWith "---".toList (u ++ '\n' :: '-' :: '-' :: '-' :: '\n' :: rest) = false := by
        intro u hu
        rw [Text.contains_cons, Bool.or_eq_false_iff] at hu
        rw [Bool.eq_false_iff] at hu ⊢
        exact fun h => hu.1 (prefix_of_append (p := "---".toList) (by decide) h)
      rw [closer]
      split
      · next u hu =>
        rcases newline_eq_some hu with h | h
        · obtain ⟨rfl, rfl⟩ := List.cons.inj h
          rw [hdash block (by rw [Text.contains_cons, hfence.1, hfence.2]; rfl)]
          rfl
        · obtain ⟨rfl, htail⟩ := List.cons.inj h
          cases block with
          | nil => exact absurd rfl hlast
          | cons d block =>
            obtain ⟨rfl, rfl⟩ := List.cons.inj htail
            exact if_neg (Bool.eq_false_iff.mp (hdash block hfence.2))
      · rfl
    rw [List.cons_append, upToCloser, hnone]
    show (upToCloser (block ++ _)).map _ = _
    rw [ih hfence.2 hlast']
    rfl

/-! ## what a row is -/

section
variable (R : Runtime)

/-- the parts of an accepted row the derived fields are made from -/
structure RowOf (relPath text : Text) (r : PageRow) : Prop where
  path : r.path = relPath
  vpath : Layers.splitPath relPath = some (layerOf relPath, r.vpath)
  body : r.body = (splitFrontmatter R text).2.1
  type : r.type = expectedType r.vpath
  links : r.links = linkTargets R text
  inlinks : r.inlinks = 0

theorem rowOf_pageRow {path zone text : Text} {r : PageRow} (h : pageRow R path zone text = .ok r) :
    RowOf R path text r := by
  unfold pageRow at h
  split at h
  · exact nomatch h
  · split at h
    · exact nomatch h
    · rename_i layer vpath hsplit
      have hlayer : layerOf path = layer := by
        unfold layerOf
        rw [hsplit]
        rfl
      split at h
      rename_i metadata body malformed hfront
      split at h
      · exact nomatch h
      · obtain rfl := Except.ok.inj h
        exact ⟨rfl, by rw [hlayer, hsplit]; rfl, by rw [hfront]; rfl, rfl, rfl, rfl⟩

theorem pageRows_ok {pages : List (Text × Text)} {rows : List PageRow}
    (h : pageRows R pages = .ok rows) :
    List.Forall₂ (fun p r => pageRow R p.1 (zoneOf p.1) p.2 = .ok r) pages rows := by
  induction pages generalizing rows with
  | nil =>
    obtain rfl := Except.ok.inj h
    exact List.Forall₂.nil
  | cons p pages ih =>
    obtain ⟨path, text⟩ := p
    unfold pageRows at h
    split at h
    · exact nomatch h
    · rename_i r hr
      cases hps : pageRows R pages with
      | error e =>
        rw [hps] at h
        exact nomatch h
      | ok rs =>
        rw [hps] at h
        obtain rfl := Except.ok.inj h
        exact List.Forall₂.cons hr (ih hps)

theorem map_path_pageRows {pages : List (Text × Text)} {rows : List PageRow}
    (h : pageRows R pages = .ok rows) : rows.map PageRow.path = pages.map Prod.fst := by
  have hall := pageRows_ok R h
  clear h
  induction hall with
  | nil => rfl
  | cons hr _ ih => rw [List.map_cons, List.map_cons, ih, (rowOf_pageRow R hr).path]

end

/-! ## the paths of derived rows -/

section
variable (R : Runtime)

theorem map_path_attachSourceDates (known : Text → Text → Option Text) (rows : List PageRow) :
    (attachSourceDates known rows).map PageRow.path = rows.map PageRow.path := by
  unfold attachSourceDates
  rw [List.map_map]
  congr 1
  funext r
  show (if r.type = .source then r else _).path = r.path
  split <;> rfl

theorem map_path_withLinks (paths : List Text) (rows : List PageRow) :
    (withLinks R paths rows).map PageRow.path = rows.map PageRow.path := by
  unfold withLinks
  rw [List.map_map]
  rfl

theorem map_path_withInlinks (rows : List PageRow) :
    (withInlinks rows).map PageRow.path = rows.map PageRow.path := by
  unfold withInlinks
  rw [List.map_map]
  rfl

/-- the rows of a rebuild have the indexable paths of the pages -/
theorem perm_path_loadPageTexts {pages : List (Text × Text)} {rows : List PageRow}
    (h : loadPageTexts R pages = .ok rows) :
    (rows.map PageRow.path).Perm ((pages.filter fun p => isIndexablePage R p.1).map Prod.fst) := by
  unfold loadPageTexts at h
  cases hrows : pageRows R (pages.filter fun p => isIndexablePage R p.1) with
  | error e =>
    rw [hrows] at h
    exact nomatch h
  | ok rs =>
    rw [hrows] at h
    obtain rfl := Except.ok.inj h
    rw [map_path_attachSourceDates, map_path_withInlinks, map_path_withLinks, ← map_path_pageRows R hrows]
    exact (List.perm_insertionSort (fun r s : PageRow => r.path ≤ s.path) rs).map PageRow.path

end

end Corpus
