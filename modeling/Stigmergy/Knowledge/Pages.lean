import Stigmergy.Index.Corpus

/-!
# Knowledge pages

The contract of note, concept, entity and project pages, from `knowledge/pages.py` and
`kernel/normalize.py`.

* `pagePath`       the path a title is stored under;
* `parsePage`      the record of a page's text, or the message of its refusal;
* `renderPage`     the text of a record;
* `resolutionKey`  what makes two names of entities the same;
* `splitFrontmatter_renderPage`   the front matter and the body of a rendered page.
-/

set_option linter.unusedSectionVars false

namespace Pages

open Corpus

inductive Role where
  | note | concept | entity | project
deriving DecidableEq, Repr

namespace Role

def name : Role → Text
  | note => "note".toList
  | concept => "concept".toList
  | entity => "entity".toList
  | project => "project".toList

/-- `FOLDERS` -/
def folder : Role → Text
  | note => "wiki/notes".toList
  | concept => "wiki/concepts".toList
  | entity => "wiki/entities".toList
  | project => "wiki/projects".toList

end Role

def ROLES : List Role := [.note, .concept, .entity, .project]

def KNOWLEDGE_FOLDERS : List Text := ROLES.map Role.folder

def STATUSES : List Text := EDITORIAL_STATUSES

def ENTITY_TYPES : List Text :=
  ["person".toList, "organization".toList, "product".toList, "tool".toList, "repository".toList,
    "place".toList]

/-- `base.glob("*.md")` of one folder -/
def inFolder (folder path : Text) : Bool :=
  Text.startsWith (folder ++ ['/']) path && Text.endsWith ".md".toList path &&
    !(path.drop (folder.length + 1)).contains '/'

structure KnowledgePage where
  path : Text
  pageId : Text
  role : Role
  title : Text
  status : Text
  /-- days as ISO text -/
  created : Text
  updated : Text
  acl : Option (List Text)
  sources : List Text
  body : Text
  entityType : Option Text
  aliases : List Text
deriving DecidableEq

/-! ## names -/

/-- `[\x00-\x1f\x7f/\\:*?"<>|\[\]#]` and the backtick -/
def isUnsafe (c : Char) : Bool :=
  c.toNat ≤ 0x1f || c.toNat == 0x7f || "/\\:*?\"<>|[]#".toList.contains c || c.toNat == 0x60

/-- `_UNSAFE_TITLE.sub("-", …)`: one dash for each run -/
def dashRuns : Bool → Text → Text
  | _, [] => []
  | inRun, c :: t =>
    if isUnsafe c then (if inRun then dashRuns true t else '-' :: dashRuns true t)
    else c :: dashRuns false t

def utf8Length (t : Text) : ℕ := (t.map Char.utf8Size).sum

def MAX_FILENAME_BYTES : ℕ := 255

/-- `[.,()"'/]` -/
def isNamePunctuation (c : Char) : Bool := ".,()\"'/".toList.contains c

section
variable (R : Runtime)

/-- `resolution_key` -/
def resolutionKey (name : Text) : Text :=
  Text.oneLine ((R.lower (R.nfkdAscii name)).map fun c => if isNamePunctuation c then ' ' else c)

def KnowledgePage.nameKeys (p : KnowledgePage) : List Text :=
  firsts ((p.title :: p.aliases).map (resolutionKey R))

def titleStem (title : Text) : Text :=
  let dashed := dashRuns false (R.nfc (Text.oneLine title))
  let outer (c : Char) := c == ' ' || c == '.' || c == '-'
  (dashed.dropWhile outer).rdropWhile outer

def pagePath (role : Role) (title : Text) : Except Text Text :=
  let filename := titleStem R title
  if filename.isEmpty then .error "page title cannot form a filename".toList
  else if MAX_FILENAME_BYTES < utf8Length (filename ++ ".md".toList) then
    .error "page title forms an oversized filename".toList
  else .ok (role.folder ++ '/' :: filename ++ ".md".toList)

/-- `path_role` -/
def pathRole (path : Text) : Option Role :=
  ROLES.find? fun role => Text.startsWith (role.folder ++ ['/']) path &&
    Text.endsWith ".md".toList path && !(path.drop (role.folder.length + 1)).contains '/'

/-! ## fields -/

/-- the strings of a list, when it holds nothing else -/
def asStrings : List Yaml → Option (List Text)
  | [] => some []
  | .str s :: vs => if Text.isBlank s then none else (asStrings vs).map (s :: ·)
  | _ :: _ => none

/-- `_strings` -/
def strings (v : Yaml) (field : String) : Except Text (List Text) :=
  match v with
  | .list items _ =>
    match asStrings items with
    | some ss =>
      let cleaned := ss.map Text.strip
      if cleaned.Nodup then .ok cleaned else .error (field.toList ++ " contains duplicates".toList)
    | none => .error (field.toList ++ " must be a string list".toList)
  | _ => .error (field.toList ++ " must be a string list".toList)

/-- `_strings_or_none` -/
def stringsOrNone (v : Yaml) (field : String) : Except Text (Option (List Text)) :=
  match v with
  | .null => .ok none
  | v =>
    match strings v field with
    | .error e => .error e
    | .ok [] => .error (field.toList ++ " cannot be empty".toList)
    | .ok ss => .ok (some ss)

/-- `_entity_type` -/
def checkEntityType (v : Option Text) : Except Text Text :=
  match v with
  | some t => if t ∈ ENTITY_TYPES then .ok t else .error "entity type is invalid".toList
  | none => .error "entity type is invalid".toList

/-- `_aliases` -/
def checkAliases (values : List Text) (title : Text) : Except Text (List Text) :=
  let cleaned := values.map Text.oneLine
  let keys := cleaned.map (resolutionKey R)
  if keys.any fun key => !key.any R.isAlnum then .error "aliases must contain searchable text".toList
  else if ¬ keys.Nodup ∨ resolutionKey R title ∈ keys then
    .error "aliases must be unique and differ from the title".toList
  else .ok cleaned

/-! ## texts -/

def ofList (ss : List Text) : Yaml := .list (ss.map .str) (R.showList ss)

/-- the front matter `render_page` writes -/
def metadataOf (p : KnowledgePage) (entity : Metadata) : Metadata :=
  [("id".toList, .str p.pageId), ("type".toList, .str p.role.name),
    ("title".toList, .str (Text.oneLine p.title)), ("status".toList, .str p.status),
    ("created".toList, .str p.created), ("updated".toList, .str p.updated),
    ("acl".toList, match p.acl with
      | some labels => ofList R labels
      | none => .null),
    ("sources".toList, ofList R (firsts p.sources))] ++ entity

/-- `---`, the front matter and `---` before a text -/
def withFrontMatter (metadata : Metadata) (rest : Text) : Text :=
  "---\n".toList ++ Text.rstrip (R.dump metadata) ++ "\n---\n".toList ++ rest

/-- the fields only entity pages have -/
def entityFields (p : KnowledgePage) : Except Text Metadata :=
  if p.role = .entity then
    match checkEntityType p.entityType with
    | .error e => .error e
    | .ok entityType =>
      match checkAliases R p.aliases (Text.oneLine p.title) with
      | .error e => .error e
      | .ok aliases =>
        .ok [("entity_type".toList, .str entityType), ("aliases".toList, ofList R aliases)]
  else if p.entityType.isSome || !p.aliases.isEmpty then
    .error "only entity pages carry an entity type or aliases".toList
  else .ok []

/-- the body with its heading -/
def withHeading (title body : Text) : Text :=
  let body := Text.strip body
  if Text.startsWith "# ".toList body then body else "# ".toList ++ title ++ "\n\n".toList ++ body

/-- `render_page` of a record whose id and days are set -/
def renderPage (p : KnowledgePage) : Except Text Text :=
  match pagePath R p.role p.title with
  | .error e => .error e
  | .ok expected =>
    if p.path ≠ expected then .error "page path does not match its role and title".toList
    else if p.status ∉ STATUSES then .error "invalid editorial status".toList
    else
      match entityFields R p with
      | .error e => .error e
      | .ok entity =>
        if Text.isBlank p.body then .error "page body is empty".toList
        else .ok (withFrontMatter R (metadataOf R p entity)
          ('\n' :: withHeading (Text.oneLine p.title) p.body ++ ['\n']))

/-- the role, the title and the status of the front matter -/
def contractFields (metadata : Metadata) : Option (Role × Text × Text) :=
  match ROLES.find? fun role => (metadata.get "type").asStr == some role.name,
    (metadata.get "title").asStr, (metadata.get "status").asStr with
  | some role, some title, some status =>
    if status ∈ STATUSES then some (role, title, status) else none
  | _, _, _ => none

/-- the entity type and the aliases of the front matter -/
def parseEntity (metadata : Metadata) (role : Role) (title : Text) :
    Except Text (Option Text × List Text) :=
  if role = .entity then
    match checkEntityType (metadata.get "entity_type").asStr with
    | .error e => .error e
    | .ok entityType =>
      match strings (metadata.get "aliases") "aliases" with
      | .error e => .error e
      | .ok values =>
        match checkAliases R values title with
        | .error e => .error e
        | .ok aliases => .ok (some entityType, aliases)
  else if metadata.has "entity_type" || metadata.has "aliases" then
    .error "only entity pages carry an entity type or aliases".toList
  else .ok (none, [])

/-- a day of the front matter -/
def parseDay (metadata : Metadata) (key : String) : Option Text :=
  if metadata.has key then R.isoDate (metadata.get key).shown else none

/-- `parse_page` after the path of the page is checked -/
def parseFields (path : Text) (metadata : Metadata) (body : Text) (role : Role) (title status : Text) :
    Except Text KnowledgePage :=
  match stringsOrNone (metadata.get "acl") "acl" with
  | .error e => .error e
  | .ok acl =>
    match strings (metadata.get "sources") "sources" with
    | .error e => .error e
    | .ok sources =>
      match parseEntity R metadata role title with
      | .error e => .error e
      | .ok (entityType, aliases) =>
        match parseDay R metadata "created", parseDay R metadata "updated" with
        | some created, some updated =>
          let pageId := Text.strip (metadata.get "id").orEmpty
          if pageId.isEmpty || Text.isBlank body then .error "page id or body is missing".toList
          else
            .ok
              { path := path
                pageId := pageId
                role := role
                title := Text.oneLine title
                status := status
                created := created
                updated := updated
                acl := acl
                sources := sources
                body := Text.strip body
                entityType := entityType
                aliases := aliases }
        | _, _ => .error "page dates are invalid".toList

/-- `parse_page` -/
def parsePage (path text : Text) : Except Text KnowledgePage :=
  match splitFrontmatter R text with
  | (metadata, body, malformed) =>
    if malformed || metadata.isEmpty then .error "page frontmatter is invalid".toList
    else
      match contractFields metadata with
      | none => .error "page role, title, or status is invalid".toList
      | some (role, title, status) =>
        match pagePath R role title with
        | .error e => .error e
        | .ok expected =>
          if path ≠ expected then .error "page path does not match its role and title".toList
          else parseFields R path metadata body role title status

/-! ## what a rendered page is split into -/

theorem plain_entityFields {p : KnowledgePage} {entity : Metadata} (h : entityFields R p = .ok entity) :
    entity = [] ∨ ∃ entityType aliases, entity =
      [("entity_type".toList, .str entityType), ("aliases".toList, ofList R aliases)] := by
  unfold entityFields at h
  split at h
  · split at h
    · exact nomatch h
    · split at h
      · exact nomatch h
      · exact Or.inr ⟨_, _, (Except.ok.inj h).symm⟩
  · split at h
    · exact nomatch h
    · exact Or.inl (Except.ok.inj h).symm

def pageKeys : List Text :=
  ["id".toList, "type".toList, "title".toList, "status".toList, "created".toList, "updated".toList,
    "acl".toList, "sources".toList]

theorem keys_metadataOf (p : KnowledgePage) (entity : Metadata) :
    (metadataOf R p entity).map Prod.fst = pageKeys ++ entity.map Prod.fst := rfl

theorem keys_entityFields {p : KnowledgePage} {entity : Metadata} (h : entityFields R p = .ok entity) :
    entity.map Prod.fst ∈ [[], ["entity_type".toList, "aliases".toList]] := by
  rcases plain_entityFields R h with rfl | ⟨entityType, aliases, rfl⟩
  · exact List.mem_cons_self
  · exact List.mem_cons_of_mem _ List.mem_cons_self

theorem plain_metadataOf {p : KnowledgePage} {entity : Metadata} (h : entityFields R p = .ok entity) :
    (metadataOf R p entity).Plain R.showList := by
  have hkeys : ∀ ks ∈ [[], ["entity_type".toList, "aliases".toList]],
      (∀ key ∈ pageKeys ++ ks, ∀ c ∈ key, ('a' ≤ c ∧ c ≤ 'z') ∨ c = '_') ∧ (pageKeys ++ ks).Nodup := by decide
  obtain ⟨hchars, hnodup⟩ := hkeys _ (keys_entityFields R h)
  rw [← keys_metadataOf R p entity] at hchars hnodup
  refine ⟨fun e he => ?_, fun e he => hchars e.1 (List.mem_map_of_mem he), hnodup⟩
  rcases List.mem_append.mp he with he | he
  · simp only [List.mem_cons, List.not_mem_nil, or_false] at he
    rcases he with rfl | rfl | rfl | rfl | rfl | rfl | rfl | rfl
    · exact .str _
    · exact .str _
    · exact .str _
    · exact .str _
    · exact .str _
    · exact .str _
    · cases hacl : p.acl with
      | none =>
        simp only
        exact .null
      | some labels => exact .list labels
    · exact .list _
  · rcases plain_entityFields R h with rfl | ⟨entityType, aliases, rfl⟩
    · exact absurd he List.not_mem_nil
    · simp only [List.mem_cons, List.not_mem_nil, or_false] at he
      rcases he with rfl | rfl
      · exact .str _
      · exact .list _

theorem splitFrontmatter_withFrontMatter {metadata : Metadata} (h : metadata.Plain R.showList) (rest : Text) :
    splitFrontmatter R (withFrontMatter R metadata rest) = (metadata, rest, false) := by
  obtain ⟨hload, hfence⟩ := R.load_dump metadata h
  have hlast : (Text.rstrip (R.dump metadata)).getLast? ≠ some '\r' := by
    intro hr
    have hne : Text.rstrip (R.dump metadata) ≠ [] := fun he => by
      rw [he] at hr
      exact nomatch hr
    rw [List.getLast?_eq_some_getLast hne] at hr
    have hspace := List.rdropWhile_last_not Text.isSpace (R.dump metadata) hne
    exact hspace (Option.some.inj hr ▸ rfl)
  have hopen : opener (withFrontMatter R metadata rest) =
      some (Text.rstrip (R.dump metadata) ++ '\n' :: '-' :: '-' :: '-' :: '\n' :: rest) := by
    rw [withFrontMatter, List.append_assoc, List.append_assoc]
    rfl
  rw [splitFrontmatter, hopen]
  dsimp only [Option.bind_some]
  rw [upToCloser_block hfence hlast]
  dsimp only
  rw [hload]

theorem renderPage_eq_ok {p : KnowledgePage} {text : Text} (h : renderPage R p = .ok text) :
    ∃ entity, entityFields R p = .ok entity ∧ pagePath R p.role p.title = .ok p.path ∧
      p.status ∈ STATUSES ∧ Text.isBlank p.body = false ∧
      text = withFrontMatter R (metadataOf R p entity)
        ('\n' :: withHeading (Text.oneLine p.title) p.body ++ ['\n']) := by
  unfold renderPage at h
  split at h
  · exact nomatch h
  · next expected hpath =>
    split at h
    · exact nomatch h
    · next heq =>
      split at h
      · exact nomatch h
      · next hstatus =>
        split at h
        · exact nomatch h
        · next entity hentity =>
          split at h
          · exact nomatch h
          · next hbody =>
            rw [not_not] at heq hstatus
            exact ⟨entity, hentity, heq ▸ hpath, hstatus, Bool.eq_false_iff.mpr hbody, (Except.ok.inj h).symm⟩

theorem splitFrontmatter_renderPage {p : KnowledgePage} {text : Text} (h : renderPage R p = .ok text) :
    ∃ entity, entityFields R p = .ok entity ∧ splitFrontmatter R text =
      (metadataOf R p entity, '\n' :: withHeading (Text.oneLine p.title) p.body ++ ['\n'], false) := by
  obtain ⟨entity, hentity, -, -, -, rfl⟩ := renderPage_eq_ok R h
  exact ⟨entity, hentity, splitFrontmatter_withFrontMatter R (plain_metadataOf R hentity) _⟩

end

end Pages
