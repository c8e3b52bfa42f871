import Stigmergy.Kernel.Ascii
import Stigmergy.Knowledge.ContradictionCodec
import Stigmergy.Knowledge.Sources

/-!
# The context of a filing

What the planner of a capture is shown of the corpus, from `knowledge/context.py`: every page in one
line, the closest pages in full, and the sources they cite.

* `filingContext`     the context, cut until its text on one line fits;
* `renderContext`     its text with `indent=2`, refused when it is too long;
* `admitted_filing`   everything in it flows into the audience of the capture;
* `renderable_iff`    when what is built can be rendered.
-/

set_option linter.unusedSectionVars false

namespace Filing

open Pages Lint

def MAX_PLANNER_CONTEXT_BYTES : ℕ := 768 * 1024
def MAX_CATALOG_SUMMARY_CHARS : ℕ := 160
def MAX_CONTEXT_SOURCE_EVIDENCE : ℕ := 12
def MAX_CONTEXT_SOURCE_BYTES : ℕ := 100000
def MAX_CONTEXT_SOURCE_REFERENCES : ℕ := 64
def MAX_CONTEXT_SOURCE_FILE_BYTES : ℕ := 128 * 1024
def MAX_CONTEXT_SOURCE_READ_BYTES : ℕ := 2 * 1024 * 1024

/-- `_SOURCE_STOPWORDS` -/
def SOURCE_STOPWORDS : List Text :=
  ["and", "are", "for", "from", "has", "have", "into", "not", "source", "that", "the", "this", "was", "were",
    "with"].map String.toList

/-! ## what a context holds -/

structure Entry where
  path : Text
  title : Text
  type : Role
  /-- the type and the aliases of an entity -/
  entity : Option (Option Text × List Text)
  summary : Text

structure FiledContradiction where
  id : Text
  explanation : Text
  claims : List Claim

structure Candidate where
  path : Text
  title : Text
  type : Role
  entity : Option (Option Text × List Text)
  status : Text
  sources : List Text
  body : Text
  filedContradictions : List FiledContradiction
  captureMayUpdate : Bool

structure SourceEvidence where
  path : Text
  title : Text
  date : Text
  body : Text

structure Context where
  catalog : List Entry
  candidates : List Candidate
  sourceEvidence : List SourceEvidence
  truncated : Bool

/-- who asks, for what -/
structure Request where
  sourceText : Text
  captureAcl : Option (List Text)
  actorGroups : Option (List Text)
  limit : ℤ

/-! ## as JSON, the keys in order -/

def textsDoc (ts : List Text) : Doc := .arr (ts.map .str)

def optionDoc : Option Text → Doc
  | some t => .str t
  | none => .null

def aliasesDoc : Option (Option Text × List Text) → List (Text × Doc)
  | some (_, aliases) => [("aliases".toList, textsDoc aliases)]
  | none => []

def entityTypeDoc : Option (Option Text × List Text) → List (Text × Doc)
  | some (entityType, _) => [("entity_type".toList, optionDoc entityType)]
  | none => []

def Entry.doc (e : Entry) : Doc :=
  .obj (aliasesDoc e.entity ++ entityTypeDoc e.entity ++
    [("path".toList, .str e.path), ("summary".toList, .str e.summary), ("title".toList, .str e.title),
      ("type".toList, .str e.type.name)])

def FiledContradiction.doc (c : FiledContradiction) : Doc :=
  .obj [("claims".toList, .arr (c.claims.map Contradictions.claimDoc)),
    ("explanation".toList, .str c.explanation), ("id".toList, .str c.id)]

def Candidate.doc (c : Candidate) : Doc :=
  .obj (aliasesDoc c.entity ++
    [("body".toList, .str c.body), ("capture_may_update".toList, .bool c.captureMayUpdate)] ++
    entityTypeDoc c.entity ++
    [("filed_contradictions".toList, .arr (c.filedContradictions.map FiledContradiction.doc)),
      ("path".toList, .str c.path), ("sources".toList, textsDoc c.sources), ("status".toList, .str c.status),
      ("title".toList, .str c.title), ("type".toList, .str c.type.name)])

def SourceEvidence.doc (e : SourceEvidence) : Doc :=
  .obj [("body".toList, .str e.body), ("date".toList, .str e.date), ("path".toList, .str e.path),
    ("title".toList, .str e.title)]

namespace Context

def doc (ctx : Context) : Doc :=
  .obj [("candidates".toList, .arr (ctx.candidates.map Candidate.doc)),
    ("catalog".toList, .arr (ctx.catalog.map Entry.doc)),
    ("source_evidence".toList, .arr (ctx.sourceEvidence.map SourceEvidence.doc)),
    ("truncated".toList, .bool ctx.truncated)]

/-- `_rendered_bytes`: the length of the text on one line -/
def renderedBytes (ctx : Context) : ℕ := Doc.size (Doc.text Doc.line 0 ctx.doc)

/-- line ends and indentation of the text with `indent=2`, less the blanks they stand for -/
def indentation (ctx : Context) : ℕ := Doc.layout 0 ctx.doc

/-- one round of the loop: what it takes out, nothing when there is nothing left -/
def drop (ctx : Context) : Option Context :=
  if 1 < ctx.candidates.length then
    some { ctx with candidates := ctx.candidates.dropLast, truncated := true }
  else if 1 < ctx.sourceEvidence.length then
    some { ctx with sourceEvidence := ctx.sourceEvidence.dropLast, truncated := true }
  else if !ctx.candidates.isEmpty then
    some { ctx with candidates := ctx.candidates.dropLast, truncated := true }
  else if !ctx.sourceEvidence.isEmpty then
    some { ctx with sourceEvidence := ctx.sourceEvidence.dropLast, truncated := true }
  else if !ctx.catalog.isEmpty then
    some { ctx with catalog := ctx.catalog.dropLast, truncated := true }
  else none

def items (ctx : Context) : ℕ := ctx.catalog.length + ctx.candidates.length + ctx.sourceEvidence.length

theorem items_drop {ctx next : Context} (h : ctx.drop = some next) : next.items < ctx.items := by
  unfold drop at h
  split at h
  · obtain rfl := Option.some.inj h
    simp only [items, List.length_dropLast]
    omega
  · split at h
    · obtain rfl := Option.some.inj h
      simp only [items, List.length_dropLast]
      omega
    · split at h
      · next hc =>
        obtain rfl := Option.some.inj h
        have hpos : 0 < ctx.candidates.length := List.length_pos_of_ne_nil (by simpa using hc)
        simp only [items, List.length_dropLast]
        omega
      · split at h
        · next hc =>
          obtain rfl := Option.some.inj h
          have hpos : 0 < ctx.sourceEvidence.length := List.length_pos_of_ne_nil (by simpa using hc)
          simp only [items, List.length_dropLast]
          omega
        · split at h
          · next hc =>
            obtain rfl := Option.some.inj h
            have hpos : 0 < ctx.catalog.length := List.length_pos_of_ne_nil (by simpa using hc)
            simp only [items, List.length_dropLast]
            omega
          · exact nomatch h

/-- the loop of `filing_context` -/
def trim (ctx : Context) : Except Text Context :=
  if MAX_PLANNER_CONTEXT_BYTES < ctx.renderedBytes then
    match _h : ctx.drop with
    | some next => trim next
    | none => .error "filing context exceeds its byte limit".toList
  else .ok ctx
termination_by ctx.items
decreasing_by exact items_drop _h

end Context

def renderContext (ctx : Context) : Except Text Text :=
  let rendered := Doc.text Doc.pretty 0 ctx.doc
  if MAX_PLANNER_CONTEXT_BYTES < Doc.size rendered then
    .error "filing context exceeds its byte limit".toList
  else .ok rendered

/-! ## `_summary` -/

def isSkipped (line : Text) : Bool :=
  line.isEmpty || ["#", ">", "<!--", "|", "```"].any fun front => Text.startsWith front.toList line

/-- a citation in parentheses -/
def citation (t : Text) : Option (ℕ × Text) :=
  let opened := "(Source: \x60".toList
  if Text.startsWith opened t then
    let cited := (t.drop opened.length).takeWhile (· != '\x60')
    if Text.startsWith "\x60)".toList (t.drop (opened.length + cited.length)) then
      some (opened.length + cited.length + 2, [])
    else none
  else none

/-- `re.sub(r"^[-*]\s+", "", …)` -/
def withoutBullet : Text → Text
  | c :: t => if (c == '-' || c == '*') && t.head?.any Text.isSpace then Text.lstrip t else c :: t
  | [] => []

def summaryLine (line : Text) : Text :=
  Text.oneLine ((withoutBullet (Scan.sub citation line)).filter fun c => !"*_\x60".toList.contains c)

/-- `rsplit(" ", 1)[0]` -/
def beforeLastBlank (t : Text) : Text :=
  match t.rdropWhile (· != ' ') with
  | [] => t
  | u => u.dropLast

def shorten (t : Text) : Text :=
  if MAX_CATALOG_SUMMARY_CHARS < t.length then
    beforeLastBlank (t.take MAX_CATALOG_SUMMARY_CHARS) ++ ['…']
  else t

/-- `_summary`: the first prose line of a page -/
def summary (body : Text) : Text :=
  let lines := ((Text.splitlines body).map Text.strip).filter fun line => !isSkipped line
  match (lines.map summaryLine).find? fun line => !line.isEmpty with
  | some line => shorten line
  | none => []

/-! ## who may see what -/

/-- `visible` -/
def visible (acl audiences : Option (List Text)) : Bool :=
  match acl, audiences with
  | none, _ => true
  | some _, none => true
  | some labels, some groups =>
    ((labels.map Text.strip).filter fun label => !label.isEmpty).any groups.contains

/-- `_admits` -/
def admits (q : Request) (acl : Option (List Text)) : Bool :=
  visible acl q.actorGroups && flowsInto acl q.captureAcl

section
variable (R : Runtime)

/-! ## words -/

/-- `_WORD_RE.findall`: the runs of two letters or digits and more -/
def findWords (t : Text) : List Text := (t.splitOnP fun c => !R.isAlnum c).filter fun w => decide (2 ≤ w.length)

/-- the words of a text, without case -/
def termsOf (t : Text) : List Text := (findWords R (R.casefold t)).dedup

def overlap (terms others : List Text) : ℕ := (terms.filter others.contains).length

def withoutStopwords (terms : List Text) : List Text := terms.filter fun w => !SOURCE_STOPWORDS.contains w

def titled (title body : Text) : Text := title ++ '\n' :: body

/-- a name of an entity or a project stands in the source -/
def isNamed (q : Request) (page : KnowledgePage) : Bool :=
  (page.role == .entity || page.role == .project) &&
    (page.nameKeys R).any fun key =>
      Text.contains (' ' :: key ++ [' ']) (' ' :: resolutionKey R q.sourceText ++ [' '])

/-! ## pages -/

def folderPages (tree : Worktree) (folder : Text) : List (Text × Text) :=
  ((tree.entries.filter fun e => inFolder folder e.1).map fun e => (e.1, e.2)).insertionSort
    fun a b => a.1 ≤ b.1

/-- the entity fields of an item -/
def entityOf (page : KnowledgePage) : Option (Option Text × List Text) :=
  if page.role = .entity then some (page.entityType, page.aliases) else none

def entryOf (page : KnowledgePage) : Entry :=
  ⟨page.path, page.title, page.role, entityOf page, summary page.body⟩

end

section
variable (R : Runtime) (F : Capture.Formats) (withoutCapability : Text → Except Text Text)
  (C : Contradictions.Codec)

/-- `_filed_contradictions` -/
def filedContradictions (body : Text) : List FiledContradiction :=
  match Contradictions.parseAll C body with
  | .error _ => []
  | .ok located => located.map fun item =>
      ⟨item.record.contradictionId, item.record.explanation, item.record.claims⟩

def candidateOf (q : Request) (page : KnowledgePage) : Candidate :=
  { path := page.path
    title := page.title
    type := page.role
    entity := entityOf page
    status := page.status
    sources := page.sources
    body := page.body
    filedContradictions := filedContradictions C page.body
    captureMayUpdate := flowsInto q.captureAcl page.acl }

/-- the lists the loop over the pages fills -/
structure Gathered where
  catalog : List Entry
  named : List Candidate
  scored : List (ℕ × Candidate)

/-- one page of the loop -/
def readPage (q : Request) (g : Gathered) (file : Text × Text) : Except Text Gathered :=
  match parsePage R file.1 (Text.universalNewlines file.2) with
  | .error e => .error e
  | .ok page =>
    if !admits q page.acl then .ok g
    else
      let shared := overlap (termsOf R q.sourceText) (termsOf R (titled page.title page.body))
      if isNamed R q page then
        .ok { g with catalog := g.catalog ++ [entryOf page], named := g.named ++ [candidateOf C q page] }
      else if shared ≠ 0 then
        .ok { g with catalog := g.catalog ++ [entryOf page]
                     scored := g.scored ++ [(shared, candidateOf C q page)] }
      else .ok { g with catalog := g.catalog ++ [entryOf page] }

def readPages (q : Request) (g : Gathered) : List (Text × Text) → Except Text Gathered
  | [] => .ok g
  | file :: files => (readPage R C q g file).bind fun g => readPages q g files

/-- most shared words first, then by path -/
def byRank {α : Type} (path : α → Text) (items : List (ℕ × α)) : List α :=
  (items.insertionSort fun a b => b.1 < a.1 ∨ a.1 = b.1 ∧ path a.2 ≤ path b.2).map Prod.snd

def candidateValues (q : Request) (g : Gathered) : List Candidate :=
  g.named ++ (byRank Candidate.path g.scored).take (max 1 q.limit).toNat

/-! ## sources -/

/-- `source_file_size` -/
def sourceFileSize (tree : Worktree) (relative : Text) : Option ℕ :=
  if Corpus.isSourcePath R relative then (tree.lookup relative).map utf8Length else none

/-- `read_source` -/
def readSource (tree : Worktree) (relative : Text) (maxBytes : ℕ) : Except Text Sources.SourceDocument :=
  if !Corpus.isSourcePath R relative then .error "source path is invalid".toList
  else
    match tree.lookup relative with
    | none => .error "source does not exist".toList
    | some text =>
      if maxBytes < utf8Length text then .error "source exceeds its read limit".toList
      else Sources.parseSource R F withoutCapability relative text

def evidenceOf (relative : Text) (source : Sources.SourceDocument) : SourceEvidence :=
  ⟨relative, source.title, (F.isoformat source.capturedAt).take 10, source.body⟩

/-- the loop over the references: what is ranked, and whether something was left out -/
def readSources (tree : Worktree) (q : Request) : ℕ → List Text → List (ℕ × SourceEvidence) × Bool
  | _, [] => ([], false)
  | total, relative :: rest =>
    match sourceFileSize R tree relative with
    | none => readSources tree q total rest
    | some size =>
      if MAX_CONTEXT_SOURCE_FILE_BYTES < size then ((readSources tree q total rest).1, true)
      else if MAX_CONTEXT_SOURCE_READ_BYTES < total + size then ([], true)
      else
        let later := readSources tree q (total + size) rest
        match readSource R F withoutCapability tree relative MAX_CONTEXT_SOURCE_FILE_BYTES with
        | .error _ => later
        | .ok source =>
          if MAX_CONTEXT_SOURCE_BYTES < utf8Length source.body then (later.1, true)
          else if !admits q source.acl then later
          else
            let shared := overlap (withoutStopwords (termsOf R q.sourceText))
              (withoutStopwords (termsOf R (titled source.title source.body)))
            if shared ≠ 0 then ((shared, evidenceOf F relative source) :: later.1, later.2) else later

/-- `_source_evidence` -/
def sourceEvidence (tree : Worktree) (q : Request) (candidates : List Candidate) : List SourceEvidence × Bool :=
  let references := firsts (candidates.flatMap Candidate.sources)
  let found := readSources R F withoutCapability tree q 0 (references.take MAX_CONTEXT_SOURCE_REFERENCES)
  let ordered := byRank SourceEvidence.path found.1
  (ordered.take MAX_CONTEXT_SOURCE_EVIDENCE,
    decide (MAX_CONTEXT_SOURCE_REFERENCES < references.length) || found.2 ||
      decide (MAX_CONTEXT_SOURCE_EVIDENCE < ordered.length))

/-! ## `filing_context` -/

/-- the context before anything is taken out of it -/
def gather (tree : Worktree) (q : Request) : Except Text Context :=
  (readPages R C q ⟨[], [], []⟩ (KNOWLEDGE_FOLDERS.flatMap (folderPages tree))).map fun g =>
    let candidates := candidateValues q g
    let evidence := sourceEvidence R F withoutCapability tree q candidates
    ⟨g.catalog, candidates, evidence.1, evidence.2⟩

def filingContext (tree : Worktree) (q : Request) : Except Text Context :=
  (gather R F withoutCapability C tree q).bind Context.trim

end

/-! ## what the loop keeps -/

namespace Context

/-- the context after `k` rounds of the loop -/
def stage : ℕ → Context → Option Context
  | 0, ctx => some ctx
  | k + 1, ctx => ctx.drop.bind (stage k)

/-- `ctx` is the first stage whose text on one line fits -/
def FirstFit (start : Context) (k : ℕ) (ctx : Context) : Prop :=
  stage k start = some ctx ∧ ctx.renderedBytes ≤ MAX_PLANNER_CONTEXT_BYTES ∧
    ∀ j < k, ∀ earlier, stage j start = some earlier → MAX_PLANNER_CONTEXT_BYTES < earlier.renderedBytes

/-- the first stage that fits on one line has room for line ends and indentation -/
def Roomy (start : Context) : Prop :=
  ∀ k ctx, FirstFit start k ctx → ctx.renderedBytes + ctx.indentation ≤ MAX_PLANNER_CONTEXT_BYTES

theorem firstFit_succ {start next : Context} (hlong : MAX_PLANNER_CONTEXT_BYTES < start.renderedBytes)
    (hdrop : start.drop = some next) (k : ℕ) (ctx : Context) :
    FirstFit start (k + 1) ctx ↔ FirstFit next k ctx := by
  have hstage : ∀ j, stage (j + 1) start = stage j next := by
    intro j
    rw [stage, hdrop]
    rfl
  constructor
  · rintro ⟨hreach, hfits, hearlier⟩
    refine ⟨hstage k ▸ hreach, hfits, fun j hj earlier h => ?_⟩
    exact hearlier (j + 1) (Nat.succ_lt_succ hj) earlier ((hstage j).trans h)
  · rintro ⟨hreach, hfits, hearlier⟩
    refine ⟨(hstage k).trans hreach, hfits, fun j hj earlier h => ?_⟩
    cases j with
    | zero =>
      obtain rfl := Option.some.inj h
      exact hlong
    | succ j => exact hearlier j (Nat.lt_of_succ_lt_succ hj) earlier (hstage j ▸ h)

/-- the loop ends with the first stage that fits -/
theorem trim_eq_ok (start ctx : Context) : start.trim = .ok ctx ↔ ∃ k, FirstFit start k ctx := by
  induction start using trim.induct with
  | case1 start hlong next hdrop ih =>
    have htrim : start.trim = next.trim := by
      rw [trim, if_pos hlong]
      split
      · next hd => rw [Option.some.inj (hd.symm.trans hdrop)]
      · next hd => exact nomatch hd.symm.trans hdrop
    rw [htrim, ih]
    constructor
    · rintro ⟨k, h⟩
      exact ⟨k + 1, (firstFit_succ hlong hdrop k ctx).mpr h⟩
    · rintro ⟨k, h⟩
      cases k with
      | zero =>
        obtain rfl := Option.some.inj h.1
        exact absurd h.2.1 (Nat.not_le.mpr hlong)
      | succ k => exact ⟨k, (firstFit_succ hlong hdrop k ctx).mp h⟩
  | case2 start hlong hdrop =>
    have htrim : start.trim = .error "filing context exceeds its byte limit".toList := by
      rw [trim, if_pos hlong]
      split
      · next hd => exact nomatch hd.symm.trans hdrop
      · rfl
    rw [htrim]
    constructor
    · exact nofun
    · rintro ⟨k, h⟩
      cases k with
      | zero =>
        obtain rfl := Option.some.inj h.1
        exact absurd h.2.1 (Nat.not_le.mpr hlong)
      | succ k =>
        have hnone := h.1
        rw [stage, hdrop] at hnone
        exact nomatch hnone
  | case3 start hfits =>
    rw [trim, if_neg hfits]
    constructor
    · intro h
      obtain rfl := Except.ok.inj h
      exact ⟨0, rfl, Nat.not_lt.mp hfits, fun j hj => absurd hj (Nat.not_lt_zero j)⟩
    · rintro ⟨k, h⟩
      cases k with
      | zero =>
        obtain rfl := Option.some.inj h.1
        rfl
      | succ k => exact absurd (h.2.2 0 (Nat.succ_pos k) start rfl) hfits

/-- a shorter context holds nothing new -/
def Within (ctx start : Context) : Prop :=
  ctx.catalog ⊆ start.catalog ∧ ctx.candidates ⊆ start.candidates ∧
    ctx.sourceEvidence ⊆ start.sourceEvidence

theorem within_drop {ctx next : Context} (h : ctx.drop = some next) : Within next ctx := by
  unfold drop at h
  split at h
  · obtain rfl := Option.some.inj h
    exact ⟨List.Subset.refl _, List.dropLast_subset _, List.Subset.refl _⟩
  · split at h
    · obtain rfl := Option.some.inj h
      exact ⟨List.Subset.refl _, List.Subset.refl _, List.dropLast_subset _⟩
    · split at h
      · obtain rfl := Option.some.inj h
        exact ⟨List.Subset.refl _, List.dropLast_subset _, List.Subset.refl _⟩
      · split at h
        · obtain rfl := Option.some.inj h
          exact ⟨List.Subset.refl _, List.Subset.refl _, List.dropLast_subset _⟩
        · split at h
          · obtain rfl := Option.some.inj h
            exact ⟨List.dropLast_subset _, List.Subset.refl _, List.Subset.refl _⟩
          · exact nomatch h

theorem within_stage {k : ℕ} {start ctx : Context} (h : stage k start = some ctx) : Within ctx start := by
  induction k generalizing start with
  | zero =>
    obtain rfl := Option.some.inj h
    exact ⟨List.Subset.refl _, List.Subset.refl _, List.Subset.refl _⟩
  | succ k ih =>
    obtain ⟨next, hdrop, hreach⟩ := Option.bind_eq_some_iff.mp h
    obtain ⟨h1, h2, h3⟩ := within_drop hdrop
    obtain ⟨g1, g2, g3⟩ := ih hreach
    exact ⟨List.Subset.trans g1 h1, List.Subset.trans g2 h2, List.Subset.trans g3 h3⟩

end Context

theorem renderContext_eq_ok (ctx : Context) : (∃ t, renderContext ctx = .ok t) ↔
    ctx.renderedBytes + ctx.indentation ≤ MAX_PLANNER_CONTEXT_BYTES := by
  have hsize : Doc.size (Doc.text Doc.pretty 0 ctx.doc) = ctx.renderedBytes + ctx.indentation :=
    Doc.size_pretty 0 ctx.doc
  unfold renderContext
  dsimp only
  rw [hsize]
  by_cases h : MAX_PLANNER_CONTEXT_BYTES < ctx.renderedBytes + ctx.indentation
  · rw [if_pos h]
    exact ⟨fun ⟨t, ht⟩ => (nomatch ht), fun hle => absurd h (Nat.not_lt.mpr hle)⟩
  · rw [if_neg h]
    exact ⟨fun _ => Nat.not_lt.mp h, fun _ => ⟨_, rfl⟩⟩

/-! ## where everything comes from -/

section
variable (R : Runtime) (F : Capture.Formats) (withoutCapability : Text → Except Text Text)
  (C : Contradictions.Codec)

/-- a page of the corpus the capture may be told of -/
def Flows (tree : Worktree) (q : Request) (page : KnowledgePage) : Prop :=
  ∃ text, tree.lookup page.path = some text ∧
    parsePage R page.path (Text.universalNewlines text) = .ok page ∧
    visible page.acl q.actorGroups = true ∧ flowsInto page.acl q.captureAcl = true

/-- a source of the corpus the capture may be told of -/
def SourceFlows (tree : Worktree) (q : Request) (relative : Text) (source : Sources.SourceDocument) : Prop :=
  ∃ text, tree.lookup relative = some text ∧
    Sources.parseSource R F withoutCapability relative text = .ok source ∧
    visible source.acl q.actorGroups = true ∧ flowsInto source.acl q.captureAcl = true

/-- every item of a context is made from a page or a source that flows into the capture -/
structure Admitted (tree : Worktree) (q : Request) (ctx : Context) : Prop where
  catalog : ∀ e ∈ ctx.catalog, ∃ page, Flows R tree q page ∧ e = entryOf page
  candidates : ∀ c ∈ ctx.candidates, ∃ page, Flows R tree q page ∧ c = candidateOf C q page
  sourceEvidence : ∀ e ∈ ctx.sourceEvidence, ∃ source,
    SourceFlows R F withoutCapability tree q e.path source ∧ e = evidenceOf F e.path source

theorem parsePage_path {path text : Text} {page : KnowledgePage} (h : parsePage R path text = .ok page) :
    page.path = path := by
  unfold parsePage at h
  split at h
  split at h
  · exact nomatch h
  · split at h
    · exact nomatch h
    · split at h
      · exact nomatch h
      · split at h
        · exact nomatch h
        · unfold parseFields at h
          split at h
          · exact nomatch h
          · split at h
            · exact nomatch h
            · split at h
              · exact nomatch h
              · split at h
                · dsimp only at h
                  split at h
                  · exact nomatch h
                  · obtain rfl := Except.ok.inj h
                    rfl
                · exact nomatch h

theorem lookup_of_mem_folderPages {tree : Worktree} {folder : Text} {file : Text × Text}
    (h : file ∈ folderPages tree folder) : tree.lookup file.1 = some file.2 := by
  rw [folderPages, List.mem_insertionSort, List.mem_map] at h
  obtain ⟨e, he, rfl⟩ := h
  exact AList.mem_lookup_iff.mpr (List.mem_filter.mp he).1

/-- what the loop over the pages has gathered -/
structure GatheredFrom (tree : Worktree) (q : Request) (g : Gathered) : Prop where
  catalog : ∀ e ∈ g.catalog, ∃ page, Flows R tree q page ∧ e = entryOf page
  named : ∀ c ∈ g.named, ∃ page, Flows R tree q page ∧ c = candidateOf C q page
  scored : ∀ c ∈ g.scored, ∃ page, Flows R tree q page ∧ c.2 = candidateOf C q page

theorem gatheredFrom_nil (tree : Worktree) (q : Request) : GatheredFrom R C tree q ⟨[], [], []⟩ :=
  ⟨fun _ h => absurd h List.not_mem_nil, fun _ h => absurd h List.not_mem_nil,
    fun _ h => absurd h List.not_mem_nil⟩

theorem mem_concat {α : Type} {P : α → Prop} {l : List α} {a : α} (hl : ∀ b ∈ l, P b) (ha : P a) :
    ∀ b ∈ l ++ [a], P b := by
  intro b hb
  rcases List.mem_append.mp hb with hb | hb
  · exact hl b hb
  · rw [List.mem_singleton.mp hb]
    exact ha

theorem gatheredFrom_readPage {tree : Worktree} {q : Request} {g next : Gathered} {file : Text × Text}
    (hg : GatheredFrom R C tree q g) (hfile : tree.lookup file.1 = some file.2)
    (h : readPage R C q g file = .ok next) : GatheredFrom R C tree q next := by
  unfold readPage at h
  split at h
  · exact nomatch h
  · next page hparse =>
    split at h
    · obtain rfl := Except.ok.inj h
      exact hg
    · next hadmits =>
      rw [Bool.not_eq_true', Bool.not_eq_false, admits, Bool.and_eq_true] at hadmits
      obtain hpath := parsePage_path R hparse
      have hflows : Flows R tree q page :=
        ⟨file.2, by rw [hpath]; exact hfile, by rw [hpath]; exact hparse, hadmits.1, hadmits.2⟩
      have hcatalog := mem_concat (a := entryOf page) hg.catalog ⟨page, hflows, rfl⟩
      dsimp only at h
      split at h
      · obtain rfl := Except.ok.inj h
        exact ⟨hcatalog, mem_concat hg.named ⟨page, hflows, rfl⟩, hg.scored⟩
      · split at h
        · obtain rfl := Except.ok.inj h
          exact ⟨hcatalog, hg.named, mem_concat hg.scored ⟨page, hflows, rfl⟩⟩
        · obtain rfl := Except.ok.inj h
          exact ⟨hcatalog, hg.named, hg.scored⟩

theorem gatheredFrom_readPages {tree : Worktree} {q : Request} {files : List (Text × Text)} {g out : Gathered}
    (hg : GatheredFrom R C tree q g) (hfiles : ∀ file ∈ files, tree.lookup file.1 = some file.2)
    (h : readPages R C q g files = .ok out) : GatheredFrom R C tree q out := by
  induction files generalizing g with
  | nil =>
    obtain rfl := Except.ok.inj h
    exact hg
  | cons file files ih =>
    rw [readPages] at h
    cases hstep : readPage R C q g file with
    | error e =>
      rw [hstep] at h
      exact nomatch h
    | ok next =>
      rw [hstep] at h
      exact ih (gatheredFrom_readPage R C hg (hfiles file List.mem_cons_self) hstep)
        (fun f hf => hfiles f (List.mem_cons_of_mem _ hf)) h

theorem mem_byRank {α : Type} {path : α → Text} {items : List (ℕ × α)} {a : α} (h : a ∈ byRank path items) :
    ∃ score, (score, a) ∈ items := by
  obtain ⟨⟨score, b⟩, hb, rfl⟩ := List.mem_map.mp h
  exact ⟨score, (List.mem_insertionSort _).mp hb⟩

theorem readSource_eq_ok {tree : Worktree} {relative : Text} {maxBytes : ℕ} {source : Sources.SourceDocument}
    (h : readSource R F withoutCapability tree relative maxBytes = .ok source) :
    ∃ text, tree.lookup relative = some text ∧
      Sources.parseSource R F withoutCapability relative text = .ok source := by
  unfold readSource at h
  split at h
  · exact nomatch h
  · split at h
    · exact nomatch h
    · next text htext =>
      split at h
      · exact nomatch h
      · exact ⟨text, htext, h⟩

theorem mem_readSources {tree : Worktree} {q : Request} {references : List Text} {total : ℕ}
    {item : ℕ × SourceEvidence}
    (h : item ∈ (readSources R F withoutCapability tree q total references).1) :
    ∃ source, SourceFlows R F withoutCapability tree q item.2.path source ∧
      item.2 = evidenceOf F item.2.path source := by
  induction references generalizing total with
  | nil => exact absurd h List.not_mem_nil
  | cons relative rest ih =>
    rw [readSources] at h
    split at h
    · exact ih h
    · next size hsize =>
      split at h
      · exact ih h
      · split at h
        · exact absurd h List.not_mem_nil
        · dsimp only at h
          split at h
          · exact ih h
          · next source hread =>
            split at h
            · exact ih h
            · split at h
              · exact ih h
              · next hadmits =>
                split at h
                · rcases List.mem_cons.mp h with rfl | h
                  · rw [Bool.not_eq_true', Bool.not_eq_false, admits, Bool.and_eq_true] at hadmits
                    obtain ⟨text, htext, hparse⟩ := readSource_eq_ok R F withoutCapability hread
                    exact ⟨source, ⟨text, htext, hparse, hadmits⟩, rfl⟩
                  · exact ih h
                · exact ih h

theorem admitted_gather {tree : Worktree} {q : Request} {ctx : Context}
    (h : gather R F withoutCapability C tree q = .ok ctx) : Admitted R F withoutCapability C tree q ctx := by
  unfold gather at h
  cases hpages : readPages R C q ⟨[], [], []⟩ (KNOWLEDGE_FOLDERS.flatMap (folderPages tree)) with
  | error e =>
    rw [hpages] at h
    exact nomatch h
  | ok g =>
    rw [hpages] at h
    obtain rfl := Except.ok.inj h
    have hfiles : ∀ file ∈ KNOWLEDGE_FOLDERS.flatMap (folderPages tree), tree.lookup file.1 = some file.2 := by
      intro file hfile
      obtain ⟨folder, -, hmem⟩ := List.mem_flatMap.mp hfile
      exact lookup_of_mem_folderPages hmem
    have hg := gatheredFrom_readPages R C (gatheredFrom_nil R C tree q) hfiles hpages
    refine ⟨hg.catalog, fun c hc => ?_, fun e he => ?_⟩
    · rcases List.mem_append.mp hc with hc | hc
      · exact hg.named c hc
      · obtain ⟨score, hscore⟩ := mem_byRank (List.mem_of_mem_take hc)
        exact hg.scored _ hscore
    · obtain ⟨score, hscore⟩ := mem_byRank (List.mem_of_mem_take he)
      exact mem_readSources R F withoutCapability hscore

/-- everything in a context flows into the audience of the capture -/
theorem admitted_filing {tree : Worktree} {q : Request} {ctx : Context}
    (h : filingContext R F withoutCapability C tree q = .ok ctx) :
    Admitted R F withoutCapability C tree q ctx := by
  unfold filingContext at h
  cases hstart : gather R F withoutCapability C tree q with
  | error e =>
    rw [hstart] at h
    exact nomatch h
  | ok start =>
    rw [hstart] at h
    obtain ⟨k, hreach, -, -⟩ := (Context.trim_eq_ok start ctx).mp h
    obtain ⟨hcatalog, hcandidates, hevidence⟩ := Context.within_stage hreach
    obtain hall := admitted_gather R F withoutCapability C hstart
    exact ⟨fun e he => hall.catalog e (hcatalog he), fun c hc => hall.candidates c (hcandidates hc),
      fun e he => hall.sourceEvidence e (hevidence he)⟩

end

/-! ## a page that fits on one line -/

def longBody (n : ℕ) : Text := '#' :: ' ' :: (List.replicate n 'x' ++ " Alpha".toList)

def longPage (n : ℕ) : KnowledgePage :=
  { path := "wiki/notes/Alpha.md".toList
    pageId := "page_1".toList
    role := .note
    title := "Alpha".toList
    status := "seed".toList
    created := "2026-01-01".toList
    updated := "2026-01-01".toList
    acl := none
    sources := []
    body := longBody n
    entityType := none
    aliases := [] }

def longMetadata : Metadata := metadataOf ascii (longPage 0) []

def longText (n : ℕ) : Text := withFrontMatter ascii longMetadata ('\n' :: longBody n ++ ['\n'])

def longTree (n : ℕ) : Worktree := (∅ : Worktree).insert "wiki/notes/Alpha.md".toList (longText n)

def aboutAlpha : Request := ⟨"alpha".toList, none, none, 12⟩

def noFormats : Capture.Formats where
  isoformat := fun _ => []
  jsonTime := fun _ => []
  calendar := fun _ => (0, 0)
  datetime := fun _ => none
  occurred := fun _ => none
  integer := fun _ => none
  shown := fun _ => []
  uuid := fun _ => none
  safeDump := fun _ => []
  safeLoad := fun _ => none

def plainCodec : Contradictions.Codec := Contradictions.jsonCodec fun _ => []

def longCandidate (body : Text) : Candidate :=
  ⟨"wiki/notes/Alpha.md".toList, "Alpha".toList, .note, none, "seed".toList, [], body, [], true⟩

def longContext (body : Text) : Context :=
  ⟨[⟨"wiki/notes/Alpha.md".toList, "Alpha".toList, .note, none, []⟩], [longCandidate body], [], false⟩

theorem mem_longBody {n : ℕ} {c : Char} (h : c ∈ longBody n) : c ∈ "# xAlpha".toList := by
  rcases List.mem_cons.mp h with rfl | h
  · decide
  · rcases List.mem_cons.mp h with rfl | h
    · decide
    · rcases List.mem_append.mp h with h | h
      · rw [List.eq_of_mem_replicate h]
        decide
      · have hall : ∀ d ∈ " Alpha".toList, d ∈ "# xAlpha".toList := by decide
        exact hall c h

theorem strip_longBody (n : ℕ) : Text.strip ('\n' :: longBody n ++ ['\n']) = longBody n := by
  have hfront : Text.lstrip ('\n' :: longBody n ++ ['\n']) = longBody n ++ ['\n'] := rfl
  rw [Text.strip, hfront, Text.rstrip_append_blank rfl]
  refine Text.rstrip_eq_self fun hl => ?_
  have hlast : (longBody n).getLast? = some 'a' := by
    have hcut : longBody n = ('#' :: ' ' :: (List.replicate n 'x' ++ " Alph".toList)) ++ ['a'] := by
      rw [List.cons_append, List.cons_append, List.append_assoc]
      rfl
    rw [hcut, List.getLast?_append_cons]
    rfl
  rw [List.getLast?_eq_some_getLast hl] at hlast
  rw [Option.some.inj hlast]
  rfl

theorem universalNewlines_eq_self {t : Text} (h : '\r' ∉ t) : Text.universalNewlines t = t := by
  induction t with
  | nil => rfl
  | cons c t ih =>
    rw [List.mem_cons, not_or] at h
    rw [Text.universalNewlines.eq_3 _ _ (fun _ e _ => h.1 e.symm) (Ne.symm h.1), ih h.2]

theorem universalNewlines_longText (n : ℕ) : Text.universalNewlines (longText n) = longText n := by
  refine universalNewlines_eq_self fun h => ?_
  rw [longText, withFrontMatter, List.append_assoc, List.append_assoc] at h
  rcases List.mem_append.mp h with h | h
  · exact absurd h (by decide)
  · rcases List.mem_append.mp h with h | h
    · exact absurd h (by decide +kernel)
    · rcases List.mem_append.mp h with h | h
      · exact absurd h (by decide)
      · rcases List.mem_cons.mp h with h | h
        · exact absurd h (by decide)
        · rcases List.mem_append.mp h with h | h
          · exact absurd (mem_longBody h) (by decide)
          · exact absurd h (by decide)

theorem parsePage_longText (n : ℕ) :
    parsePage ascii "wiki/notes/Alpha.md".toList (longText n) = .ok (longPage n) := by
  have hsplit : Corpus.splitFrontmatter ascii (longText n) =
      (longMetadata, '\n' :: longBody n ++ ['\n'], false) :=
    splitFrontmatter_withFrontMatter ascii (plain_metadataOf ascii (p := longPage 0) rfl) _
  have hfields : contractFields longMetadata = some (.note, "Alpha".toList, "seed".toList) := by
    rfl
  have hpath : pagePath ascii .note "Alpha".toList = .ok "wiki/notes/Alpha.md".toList := by
    rfl
  have hparsed : parseFields ascii "wiki/notes/Alpha.md".toList longMetadata ('\n' :: longBody n ++ ['\n'])
      .note "Alpha".toList "seed".toList =
      .ok { longPage n with body := Text.strip ('\n' :: longBody n ++ ['\n']) } := by
    rfl
  rw [parsePage, hsplit]
  dsimp only
  rw [if_neg (by decide), hfields]
  dsimp only
  rw [hpath]
  dsimp only
  rw [if_neg (not_not.mpr rfl), hparsed, strip_longBody]
  rfl

theorem summary_longBody (n : ℕ) : summary (longBody n) = [] := by
  have hends : ∀ c ∈ "# xAlpha".toList, c ≠ '\r' ∧ Text.isLineEnd c = false := by decide
  have hline : ∀ c ∈ longBody n, Text.isLineEnd c = false := fun c hc => (hends c (mem_longBody hc)).2
  have hself := universalNewlines_eq_self fun h => (hends _ (mem_longBody (n := n) h)).1 rfl
  have hlines : Text.splitlines (longBody n) = [longBody n] := by
    rw [Text.splitlines, hself, List.splitOnP_eq_singleton hline]
    rfl
  have hstrip : Text.strip (longBody n) = longBody n := by
    rw [← strip_longBody n, Text.strip_strip]
  rw [summary, hlines, List.map_singleton, hstrip]
  rfl

theorem overlap_longPage (n : ℕ) :
    overlap (termsOf ascii aboutAlpha.sourceText) (termsOf ascii (titled (longPage n).title (longPage n).body)) =
      1 := by
  have hsplit : ("alpha".toList ++ '\n' :: (longBody n).map Ascii.lowerChar).splitOnP (fun c => !Ascii.isAlnum c) =
      "alpha".toList :: ((longBody n).map Ascii.lowerChar).splitOnP fun c => !Ascii.isAlnum c := by
    rw [List.splitOnP_append_cons _ _ (by decide), List.splitOnP_eq_singleton (by decide)]
    rfl
  have hmem : "alpha".toList ∈ termsOf ascii (titled (longPage n).title (longPage n).body) := by
    refine List.mem_dedup.mpr ?_
    show _ ∈ (List.splitOnP (fun c => !Ascii.isAlnum c)
      ("alpha".toList ++ '\n' :: (longBody n).map Ascii.lowerChar)).filter _
    rw [hsplit]
    exact List.mem_filter.mpr ⟨List.mem_cons_self, rfl⟩
  have hterms : termsOf ascii aboutAlpha.sourceText = ["alpha".toList] := by decide +kernel
  rw [overlap, hterms, List.filter_cons, if_pos (List.contains_iff_mem.mpr hmem)]
  rfl

theorem filedContradictions_longBody (n : ℕ) : filedContradictions plainCodec (longBody n) = [] := by
  have hcount : ∀ p ∈ Contradictions.MARKERS, Text.count p (longBody n) = 0 := by
    intro p hp
    have hopen : ∀ p ∈ Contradictions.MARKERS, p = '<' :: p.tail := by decide +kernel
    rw [hopen p hp]
    exact Text.count_of_notMem fun h => absurd (mem_longBody h) (by decide)
  have hparse : Contradictions.parseAll plainCodec (longBody n) = .ok [] :=
    Contradictions.parseAll_iff.mpr ⟨Contradictions.Listed.last hcount, List.nodup_nil⟩
  rw [filedContradictions, hparse]
  rfl

theorem gather_longTree (n : ℕ) : gather ascii noFormats .ok plainCodec (longTree n) aboutAlpha =
    .ok (longContext (longBody n)) := by
  have hfiles : KNOWLEDGE_FOLDERS.flatMap (folderPages (longTree n)) =
      [("wiki/notes/Alpha.md".toList, longText n)] := by
    rfl
  have hstep : readPage ascii plainCodec aboutAlpha ⟨[], [], []⟩ ("wiki/notes/Alpha.md".toList, longText n) =
      .ok ⟨(longContext (longBody n)).catalog, [], [(1, longCandidate (longBody n))]⟩ := by
    rw [readPage, universalNewlines_longText, parsePage_longText]
    dsimp only
    have hadmits : (!admits aboutAlpha (longPage n).acl) = false := rfl
    have hnamed : isNamed ascii aboutAlpha (longPage n) = false := rfl
    have hbody : (longPage n).body = longBody n := rfl
    rw [hadmits, if_neg Bool.false_ne_true, overlap_longPage, hnamed, if_neg Bool.false_ne_true,
      if_pos Nat.one_ne_zero, entryOf, candidateOf, hbody, summary_longBody, filedContradictions_longBody]
    rfl
  rw [gather, hfiles, readPages, hstep]
  rfl

/-! ## a corpus at the limit -/

/-- a page without sources, names and contradictions -/
theorem layout_candidate {c : Candidate} (hentity : c.entity = none) (hsources : c.sources = [])
    (hfiled : c.filedContradictions = []) (n : ℕ) : Doc.layout n c.doc = 18 * n + 18 := by
  rw [Candidate.doc, hentity, hsources, hfiled]
  simp only [aliasesDoc, entityTypeDoc, textsDoc, List.map_nil, List.nil_append, List.cons_append]
  simp only [Doc.layout, Doc.entriesLayout]
  omega

theorem layout_entry {e : Entry} (hentity : e.entity = none) (n : ℕ) : Doc.layout n e.doc = 10 * n + 10 := by
  rw [Entry.doc, hentity]
  simp only [aliasesDoc, entityTypeDoc, List.nil_append]
  simp only [Doc.layout, Doc.entriesLayout]
  omega

theorem indentation_longContext (body : Text) : (longContext body).indentation = 110 := by
  rw [Context.indentation, Context.doc, longContext]
  simp only [List.map_cons, List.map_nil]
  simp only [Doc.layout, Doc.entriesLayout, Doc.itemsLayout]
  rw [layout_candidate rfl rfl rfl, layout_entry rfl]

/-- one line of a page grows with its body -/
theorem size_candidate (c : Candidate) (n : ℕ) (s t : Text) :
    Doc.size (Doc.text Doc.line n (Candidate.doc { c with body := s })) + Doc.size (Doc.quoted t) =
      Doc.size (Doc.text Doc.line n (Candidate.doc { c with body := t })) + Doc.size (Doc.quoted s) := by
  cases c.entity with
  | none =>
    simp only [Candidate.doc, aliasesDoc, entityTypeDoc, List.nil_append, List.cons_append, Doc.text,
      Doc.entries, Doc.size_append, Doc.size_cons]
    omega
  | some entity =>
    simp only [Candidate.doc, aliasesDoc, entityTypeDoc, List.nil_append, List.cons_append, Doc.text,
      Doc.entries, Doc.size_append, Doc.size_cons]
    omega

theorem renderedBytes_candidate (ctx : Context) (c : Candidate) (s t : Text) :
    Context.renderedBytes { ctx with candidates := [{ c with body := s }] } + Doc.size (Doc.quoted t) =
      Context.renderedBytes { ctx with candidates := [{ c with body := t }] } + Doc.size (Doc.quoted s) := by
  have hc := size_candidate c (0 + 1 + 1) s t
  simp only [Context.renderedBytes, Context.doc, List.map_cons, List.map_nil]
  simp only [Doc.text, Doc.entries, Doc.items, Doc.size_append, Doc.size_cons]
  omega

theorem size_longBody (n : ℕ) : Doc.size (Doc.quoted (longBody n)) = n + 10 := by
  have hplain : ∀ c ∈ "# xAlpha".toList, Doc.escape c = [c] ∧ c.utf8Size = 1 := by decide +kernel
  have hflat : ∀ t : Text, (∀ c ∈ t, c ∈ "# xAlpha".toList) → Doc.size (t.flatMap Doc.escape) = t.length := by
    intro t
    induction t with
    | nil => exact fun _ => rfl
    | cons c t ih =>
      intro h
      obtain ⟨hescape, hone⟩ := hplain c (h c List.mem_cons_self)
      rw [List.flatMap_cons, Doc.size_append, ih fun d hd => h d (List.mem_cons_of_mem c hd), hescape,
        Doc.size_cons, hone, List.length_cons]
      show 1 + 0 + t.length = _
      omega
  have hquote : '"'.utf8Size = 1 := rfl
  rw [Doc.quoted, List.cons_append, Doc.size_cons, Doc.size_append, hflat _ fun c hc => mem_longBody hc, hquote]
  simp only [longBody, List.length_cons, List.length_append, List.length_replicate]
  show 1 + (n + 6 + 1 + 1 + 1) = n + 10
  omega

theorem renderedBytes_longBody (n : ℕ) : (longContext (longBody n)).renderedBytes = n + 330 := by
  have hbase : (longContext []).renderedBytes = 322 := by decide +kernel
  have hempty : Doc.size (Doc.quoted []) = 2 := rfl
  have hsize : (longContext (longBody n)).renderedBytes + Doc.size (Doc.quoted []) =
      (longContext []).renderedBytes + Doc.size (Doc.quoted (longBody n)) :=
    renderedBytes_candidate (longContext []) (longCandidate []) (longBody n) []
  rw [size_longBody, hbase, hempty] at hsize
  omega

/-- a context as long as the limit on one line is built, and not rendered -/
theorem filed_longTree {n : ℕ} (hn : n + 330 = MAX_PLANNER_CONTEXT_BYTES) :
    filingContext ascii noFormats .ok plainCodec (longTree n) aboutAlpha = .ok (longContext (longBody n)) ∧
      ¬∃ t, renderContext (longContext (longBody n)) = .ok t := by
  constructor
  · have hfits := (renderedBytes_longBody n).trans hn
    rw [filingContext, gather_longTree]
    exact (Context.trim_eq_ok _ _).mpr ⟨0, rfl, hfits.le, fun j hj => absurd hj (Nat.not_lt_zero j)⟩
  · rw [renderContext_eq_ok, renderedBytes_longBody, indentation_longContext]
    omega

end Filing
