import Stigmergy.Knowledge.Aliases
import Stigmergy.Lib.Snapshot

/-!
# Plans, applied as a whole

What becomes of the plan a librarian returns for a capture: `_apply_filing_plan` of `knowledge/writer.py` over the
files of a view, and the part of `_capture` that corrects it, drops its lossy updates, or gives it up.

* `applyFilingPlan`   creates, updates, deletes, contradictions and the resolution of one, in order; what fails
                      leaves the files it had changed;
* `planned`           the plan, its one correction, and the knowledge pages put back between attempts;
* `Explained`         every changed file is a knowledge page with a reason;
* `whole`             a rejected plan leaves no trace; what is filed is one plan applied to the files as they were;
* `gated`             every page a plan has changed has a reason, and was before the gates.
-/

set_option linter.unusedSectionVars false

namespace Plans

open Corpus Pages Lint Resolve
open Names (PageMutation MutationAction)
open Additive (WriteContext UpdateError)
open Aliases (asRead)

structure ContradictionProposal where
  pagePath : Text
  explanation : Text
  claims : List Claim

structure FilingPlan where
  mutations : List PageMutation
  contradictions : List ContradictionProposal
  resolvedContradictions : List Text

/-- what one application mints: the id of a page created at a path, and of a contradiction -/
structure Ids where
  pageId : Text → Text
  contradictionId : ℕ → Text

/-- what the applications of one capture share -/
structure Job where
  context : WriteContext
  /-- the contradiction the capture resolves, empty for none -/
  resolutionOf : Text
  rationale : Text
  /-- the day of the capture -/
  day : Text
  source : Text
  /-- the sources a contradiction may cite -/
  allowedSources : List Text
  dropBroader : Bool

/-- the files, the reasons of the ledger, and what was not applied -/
structure Stage where
  tree : Worktree
  reasons : AList fun _ : Text => Text
  skipped : List Text

/-! ## one mutation -/

/-- `_path`: the file a path names -/
def pathOf (relative : Text) : Except Text Text :=
  let normalized := relative.map fun c => if c = '\\' then '/' else c
  let parts := normalized.splitOn '/'
  if normalized.head? = some '/' || parts.contains "..".toList then .error "writer path is invalid".toList
  else .ok (['/'].intercalate (parts.filter fun part => !part.isEmpty && part != ".".toList))

/-- the text of a file -/
def read (t : Worktree) (path : Text) : Option Text := (t.lookup path).map Text.universalNewlines

/-- `_actor_may_read` -/
def actorMayRead (context : WriteContext) (acl : Option (List Text)) : Bool :=
  context.unrestricted || Additive.visible acl context.actorGroups

/-- `is_broader` -/
def isBroader (context : WriteContext) (acl : Option (List Text)) : Bool :=
  actorMayRead context acl && !flowsInto context.contentAcl acl

/-- `allow_create` -/
def allowCreate (context : WriteContext) (acl : Option (List Text)) : Except Text Unit :=
  if acl ≠ context.contentAcl then .error "new knowledge must retain the capture audience".toList
  else if actorMayRead context acl then .ok ()
  else .error "the actor cannot affect knowledge they cannot read".toList

/-- what a mutation fails with -/
inductive Failure where
  | contradictionContract (message : Text)
  | other (message : Text)
  | notPreserved (path : Text) (lost : List Text)

def plannedMutation (index : ℕ) : Text :=
  "planned mutation ".toList ++ decimal index ++ " could not be applied".toList

/-- how the loop over the mutations passes a failure on -/
def Failure.passed (index : ℕ) : Failure → UpdateError
  | .contradictionContract message => .refused message
  | .other _ => .refused (plannedMutation index)
  | .notPreserved path lost => .notPreserved path lost

section
variable (R : Runtime) (C : Contradictions.Codec) (J : Job) (ids : Ids)

/-- `page_path(role or "", title or "")` -/
def creationPath (m : PageMutation) : Except Text Text :=
  match m.role with
  | none => .error "knowledge role must be note, concept, entity, or project".toList
  | some role => pagePath R role (m.title.getD [])

/-- the record a creation is rendered from -/
def created (m : PageMutation) (path : Text) : KnowledgePage where
  path := path
  pageId := ids.pageId path
  role := m.role.getD .note
  title := m.title.getD []
  status := if (m.status.getD []).isEmpty then "developing".toList else m.status.getD []
  created := J.day
  updated := J.day
  acl := J.context.contentAcl
  sources := [J.source]
  body := m.body.getD []
  entityType := m.entityType
  aliases := m.aliases.getD []

/-- `_write_new` -/
def writeNew (t : Worktree) (path text : Text) : Except Text Worktree :=
  (pathOf path).bind fun target =>
    if (t.lookup target).isSome then .error "writer target already exists".toList else .ok (t.insert target text)

/-- a creation: the files and the path of the page -/
def createPage (t : Worktree) (m : PageMutation) : Except Text (Worktree × Text) :=
  match creationPath R m with
  | .error e => .error e
  | .ok path =>
    match allowCreate J.context J.context.contentAcl, Contradictions.parseAll C (m.body.getD []) with
    | .error e, _ => .error e
    | .ok (), .error _ => .error "planned page body has invalid contradiction markers".toList
    | .ok (), .ok (_ :: _) => .error "contradictions must use the structured contradiction plan".toList
    | .ok (), .ok [] =>
      (renderPage R (created J ids m path)).bind fun text => (writeNew t path text).map fun t => (t, path)

/-- a deletion -/
def deletePage (t : Worktree) (path : Text) : Except Failure Worktree :=
  match pathOf path with
  | .error e => .error (.other e)
  | .ok target =>
    match read t target with
    | none => .error (.other "planned page does not exist".toList)
    | some text =>
      match parsePage R path text with
      | .error e => .error (.other e)
      | .ok page =>
        match Additive.allowExisting J.context page.acl, Contradictions.parseAll C page.body with
        | .error e, _ => .error (.other e)
        | .ok (), .error e => .error (.contradictionContract e)
        | .ok (), .ok (_ :: _) =>
          .error (.other "a capture cannot delete a page with unresolved contradictions".toList)
        | .ok (), .ok [] => .ok (t.erase target)

/-- an update -/
def updatePage (t : Worktree) (m : PageMutation) : Except Failure Worktree :=
  match pathOf (m.path.getD []) with
  | .error e => .error (.other e)
  | .ok target =>
    match Additive.applyUpdate R C J.context (read t target) m J.source J.day with
    | .error (.refused e) => .error (.other e)
    | .error (.notPreserved path lost) => .error (.notPreserved path lost)
    | .ok (_, text) => .ok (t.insert target text)

/-- `_apply_page_mutation`: the files, and the path the reason is for -/
def applyPageMutation (t : Worktree) (m : PageMutation) : Except Failure (Worktree × Text) :=
  match m.action with
  | .create =>
    match createPage R C J ids t m with
    | .error e => .error (.other e)
    | .ok result => .ok result
  | .update => (updatePage R C J t m).map fun t => (t, m.path.getD [])
  | .delete => (deletePage R C J t (m.path.getD [])).map fun t => (t, m.path.getD [])

/-- `_broader_page` -/
def broaderPage (t : Worktree) (path : Text) : Bool :=
  match pathOf path with
  | .error _ => false
  | .ok target =>
    match (read t target).map (parsePage R path) with
    | some (.ok page) => !path.isEmpty && isBroader J.context page.acl
    | _ => false

/-- the body of a mutation with its links put to their pages, and what is told of those that go to none -/
def linked (stems : Stems) (m : PageMutation) : Except Text (PageMutation × List Text) :=
  if (m.body.getD []).isEmpty then .ok (m, [])
  else
    let result := resolveLinks R stems (canonicalLinks R stems (m.body.getD []))
    (if (m.path.getD []).isEmpty then creationPath R m else .ok (m.path.getD [])).map fun target =>
      ({ m with body := some result.1 }, result.2.map fun name =>
        "unlinked unresolved wikilink ".toList ++ R.repr name ++ " in ".toList ++ target)

/-! ## a plan -/

/-- what a part of a plan leaves, whether it fails or not -/
abbrev Result (α : Type) := Stage × Except UpdateError α

def Result.andThen {α β : Type} (x : Result α) (f : α → Stage → Result β) : Result β :=
  match x.2 with
  | .error e => (x.1, .error e)
  | .ok a => f a x.1

def refuse {α : Type} (s : Stage) (message : Text) : Result α := (s, .error (.refused message))

def Stage.skip (s : Stage) (told : List Text) : Stage := { s with skipped := s.skipped ++ told }

def Stage.write (s : Stage) (tree : Worktree) (path reason : Text) : Stage :=
  { s with tree := tree, reasons := s.reasons.insert path reason }

def isDropped (s : Stage) (m : PageMutation) : Bool :=
  J.dropBroader && decide (m.action ≠ .create) && broaderPage R J s.tree (m.path.getD [])

def notApplied (m : PageMutation) : Text :=
  (if m.action = .update then "update to ".toList else "delete of ".toList) ++ m.path.getD [] ++
    " was not applied: ".toList ++ Layered.NARROWER

/-- one round of the loop over the mutations; the path of an update -/
def mutationRound (stems : Stems) (index : ℕ) (m : PageMutation) (s : Stage) : Result (List Text) :=
  if isDropped R J s m then (s.skip [notApplied m], .ok [])
  else
    match linked R stems m with
    | .error e => refuse s e
    | .ok (m, told) =>
      match applyPageMutation R C J ids s.tree m with
      | .error failure => (s.skip told, .error (failure.passed index))
      | .ok (tree, path) =>
        ((s.skip told).write tree path m.reason, .ok (if m.action = .update then [path] else []))

/-- the loop, with the paths of the updates -/
def applyMutations (stems : Stems) : ℕ → List PageMutation → List Text → Stage → Result (List Text)
  | _, [], updated, s => (s, .ok updated)
  | index, m :: ms, updated, s =>
    (mutationRound R C J ids stems index m s).andThen fun path s =>
      applyMutations stems (index + 1) ms (updated ++ path) s

def plannedContradiction (index : ℕ) (what : String) : Text :=
  "planned contradiction ".toList ++ decimal index ++ what.toList

/-- `from_proposal` -/
def fromProposal (index : ℕ) (p : ContradictionProposal) : Contradiction where
  contradictionId := ids.contradictionId index
  explanation := Text.oneLine p.explanation
  claims := p.claims

/-- the page with the contradiction -/
def withContradiction (page : KnowledgePage) (record : Contradiction) : Except Text Text :=
  (Contradictions.append C page.body record).bind fun body =>
    renderPage R { page with
      body := body
      sources := firsts (page.sources ++ record.claims.map Claim.source)
      updated := J.day }

/-- `check(root)` -/
def found (t : Worktree) (editorialPaths : List Text) : List Violation := check R C (asRead t) editorialPaths

/-- one round of the loop over the contradictions -/
def contradictionRound (index : ℕ) (p : ContradictionProposal) (s : Stage) : Result Unit :=
  if J.dropBroader && broaderPage R J s.tree p.pagePath then
    (s.skip ["contradiction on ".toList ++ p.pagePath ++ " was not recorded: ".toList ++ Layered.NARROWER], .ok ())
  else
    match pathOf p.pagePath with
    | .error e => refuse s e
    | .ok target =>
      match read s.tree target with
      | none => refuse s (plannedContradiction index " targets no page this capture may affect")
      | some original =>
        match parsePage R p.pagePath original with
        | .error e => refuse s e
        | .ok page =>
          match Additive.allowExisting J.context page.acl with
          | .error _ => refuse s (plannedContradiction index " targets no page this capture may affect")
          | .ok () =>
            match withContradiction R C J page (fromProposal ids index p) with
            | .error _ => refuse s (plannedContradiction index " is invalid")
            | .ok candidate =>
              let tree := s.tree.insert target candidate
              if (found R C tree []).all fun v => v ∈ found R C s.tree [] then
                (s.write tree p.pagePath p.explanation, .ok ())
              else
                refuse { s with tree := tree.insert target original }
                  (plannedContradiction index " failed knowledge gates")

def applyContradictions : ℕ → List ContradictionProposal → Stage → Result Unit
  | _, [], s => (s, .ok ())
  | index, p :: ps, s =>
    (contradictionRound R C J ids index p s).andThen fun _ s => applyContradictions (index + 1) ps s

/-- the pages that hold the contradiction and may be changed, with their bodies without it -/
def holders (id : Text) : List (Text × Text) → Except Text (List (KnowledgePage × Text))
  | [] => .ok []
  | (path, file) :: files =>
    match parsePage R path (Text.universalNewlines file) with
    | .error e => .error e
    | .ok page =>
      match Additive.allowExisting J.context page.acl with
      | .error _ => holders id files
      | .ok () =>
        match Contradictions.remove C page.body id with
        | .error e => .error e
        | .ok (body, removed) => (holders id files).map fun found => if removed then (page, body) :: found else found

/-- the loop of `_remove_contradiction` that writes -/
def writeHolders : List (KnowledgePage × Text) → Worktree → Worktree × Except Text Unit
  | [], t => (t, .ok ())
  | (page, body) :: found, t =>
    match renderPage R { page with body := body, sources := firsts (page.sources ++ [J.source]), updated := J.day } with
    | .error e => (t, .error e)
    | .ok text => writeHolders found (t.insert page.path text)

def resolvedReason : Text := if J.rationale.isEmpty then "Resolved contradiction".toList else J.rationale

/-- `_remove_contradiction`, and the reasons for what it has changed -/
def removeContradiction (updated : List Text) (s : Stage) : Result Unit :=
  match holders R C J J.resolutionOf (KNOWLEDGE_FOLDERS.flatMap (Filing.folderPages s.tree)) with
  | .error e => refuse s e
  | .ok found =>
    if found.any fun e => !List.elem e.1.path updated then
      refuse s "planned contradiction resolution could not be applied".toList
    else
      match writeHolders R J found s.tree with
      | (tree, .error e) => refuse { s with tree := tree } e
      | (tree, .ok ()) => ({ s with
          tree := tree
          reasons := found.foldl (fun reasons e => reasons.insert e.1.path (resolvedReason J)) s.reasons }, .ok ())

/-- the resolutions of a plan -/
def resolve (resolved updated : List Text) (s : Stage) : Result Unit :=
  if resolved.isEmpty then (s, .ok ())
  else if J.resolutionOf.isEmpty || resolved != [J.resolutionOf] then
    refuse s "only the contradiction named by the capture can be resolved".toList
  else removeContradiction R C J updated s

/-- `_apply_filing_plan` -/
def applyFilingPlan (plan : FilingPlan) (s : Stage) : Result Unit :=
  if !J.resolutionOf.isEmpty && !J.context.unrestricted then
    refuse s "this operation requires the master identity".toList
  else if plan.contradictions.any fun p => p.claims.any fun claim => !List.elem claim.source J.allowedSources then
    refuse s "contradiction cites evidence outside the supplied filing context".toList
  else
    match Names.skipClaimedNames R s.tree plan.mutations with
    | .error e => refuse s e
    | .ok claims =>
      match Layered.parseFiles R (KNOWLEDGE_FOLDERS.flatMap (Filing.folderPages s.tree)) with
      | .error e => refuse (s.skip claims.skipped) e
      | .ok pages =>
        let stems := claims.contested.foldl (fun stems name => stems.insert name none)
          (knowledgeLinkStems R (pages.map fun f => f.2.1) claims.kept J.context)
        Result.andThen (applyMutations R C J ids stems 0 claims.kept [] (s.skip claims.skipped)) fun updated s =>
          Result.andThen (applyContradictions R C J ids 0 plan.contradictions s) fun _ s =>
            resolve R C J plan.resolvedContradictions updated s

/-! ## the plan of a capture -/

/-- what a planner returns -/
inductive Answer where
  | wrongType
  | plan (p : FilingPlan)

/-- what the planner answers, first and when it is asked to correct; nothing when that raises -/
structure Planner where
  first : Answer
  correction : Option Answer
  /-- requests the first answer took -/
  requests : ℕ

/-- `_snapshot_mutable`: what it holds -/
def isMutable (path : Text) : Bool :=
  KNOWLEDGE_FOLDERS.any fun folder => Text.startsWith (folder ++ ['/']) path && Text.endsWith ".md".toList path

def SOURCE_REASON : Text := "Archived immutable readable evidence".toList

def sourceReasons : AList fun _ : Text => Text := AList.insert J.source SOURCE_REASON ∅

/-- a stage before a plan -/
def fresh (t : Worktree) (skipped : List Text) : Stage := ⟨t, sourceReasons J, skipped⟩

/-- the paths of `reasons` that are pages -/
def editorialPaths (reasons : AList fun _ : Text => Text) : List Text :=
  reasons.keys.filter fun path => (pathRole path).isSome

variable (tolerated : List Violation)

/-- `_introduced(check(tree, editorial_paths=…), tolerated)` -/
def introduced (s : Stage) : List Violation :=
  (found R C s.tree (editorialPaths s.reasons)).filter fun v => v ∉ tolerated

/-- an attempt: the stage it leaves, whether it is to be given up, and `plan_rejection` -/
structure Attempt where
  stage : Stage
  invalid : Bool
  rejection : Text

def messageOf : UpdateError → Text
  | .refused message => message
  | .notPreserved _ _ => "existing-source-block-not-preserved".toList

/-- the first plan -/
def firstAttempt (answer : Answer) (s : Stage) : Attempt :=
  match answer with
  | .wrongType => ⟨s, true, "filing planner returned the wrong plan type".toList⟩
  | .plan plan =>
    match applyFilingPlan R C J ids plan s with
    | (s, .error e) => ⟨s, true, messageOf e⟩
    | (s, .ok ()) =>
      if plan.mutations.isEmpty && plan.contradictions.isEmpty then ⟨s, true, "empty-plan".toList⟩
      else ⟨s, false, []⟩

/-- a plan without the updates of the pages -/
def without (plan : FilingPlan) (dropped : List Text) : FilingPlan :=
  { plan with mutations := plan.mutations.filter fun m =>
      !(decide (m.action = .update) && m.path.any fun path => List.elem path dropped) }

def wouldDrop (path : Text) : Text :=
  "update of ".toList ++ path ++ " was not applied: it would drop cited lines".toList

end

section
variable {R : Runtime} {C : Contradictions.Codec} {J : Job} {ids : Ids}

/-! ## what a plan may change -/

variable (R) in
/-- the path of a title under its role -/
def IsPage (path : Text) : Prop := ∃ role title, pagePath R role title = .ok path

/-- the parts of such a path -/
theorem IsPage.parts {path : Text} (h : IsPage R path) :
    ∃ zone name, path = "wiki".toList ++ '/' :: (zone ++ '/' :: name) ∧ '\\' ∉ path ∧ '/' ∉ zone ∧ '/' ∉ name ∧
      3 ≤ zone.length ∧ 3 ≤ name.length := by
  obtain ⟨role, title, hpath⟩ := h
  obtain ⟨-, rfl⟩ := pagePath_eq_ok R hpath
  have hsafe : ∀ c ∈ titleStem R title, isUnsafe c = false := isUnsafe_titleStem R
  have hslash : '/' ∉ titleStem R title := fun hmem => absurd (hsafe _ hmem) (by decide)
  have hback : '\\' ∉ titleStem R title := fun hmem => absurd (hsafe _ hmem) (by decide)
  have hzone : role.folder = "wiki".toList ++ '/' :: role.folder.drop 5 ∧ '/' ∉ role.folder.drop 5 ∧
      '\\' ∉ role.folder ∧ 3 ≤ (role.folder.drop 5).length := by
    cases role <;> decide
  obtain ⟨hfolder, hnoSlash, hnoBack, hlen⟩ := hzone
  refine ⟨role.folder.drop 5, titleStem R title ++ ".md".toList, ?_, ?_, hnoSlash, ?_, hlen, ?_⟩
  · conv_lhs => rw [hfolder]
    simp only [List.append_assoc, List.cons_append]
  · simp only [List.mem_append, List.mem_cons, not_or]
    exact ⟨⟨hnoBack, by decide, hback⟩, by decide⟩
  · rw [List.mem_append, not_or]
    exact ⟨hslash, by decide⟩
  · rw [List.length_append]
    exact Nat.le_add_left 3 _

theorem splitOn_slash {a b c : Text} (ha : '/' ∉ a) (hb : '/' ∉ b) (hc : '/' ∉ c) :
    (a ++ '/' :: (b ++ '/' :: c)).splitOn '/' = [a, b, c] := by
  have hnot : ∀ {t : Text}, '/' ∉ t → ∀ d ∈ t, (d == '/') = false := fun ht d hd =>
    beq_false_of_ne fun heq => ht (heq ▸ hd)
  rw [List.splitOn, List.splitOnP_append_cons_of_forall_mem (hnot ha) '/' rfl,
    List.splitOnP_append_cons_of_forall_mem (hnot hb) '/' rfl, List.splitOnP_eq_singleton (hnot hc)]

/-- the path of a page names its own file -/
theorem pathOf_page {path : Text} (h : IsPage R path) : pathOf path = .ok path := by
  obtain ⟨zone, name, rfl, hback, hzone, hname, hlong, hlong'⟩ := h.parts
  have hmap : ("wiki".toList ++ '/' :: (zone ++ '/' :: name)).map (fun c => if c = '\\' then '/' else c) =
      "wiki".toList ++ '/' :: (zone ++ '/' :: name) := by
    conv_rhs => rw [← List.map_id ("wiki".toList ++ '/' :: (zone ++ '/' :: name))]
    refine List.map_congr_left fun c hc => ?_
    have hne : c ≠ '\\' := fun heq => hback (heq ▸ hc)
    rw [if_neg hne]
    rfl
  have hkeep : ∀ part ∈ ["wiki".toList, zone, name], 3 ≤ part.length := by
    intro part hpart
    simp only [List.mem_cons, List.not_mem_nil, or_false] at hpart
    rcases hpart with rfl | rfl | rfl
    · decide
    · exact hlong
    · exact hlong'
  have hdots : ["wiki".toList, zone, name].contains "..".toList = false := by
    rw [Bool.eq_false_iff, ne_eq, List.contains_iff_mem]
    exact fun hmem => absurd (hkeep _ hmem) (by decide)
  have hfilter : (["wiki".toList, zone, name].filter fun part => !part.isEmpty && part != ".".toList) =
      ["wiki".toList, zone, name] := by
    refine List.filter_eq_self.mpr fun part hpart => ?_
    have hthree := hkeep part hpart
    rw [Bool.and_eq_true, Bool.not_eq_true', bne_iff_ne, List.isEmpty_eq_false_iff]
    refine ⟨fun hnil => ?_, fun hdot => ?_⟩
    · rw [hnil] at hthree
      exact absurd hthree (by decide)
    · rw [hdot] at hthree
      exact absurd hthree (by decide)
  unfold pathOf
  dsimp only
  rw [hmap, splitOn_slash (by decide) hzone hname, hfilter, hdots]
  show Except.ok (['/'].intercalate ["wiki".toList, zone, name]) = _
  congr 1
  simp [List.intercalate]

theorem isMutable_page {path : Text} (h : IsPage R path) : isMutable path = true := by
  obtain ⟨role, title, hpath⟩ := h
  obtain ⟨-, rfl⟩ := pagePath_eq_ok R hpath
  refine List.any_eq_true.mpr ⟨role.folder, ?_, ?_⟩
  · cases role <;> decide
  · rw [Bool.and_eq_true]
    refine ⟨startsWith_iff.mpr ⟨titleStem R title ++ ".md".toList, ?_⟩, endsWith_iff.mpr (List.suffix_append _ _)⟩
    simp only [List.append_assoc, List.cons_append, List.nil_append]

theorem pathRole_page {path : Text} (h : IsPage R path) : (pathRole path).isSome = true := by
  obtain ⟨role, title, hpath⟩ := h
  obtain ⟨-, rfl⟩ := pagePath_eq_ok R hpath
  unfold pathRole
  rw [List.find?_isSome]
  refine ⟨role, by cases role <;> decide, ?_⟩
  have hassoc : role.folder ++ '/' :: titleStem R title ++ ".md".toList =
      (role.folder ++ ['/']) ++ (titleStem R title ++ ".md".toList) := by
    simp only [List.append_assoc, List.cons_append, List.nil_append]
  have hdrop : (role.folder ++ '/' :: titleStem R title ++ ".md".toList).drop (role.folder.length + 1) =
      titleStem R title ++ ".md".toList := by
    rw [hassoc]
    exact List.drop_left' (by rw [List.length_append, List.length_singleton])
  have hslash : List.contains (titleStem R title ++ ".md".toList) '/' = false := by
    rw [Bool.eq_false_iff, ne_eq, List.contains_iff_mem, List.mem_append, not_or]
    exact ⟨fun hmem => absurd (isUnsafe_titleStem R _ hmem) (by decide), by decide⟩
  rw [hdrop, hslash, startsWith_iff.mpr ⟨_, hassoc.symm⟩, endsWith_iff.mpr (List.suffix_append _ _)]
  rfl

theorem isPage_of_parsePage {path text : Text} {page : KnowledgePage} (h : parsePage R path text = .ok page) :
    IsPage R path ∧ page.path = path := by
  obtain ⟨title, hpath, -⟩ := (Names.parsed_of_parsePage h).title
  exact ⟨⟨_, _, hpath⟩, (accepted_of_parsePage h).place⟩

/-! ## what every part of a plan keeps -/

/-- the file of one path may differ -/
def OnlyAt (t u : Worktree) (path : Text) : Prop := ∀ other, other ≠ path → u.lookup other = t.lookup other

theorem OnlyAt.insert (t : Worktree) (path text : Text) : OnlyAt t (t.insert path text) path :=
  fun _ hne => AList.lookup_insert_ne hne

theorem OnlyAt.erase (t : Worktree) (path : Text) : OnlyAt t (t.erase path) path :=
  fun _ hne => AList.lookup_erase_ne hne

variable (R) in
/-- every file that differs is a page -/
def Within (s u : Stage) : Prop := ∀ path, u.tree.lookup path ≠ s.tree.lookup path → IsPage R path

variable (R) in
/-- every file that differs is a page with a reason, and only pages are given reasons -/
structure Explained (s u : Stage) : Prop where
  kept : ∀ path ∈ s.reasons, path ∈ u.reasons
  told : ∀ path ∈ u.reasons, path ∈ s.reasons ∨ IsPage R path
  changed : ∀ path, u.tree.lookup path ≠ s.tree.lookup path → path ∈ u.reasons ∧ IsPage R path

theorem Within.refl (s : Stage) : Within R s s := fun _ h => absurd rfl h

theorem Within.trans {s t u : Stage} (h : Within R s t) (h' : Within R t u) : Within R s u := fun path hne => by
  by_cases hsame : t.tree.lookup path = s.tree.lookup path
  · exact h' path (hsame ▸ hne)
  · exact h path hsame

theorem Explained.refl (s : Stage) : Explained R s s :=
  ⟨fun _ h => h, fun _ h => Or.inl h, fun _ h => absurd rfl h⟩

theorem Explained.within {s u : Stage} (h : Explained R s u) : Within R s u := fun path hne => (h.changed path hne).2

theorem Explained.trans {s t u : Stage} (h : Explained R s t) (h' : Explained R t u) : Explained R s u := by
  refine ⟨fun path hp => h'.kept path (h.kept path hp), fun path hp => ?_, fun path hne => ?_⟩
  · rcases h'.told path hp with hp | hpage
    · exact h.told path hp
    · exact Or.inr hpage
  · by_cases hsame : t.tree.lookup path = s.tree.lookup path
    · exact h'.changed path (hsame ▸ hne)
    · obtain ⟨hp, hpage⟩ := h.changed path hsame
      exact ⟨h'.kept path hp, hpage⟩

theorem Explained.skip (s : Stage) (told : List Text) : Explained R s (s.skip told) :=
  ⟨fun _ h => h, fun _ h => Or.inl h, fun _ h => absurd rfl h⟩

theorem Explained.write {s : Stage} {tree : Worktree} {path : Text} (hpage : IsPage R path)
    (htree : OnlyAt s.tree tree path) (reason : Text) : Explained R s (s.write tree path reason) := by
  refine ⟨fun p hp => (AList.mem_insert _).mpr (Or.inr hp), fun p hp => ?_, fun p hne => ?_⟩
  · rcases (AList.mem_insert _).mp hp with rfl | hp
    · exact Or.inr hpage
    · exact Or.inl hp
  · have heq : p = path := by
      by_contra hp
      exact hne (htree p hp)
    subst heq
    exact ⟨(AList.mem_insert _).mpr (Or.inl rfl), hpage⟩

variable (R) in
/-- what a part of a plan leaves, and the pages it may find lossy updates of -/
structure Spec {α : Type} (lossy : Text → Prop) (s : Stage) (x : Result α) : Prop where
  within : Within R s x.1
  explained : ∀ a, x.2 = .ok a → Explained R s x.1
  lossy : ∀ path lost, x.2 = .error (.notPreserved path lost) → lossy path

theorem Spec.ok {α : Type} {lossy : Text → Prop} {s u : Stage} (h : Explained R s u) (a : α) :
    Spec R lossy s (u, .ok a) := by
  refine ⟨h.within, fun _ _ => h, fun path lost he => ?_⟩
  cases he

theorem Spec.refuse {α : Type} {lossy : Text → Prop} {s u : Stage} (h : Within R s u) (message : Text) :
    Spec R lossy s (refuse u message : Result α) := by
  refine ⟨h, fun a ha => ?_, fun path lost he => ?_⟩
  · cases ha
  · cases he

theorem Spec.andThen {α β : Type} {lossy : Text → Prop} {s : Stage} {x : Result α} {f : α → Stage → Result β}
    (h : Spec R lossy s x) (hf : ∀ a, Spec R lossy x.1 (f a x.1)) : Spec R lossy s (x.andThen f) := by
  unfold Result.andThen
  cases hx : x.2 with
  | error e =>
    refine ⟨h.within, fun _ ha => ?_, fun path lost he => h.lossy path lost ?_⟩
    · cases ha
    · rw [hx, Except.error.inj he]
  | ok a =>
    have hfirst := h.explained a hx
    exact ⟨h.within.trans (hf a).within, fun b hb => hfirst.trans ((hf a).explained b hb), (hf a).lossy⟩

theorem Spec.mono {α : Type} {lossy lossy' : Text → Prop} {s : Stage} {x : Result α} (h : Spec R lossy s x)
    (himp : ∀ path, lossy path → lossy' path) : Spec R lossy' s x :=
  ⟨h.within, h.explained, fun path lost he => himp path (h.lossy path lost he)⟩

/-- from a stage that is explained -/
theorem Spec.after {α : Type} {lossy : Text → Prop} {s t : Stage} {x : Result α} (h : Explained R s t)
    (hx : Spec R lossy t x) : Spec R lossy s x :=
  ⟨h.within.trans hx.within, fun a ha => h.trans (hx.explained a ha), hx.lossy⟩

/-! ## mutations -/

theorem created_at {t tree : Worktree} {m : PageMutation} {path : Text}
    (h : createPage R C J ids t m = .ok (tree, path)) : IsPage R path ∧ OnlyAt t tree path := by
  unfold createPage at h
  split at h
  · cases h
  · next target htarget =>
    split at h
    · cases h
    · cases h
    · cases h
    · obtain ⟨text, -, hwritten⟩ := Checks.bind_eq_ok.mp h
      obtain ⟨u, hu, heq⟩ := Checks.map_eq_ok hwritten
      obtain ⟨rfl, rfl⟩ := Prod.mk.inj heq
      have hpage : IsPage R target := by
        unfold creationPath at htarget
        split at htarget
        · cases htarget
        · next role _ => exact ⟨role, _, htarget⟩
      refine ⟨hpage, ?_⟩
      unfold writeNew at hu
      rw [pathOf_page hpage] at hu
      change (if _ then _ else _) = _ at hu
      split at hu
      · cases hu
      · obtain rfl := Except.ok.inj hu
        exact OnlyAt.insert t target text

theorem deleted_at {t tree : Worktree} {path : Text} (h : deletePage R C J t path = .ok tree) :
    IsPage R path ∧ OnlyAt t tree path := by
  unfold deletePage at h
  split at h
  · cases h
  · next target htarget =>
    split at h
    · cases h
    · split at h
      · cases h
      · next page hparse =>
        have hpage := (isPage_of_parsePage hparse).1
        split at h
        · cases h
        · cases h
        · cases h
        · obtain rfl := Except.ok.inj h
          obtain rfl := Except.ok.inj ((pathOf_page hpage).symm.trans htarget)
          exact ⟨hpage, OnlyAt.erase t path⟩

/-- an update that gets as far as the lines it would drop has a page of its own path before it -/
theorem isPage_of_draft {stored : Option Text} {m : PageMutation} {page : KnowledgePage} {body : Text}
    (h : Additive.draft R C J.context stored m = .ok (page, body)) : IsPage R (m.path.getD []) := by
  unfold Additive.draft at h
  split at h
  · cases h
  · split at h
    · cases h
    · next hparse => exact (isPage_of_parsePage hparse).1

theorem updated_at {t tree : Worktree} {m : PageMutation} (h : updatePage R C J t m = .ok tree) :
    IsPage R (m.path.getD []) ∧ OnlyAt t tree (m.path.getD []) := by
  unfold updatePage at h
  split at h
  · cases h
  · next target htarget =>
    split at h
    · cases h
    · cases h
    · next new text happly =>
      obtain rfl := Except.ok.inj h
      obtain ⟨page, body, hdraft, -⟩ := Additive.applyUpdate_ok happly
      have hpage := isPage_of_draft hdraft
      obtain rfl := Except.ok.inj ((pathOf_page hpage).symm.trans htarget)
      exact ⟨hpage, OnlyAt.insert t _ text⟩

/-- an update that would drop lines names its page -/
theorem updatePage_lossy {t : Worktree} {m : PageMutation} {path : Text} {lost : List Text}
    (h : updatePage R C J t m = .error (.notPreserved path lost)) : m.path = some path := by
  unfold updatePage at h
  split at h
  · cases h
  · split at h
    · cases h
    · next happly =>
      cases h
      unfold Additive.applyUpdate at happly
      split at happly
      · cases happly
      · next hdraft =>
        split at happly
        · cases happly
          have hpage := isPage_of_draft hdraft
          cases hpath : m.path with
          | some path => rfl
          | none =>
            rw [hpath] at hpage
            obtain ⟨zone, name, heq, -⟩ := hpage.parts
            exact absurd heq (by simp)
        · split at happly
          · cases happly
          · split at happly
            · cases happly
            · cases happly
    · cases h

theorem applied_at {t tree : Worktree} {m : PageMutation} {path : Text}
    (h : applyPageMutation R C J ids t m = .ok (tree, path)) : IsPage R path ∧ OnlyAt t tree path := by
  unfold applyPageMutation at h
  split at h
  · split at h
    · cases h
    · next result hresult =>
      obtain rfl := Except.ok.inj h
      exact created_at hresult
  · obtain ⟨u, hu, heq⟩ := Checks.map_eq_ok h
    obtain ⟨rfl, rfl⟩ := Prod.mk.inj heq
    exact updated_at hu
  · obtain ⟨u, hu, heq⟩ := Checks.map_eq_ok h
    obtain ⟨rfl, rfl⟩ := Prod.mk.inj heq
    exact deleted_at hu

theorem deletePage_lossy {t : Worktree} {target path : Text} {lost : List Text} :
    deletePage R C J t target ≠ .error (.notPreserved path lost) := by
  intro h
  unfold deletePage at h
  split at h
  · cases h
  · split at h
    · cases h
    · split at h
      · cases h
      · split at h <;> cases h

/-- only an update would drop lines -/
theorem applied_lossy {t : Worktree} {m : PageMutation} {path : Text} {lost : List Text}
    (h : applyPageMutation R C J ids t m = .error (.notPreserved path lost)) :
    m.action = .update ∧ m.path = some path := by
  unfold applyPageMutation at h
  split at h
  · split at h
    · cases h
    · cases h
  · next haction =>
    refine ⟨haction, ?_⟩
    cases hupdate : updatePage R C J t m with
    | ok u =>
      rw [hupdate] at h
      cases h
    | error e =>
      rw [hupdate] at h
      cases h
      exact updatePage_lossy hupdate
  · cases hdelete : deletePage R C J t (m.path.getD []) with
    | ok u =>
      rw [hdelete] at h
      cases h
    | error e =>
      rw [hdelete] at h
      cases h
      exact absurd hdelete deletePage_lossy

/-- an update of the page -/
def Updates (m : PageMutation) (path : Text) : Prop := m.action = .update ∧ m.path = some path

theorem linked_same {stems : Stems} {m m' : PageMutation} {told : List Text} (h : linked R stems m = .ok (m', told)) :
    m'.action = m.action ∧ m'.path = m.path ∧ m'.reason = m.reason := by
  unfold linked at h
  split at h
  · obtain ⟨rfl, -⟩ := Prod.mk.inj (Except.ok.inj h)
    exact ⟨rfl, rfl, rfl⟩
  · obtain ⟨target, -, heq⟩ := Checks.map_eq_ok h
    obtain ⟨rfl, -⟩ := Prod.mk.inj heq
    exact ⟨rfl, rfl, rfl⟩

theorem mutationRound_spec (stems : Stems) (index : ℕ) (m : PageMutation) (s : Stage) :
    Spec R (Updates m) s (mutationRound R C J ids stems index m s) := by
  unfold mutationRound
  split
  · exact Spec.ok (Explained.skip s _) _
  · split
    · exact Spec.refuse (Within.refl s) _
    · next linkedMutation told hlinked =>
      obtain ⟨haction, hpath, -⟩ := linked_same hlinked
      split
      · next failure hfailure =>
        refine ⟨(Explained.skip s told).within, fun a ha => ?_, fun path lost he => ?_⟩
        · cases ha
        · cases failure with
          | contradictionContract message => cases he
          | other message => cases he
          | notPreserved path' lost' =>
            obtain ⟨rfl, rfl⟩ := UpdateError.notPreserved.inj (Except.error.inj he)
            obtain ⟨hupdate, hown⟩ := applied_lossy hfailure
            exact ⟨haction.symm.trans hupdate, hpath.symm.trans hown⟩
      · next tree path happlied =>
        obtain ⟨hpage, htree⟩ := applied_at happlied
        exact Spec.ok ((Explained.skip s told).trans (Explained.write (s := s.skip told) hpage htree _)) _

theorem applyMutations_spec (stems : Stems) (ms : List PageMutation) (index : ℕ) (updated : List Text) (s : Stage) :
    Spec R (fun path => ∃ m ∈ ms, Updates m path) s (applyMutations R C J ids stems index ms updated s) := by
  induction ms generalizing index updated s with
  | nil => exact Spec.ok (Explained.refl s) updated
  | cons m ms ih =>
    unfold applyMutations
    refine Spec.andThen ((mutationRound_spec stems index m s).mono fun path h => ?_) fun path => ?_
    · exact ⟨m, List.mem_cons_self, h⟩
    · refine (ih (index + 1) (updated ++ path) _).mono fun path h => ?_
      obtain ⟨m', hm', hupdates⟩ := h
      exact ⟨m', List.mem_cons_of_mem m hm', hupdates⟩

/-! ## contradictions -/

variable {lossy : Text → Prop}

theorem contradictionRound_spec (index : ℕ) (p : ContradictionProposal) (s : Stage) :
    Spec R lossy s (contradictionRound R C J ids index p s) := by
  unfold contradictionRound
  split
  · exact Spec.ok (Explained.skip s _) _
  · split
    · exact Spec.refuse (Within.refl s) _
    · next target htarget =>
      split
      · exact Spec.refuse (Within.refl s) _
      · next original horiginal =>
        split
        · exact Spec.refuse (Within.refl s) _
        · next page hparse =>
          have hpage := (isPage_of_parsePage hparse).1
          obtain rfl := Except.ok.inj ((pathOf_page hpage).symm.trans htarget)
          split
          · exact Spec.refuse (Within.refl s) _
          · split
            · exact Spec.refuse (Within.refl s) _
            · next candidate hcandidate =>
              dsimp only
              split
              · exact Spec.ok (Explained.write hpage (OnlyAt.insert s.tree _ candidate) _) _
              · refine Spec.refuse (fun path hne => ?_) _
                by_contra hnot
                have hother : path ≠ p.pagePath := fun heq => hnot (heq ▸ hpage)
                exact hne ((AList.lookup_insert_ne hother).trans (AList.lookup_insert_ne hother))

theorem applyContradictions_spec (ps : List ContradictionProposal) (index : ℕ) (s : Stage) :
    Spec R lossy s (applyContradictions R C J ids index ps s) := by
  induction ps generalizing index s with
  | nil => exact Spec.ok (Explained.refl s) ()
  | cons p ps ih => exact Spec.andThen (contradictionRound_spec index p s) fun _ => ih (index + 1) _

theorem holders_pages {id : Text} {files : List (Text × Text)} {found : List (KnowledgePage × Text)}
    (h : holders R C J id files = .ok found) : ∀ e ∈ found, IsPage R e.1.path := by
  induction files generalizing found with
  | nil =>
    obtain rfl := Except.ok.inj h
    exact fun e he => absurd he List.not_mem_nil
  | cons f files ih =>
    obtain ⟨path, file⟩ := f
    unfold holders at h
    split at h
    · cases h
    · next page hparse =>
      obtain ⟨hpage, hown⟩ := isPage_of_parsePage hparse
      split at h
      · exact ih h
      · split at h
        · cases h
        · obtain ⟨rest, hrest, rfl⟩ := Checks.map_eq_ok h
          split
          · intro e he
            rcases List.mem_cons.mp he with rfl | he
            · exact hown ▸ hpage
            · exact ih hrest e he
          · exact ih hrest

/-- the pages that are written are the ones found, whether or not all are -/
theorem writeHolders_within {found : List (KnowledgePage × Text)} {path : Text} {t : Worktree}
    (h : (writeHolders R J found t).1.lookup path ≠ t.lookup path) : ∃ e ∈ found, e.1.path = path := by
  induction found generalizing t with
  | nil => exact absurd rfl h
  | cons e found ih =>
    obtain ⟨page, body⟩ := e
    unfold writeHolders at h
    split at h
    · exact absurd rfl h
    · next text htext =>
      by_cases hown : path = page.path
      · exact ⟨(page, body), List.mem_cons_self, hown.symm⟩
      · have hinsert : (t.insert page.path text).lookup path = t.lookup path := AList.lookup_insert_ne hown
        rw [← hinsert] at h
        obtain ⟨e, he, hpath⟩ := ih h
        exact ⟨e, List.mem_cons_of_mem _ he, hpath⟩

theorem mem_resolvedReasons {found : List (KnowledgePage × Text)} {reasons : AList fun _ : Text => Text} {path : Text} :
    path ∈ found.foldl (fun reasons e => reasons.insert e.1.path (resolvedReason J)) reasons ↔
      path ∈ reasons ∨ ∃ e ∈ found, e.1.path = path := by
  induction found generalizing reasons with
  | nil => simp
  | cons e found ih =>
    rw [List.foldl_cons, ih, AList.mem_insert, List.exists_mem_cons_iff]
    constructor
    · rintro ((rfl | h) | h)
      · exact Or.inr (Or.inl rfl)
      · exact Or.inl h
      · exact Or.inr (Or.inr h)
    · rintro (h | rfl | h)
      · exact Or.inl (Or.inr h)
      · exact Or.inl (Or.inl rfl)
      · exact Or.inr h

theorem removeContradiction_spec (updated : List Text) (s : Stage) :
    Spec R lossy s (removeContradiction R C J updated s) := by
  unfold removeContradiction
  split
  · exact Spec.refuse (Within.refl s) _
  · next found hfound =>
    have hpages := holders_pages hfound
    split
    · exact Spec.refuse (Within.refl s) _
    · have hwritten : ∀ path, (writeHolders R J found s.tree).1.lookup path ≠ s.tree.lookup path →
          ∃ e ∈ found, e.1.path = path := fun path hne => writeHolders_within hne
      split
      · next tree e hwrite =>
        rw [hwrite] at hwritten
        refine Spec.refuse (fun path hne => ?_) _
        obtain ⟨e, he, rfl⟩ := hwritten path hne
        exact hpages e he
      · next tree hwrite =>
        rw [hwrite] at hwritten
        refine Spec.ok ⟨fun path hp => mem_resolvedReasons.mpr (Or.inl hp), fun path hp => ?_, fun path hne => ?_⟩ ()
        · rcases mem_resolvedReasons.mp hp with hp | ⟨e, he, rfl⟩
          · exact Or.inl hp
          · exact Or.inr (hpages e he)
        · obtain ⟨e, he, rfl⟩ := hwritten path hne
          exact ⟨mem_resolvedReasons.mpr (Or.inr ⟨e, he, rfl⟩), hpages e he⟩

theorem resolve_spec (resolved updated : List Text) (s : Stage) :
    Spec R lossy s (resolve R C J resolved updated s) := by
  unfold resolve
  split
  · exact Spec.ok (Explained.refl s) ()
  · split
    · exact Spec.refuse (Within.refl s) _
    · exact removeContradiction_spec updated s

/-! ## a plan -/

/-- the updates of a plan are what it has of them -/
theorem mem_claimRound {s : Names.Claims} {m m' : PageMutation} (h : m' ∈ (Names.claimRound R s m).kept)
    (hupdate : m'.action = .update) : m' ∈ s.kept ∨ m' = m := by
  unfold Names.claimRound at h
  split at h
  · next folder filename haction hpath =>
    dsimp only at h
    split at h
    · exact Or.inl h
    · split at h
      · exact Or.inl h
      · rcases List.mem_append.mp h with hkept | hlast
        · exact Or.inl hkept
        · have hcreate : m'.action = .create := by
            rw [List.mem_singleton.mp hlast]
            split
            · exact haction
            · exact haction
          rw [hcreate] at hupdate
          cases hupdate
  · rcases List.mem_append.mp h with hkept | hlast
    · exact Or.inl hkept
    · exact Or.inr (List.mem_singleton.mp hlast)

theorem mem_skipClaimedNames {t : Worktree} {ms : List PageMutation} {claims : Names.Claims}
    (h : Names.skipClaimedNames R t ms = .ok claims) {m : PageMutation} (hm : m ∈ claims.kept)
    (hupdate : m.action = .update) : m ∈ ms := by
  obtain ⟨pages, -, rfl⟩ := Checks.map_eq_ok h
  have hrounds : ∀ (ms : List PageMutation) (s : Names.Claims), m ∈ (ms.foldl (Names.claimRound R) s).kept →
      m ∈ s.kept ∨ m ∈ ms := by
    intro ms
    induction ms with
    | nil => exact fun s hs => Or.inl hs
    | cons m' ms ih =>
      intro s hs
      rcases ih _ hs with hround | hrest
      · rcases mem_claimRound hround hupdate with hkept | rfl
        · exact Or.inl hkept
        · exact Or.inr List.mem_cons_self
      · exact Or.inr (List.mem_cons_of_mem m' hrest)
  exact (hrounds ms _ hm).resolve_left List.not_mem_nil

theorem applyFilingPlan_spec (plan : FilingPlan) (s : Stage) :
    Spec R (fun path => ∃ m ∈ plan.mutations, Updates m path) s (applyFilingPlan R C J ids plan s) := by
  unfold applyFilingPlan
  split
  · exact Spec.refuse (Within.refl s) _
  · split
    · exact Spec.refuse (Within.refl s) _
    · split
      · exact Spec.refuse (Within.refl s) _
      · next claims hclaims =>
        have hskip := Explained.skip (R := R) s claims.skipped
        split
        · exact Spec.refuse hskip.within _
        · next pages hpages =>
          refine Spec.after hskip (Spec.andThen ?_ fun updated => Spec.andThen ?_ fun _ => ?_)
          · refine (applyMutations_spec _ claims.kept 0 [] _).mono fun path hlossy => ?_
            obtain ⟨m, hm, hupdates⟩ := hlossy
            exact ⟨m, mem_skipClaimedNames hclaims hm hupdates.1, hupdates⟩
          · exact applyContradictions_spec _ 0 _
          · exact resolve_spec _ updated _

end

/-! ## the plan of a capture, to its end -/

section
variable (R : Runtime) (C : Contradictions.Codec) (J : Job) (ids : ℕ → Ids)

theorem length_without (plan : FilingPlan) (dropped : List Text) {path : Text} {m : PageMutation}
    (hm : m ∈ plan.mutations) (hupdates : Updates m path) (hpath : path ∈ dropped) :
    (without plan dropped).mutations.length < plan.mutations.length := by
  refine List.length_filter_lt_length_iff_exists.mpr ⟨m, hm, ?_⟩
  have hdropped : (m.path.any fun p => List.elem p dropped) = true := by
    rw [hupdates.2]
    exact List.elem_eq_true_of_mem hpath
  rw [hdropped, decide_eq_true hupdates.1]
  decide

/-- the loop that drops the updates that would drop cited lines, from the files as the last attempt left them: the
last application, and its plan -/
def dropLossy (saved : List (Text × Text)) (t : Worktree) (n : ℕ) (plan : FilingPlan) (dropped : List Text)
    (path : Text) : Result Unit × FilingPlan :=
  let dropped := dropped ++ [path]
  let plan := without plan dropped
  match h : applyFilingPlan R C J (ids n) plan
      (fresh J (Snapshot.restore isMutable t saved) (dropped.map wouldDrop)) with
  | (s, .error (.notPreserved path _)) => dropLossy saved s.tree (n + 1) plan dropped path
  | result => (result, plan)
termination_by (without plan (dropped ++ [path])).mutations.length
decreasing_by
  obtain ⟨m, hm, hupdates⟩ := (applyFilingPlan_spec _ _).lossy path _ (congrArg Prod.snd h)
  exact length_without _ _ hm hupdates (List.mem_append_right _ List.mem_cons_self)

variable (tolerated : List Violation)

def correctionFailed : Text := "filing correction failed".toList

/-- the correction, after an attempt that left the files `t` -/
def correct (saved : List (Text × Text)) (t : Worktree) (rejection : Text) (answer : Answer) : Attempt :=
  let start := fresh J (Snapshot.restore isMutable t saved) []
  match answer with
  | .wrongType => ⟨start, true, correctionFailed⟩
  | .plan plan =>
    match applyFilingPlan R C J (ids 1) plan start with
    | (s, .error (.refused _)) => ⟨s, true, correctionFailed⟩
    | (s, .error (.notPreserved path _)) =>
      match dropLossy R C J ids saved s.tree 2 plan [] path with
      | ((s, .error _), _) => ⟨s, true, correctionFailed⟩
      | ((s, .ok ()), plan) =>
        if introduced R C tolerated s ≠ [] ∨ plan.mutations = [] then
          ⟨s, true, "existing-source-block-not-preserved".toList⟩
        else ⟨s, false, rejection⟩
    | (s, .ok ()) =>
      if introduced R C tolerated s ≠ [] then
        ⟨s, true, "knowledge gates found ".toList ++
          ", ".toList.intercalate (sortedSet ((introduced R C tolerated s).map Violation.code))⟩
      else ⟨s, false, rejection⟩

inductive Outcome where
  /-- what is to be stored, and whether the plan was rejected with the text that is told -/
  | filed (s : Stage) (rejected : Bool) (rejection : Text)
  /-- `GateRefused` or `CorpusUnavailable` -/
  | refused (message : Text)
  /-- what the planner raised -/
  | raised

/-- `_violation_summary` -/
def violationSummary (violations : List Violation) : Text :=
  "knowledge gates found ".toList ++
    "; ".toList.intercalate ((violations.take 8).map fun v => v.path ++ ": ".toList ++ v.code) ++
    (if 8 < violations.length then "; ".toList ++ decimal (violations.length - 8) ++ " more".toList else [])

/-- the end of the stage: a plan that is given up is undone -/
def settle (saved : List (Text × Text)) (a : Attempt) : Outcome :=
  if a.invalid then
    let s := fresh J (Snapshot.restore isMutable a.stage.tree saved) a.stage.skipped
    let fallback := (found R C s.tree []).filter fun v => v ∉ tolerated
    if fallback ≠ [] then .refused (violationSummary fallback) else .filed s true a.rejection
  else .filed a.stage false a.rejection

def CROSS_LAYER_CODES : List Text := ["alias-collision".toList, "ambiguous-link".toList]

/-- `_view_baseline`: the violations a view may carry, and those that block a write -/
def viewBaseline (isPublic : Bool) (t : Worktree) : List Violation × List Violation :=
  (found R C t []).partition fun v => !isPublic && v.code ∈ CROSS_LAYER_CODES

/-- the part of `_capture` from the plan to its end -/
def planned (planner : Planner) (isPublic : Bool) (maxTurns : ℕ) (t : Worktree) : Outcome :=
  let baseline := viewBaseline R C isPublic t
  if baseline.2 ≠ [] then .refused (violationSummary baseline.2)
  else
    let tolerated := baseline.1
    let saved := Snapshot.snapshot isMutable t
    let first := firstAttempt R C J (ids 0) planner.first (fresh J t [])
    if first.invalid = true ∨ introduced R C tolerated first.stage ≠ [] then
      if maxTurns ≤ planner.requests then
        settle R C J tolerated saved ⟨first.stage, true, "filing correction budget exhausted".toList⟩
      else
        match planner.correction with
        | none => .raised
        | some answer =>
          settle R C J tolerated saved (correct R C J ids tolerated saved first.stage.tree first.rejection answer)
    else settle R C J tolerated saved first

end

section
variable {R : Runtime} {C : Contradictions.Codec} {J : Job} {ids : ℕ → Ids} {tolerated : List Violation}

/-! ## what a capture's plan leaves -/

/-- the files are the same -/
def SameFiles (t u : Worktree) : Prop := ∀ path, u.lookup path = t.lookup path

theorem Within.sameOff {s u : Stage} (h : Within R s u) : Snapshot.SameOff isMutable s.tree u.tree := fun path hp => by
  by_contra hne
  rw [isMutable_page (h path hne)] at hp
  cases hp

/-- whatever was done to pages is undone -/
theorem sameFiles_restore {t u : Worktree} (h : Snapshot.SameOff isMutable t u) :
    SameFiles t (Snapshot.restore isMutable u (Snapshot.snapshot isMutable t)) :=
  fun path => Snapshot.restore_snapshot h path

/-- an application to files that are those of `t` touches only what is saved -/
theorem sameOff_applied {t : Worktree} {s u : Stage} {n : ℕ} {plan : FilingPlan} {r : Except UpdateError Unit}
    (h : SameFiles t s.tree) (happly : applyFilingPlan R C J (ids n) plan s = (u, r)) :
    Snapshot.SameOff isMutable t u.tree := by
  have hspec : Spec R _ s (applyFilingPlan R C J (ids n) plan s) := applyFilingPlan_spec plan s
  rw [happly] at hspec
  exact Snapshot.SameOff.trans (fun path _ => h path) hspec.within.sameOff

variable (R C J ids) in
/-- the stage is what one plan leaves that is applied to the files `t`, with no other reasons before it -/
def Applied (t : Worktree) (plan : FilingPlan) (s : Stage) : Prop :=
  ∃ n start skipped, SameFiles t start ∧ applyFilingPlan R C J (ids n) plan (fresh J start skipped) = (s, .ok ())

theorem without_without (plan : FilingPlan) {dropped more : List Text} (h : ∀ path ∈ dropped, path ∈ more) :
    without (without plan dropped) more = without plan more := by
  unfold without
  congr 1
  rw [List.filter_filter]
  refine List.filter_congr fun m _ => ?_
  cases hpath : m.path with
  | none => simp
  | some path =>
    by_cases hmem : path ∈ dropped
    · simp [hmem, h path hmem]
    · simp [hmem]

/-- the loop over lossy updates ends in one application of the plan without some of its updates -/
theorem dropLossy_spec {t₀ : Worktree} (t : Worktree) (n : ℕ) (plan : FilingPlan) (dropped : List Text) (path : Text)
    (h : Snapshot.SameOff isMutable t₀ t) :
    let out := dropLossy R C J ids (Snapshot.snapshot isMutable t₀) t n plan dropped path
    Snapshot.SameOff isMutable t₀ out.1.1.tree ∧ (out.1.2 = .ok () → Applied R C J ids t₀ out.2 out.1.1) ∧
      ∃ more, (∀ p ∈ dropped, p ∈ more) ∧ out.2 = without plan more := by
  induction t, n, plan, dropped, path using dropLossy.induct R C J ids (Snapshot.snapshot isMutable t₀) with
  | case1 t n plan dropped path dropped' plan' s path' lost happly ih =>
    obtain ⟨hoff, hdone, more, hmore, hplan⟩ := ih (sameOff_applied (sameFiles_restore h) happly)
    rw [dropLossy]
    split
    · next s' path'' lost' happly' =>
      obtain ⟨rfl, heq⟩ := Prod.mk.inj (happly.symm.trans happly')
      obtain ⟨rfl, -⟩ := UpdateError.notPreserved.inj (Except.error.inj heq)
      refine ⟨hoff, hdone, more, fun p hp => hmore p (List.mem_append_left _ hp), ?_⟩
      rw [hplan]
      exact without_without plan hmore
    · next hnot => exact absurd happly (hnot s path' lost)
  | case2 t n plan dropped path dropped' plan' hnot =>
    rw [dropLossy]
    split
    · next s path' lost happly => exact absurd happly (hnot s path' lost)
    · refine ⟨sameOff_applied (sameFiles_restore h) rfl, fun hok => ?_, dropped', fun p hp => ?_, rfl⟩
      · refine ⟨n, _, _, sameFiles_restore h, Prod.ext rfl hok⟩
      · exact List.mem_append_left _ hp

/-- the plans a planner's answers stand for: the first, the correction, and what is left of it without lossy updates -/
def Proposed (planner : Planner) (plan : FilingPlan) : Prop :=
  planner.first = .plan plan ∨ ∃ p, planner.correction = some (.plan p) ∧
    (plan = p ∨ plan.mutations ≠ [] ∧ ∃ dropped, plan = without p dropped)

variable (R C J ids) in
/-- an attempt at the files `t`: only pages differ, and what is not given up is one plan applied -/
structure Attempted (planner : Planner) (t : Worktree) (a : Attempt) : Prop where
  sameOff : Snapshot.SameOff isMutable t a.stage.tree
  applied : a.invalid = false → ∃ plan, Proposed planner plan ∧ Applied R C J ids t plan a.stage

theorem firstAttempt_attempted (planner : Planner) (t : Worktree) :
    Attempted R C J ids planner t (firstAttempt R C J (ids 0) planner.first (fresh J t [])) := by
  unfold firstAttempt
  split
  · refine ⟨Snapshot.SameOff.refl t, fun h => ?_⟩
    cases h
  · next plan hplan =>
    split
    · next s e happly =>
      refine ⟨sameOff_applied (fun _ => rfl) happly, fun h => ?_⟩
      cases h
    · next s happly =>
      have hoff : Snapshot.SameOff isMutable t s.tree := sameOff_applied (t := t) (fun _ => rfl) happly
      split
      · refine ⟨hoff, fun h => ?_⟩
        cases h
      · exact ⟨hoff, fun _ => ⟨plan, Or.inl hplan, 0, t, [], fun _ => rfl, happly⟩⟩

/-- an attempt that is given up -/
theorem Attempted.givenUp {planner : Planner} {t : Worktree} {s : Stage} (h : Snapshot.SameOff isMutable t s.tree)
    (rejection : Text) : Attempted R C J ids planner t ⟨s, true, rejection⟩ := by
  refine ⟨h, fun hvalid => ?_⟩
  cases hvalid

variable (tolerated) in
theorem correct_attempted {planner : Planner} {t₀ t : Worktree} {answer : Answer}
    (hanswer : planner.correction = some answer) (rejection : Text) (h : Snapshot.SameOff isMutable t₀ t) :
    Attempted R C J ids planner t₀
        (correct R C J ids tolerated (Snapshot.snapshot isMutable t₀) t rejection answer) ∧
      ((correct R C J ids tolerated (Snapshot.snapshot isMutable t₀) t rejection answer).invalid = false →
        introduced R C tolerated
          (correct R C J ids tolerated (Snapshot.snapshot isMutable t₀) t rejection answer).stage = []) := by
  have hback := sameFiles_restore h
  have hup : ∀ {s : Stage} {text : Text}, Snapshot.SameOff isMutable t₀ s.tree →
      Attempted R C J ids planner t₀ ⟨s, true, text⟩ ∧ (true = false → introduced R C tolerated s = []) :=
    fun hoff => ⟨Attempted.givenUp hoff _, fun hvalid => absurd hvalid (by decide)⟩
  unfold correct
  dsimp only
  split
  · exact hup fun path _ => hback path
  · next plan =>
    split
    · next s e happly => exact hup (sameOff_applied hback happly)
    · next s path lost happly =>
      obtain ⟨hoff, hdone, more, -, hplan⟩ := dropLossy_spec (R := R) (C := C) (J := J) s.tree 2 plan [] path
        (sameOff_applied hback happly)
      split
      · next s' e plan' hdrop =>
        rw [hdrop] at hoff
        exact hup hoff
      · next s' plan' hdrop =>
        rw [hdrop] at hoff hdone hplan
        split
        · exact hup hoff
        · next hgood =>
          rw [not_or, not_not] at hgood
          exact ⟨⟨hoff, fun _ => ⟨plan', Or.inr ⟨plan, hanswer, Or.inr ⟨hgood.2, more, hplan⟩⟩, hdone rfl⟩⟩,
            fun _ => hgood.1⟩
    · next s happly =>
      have hoff := sameOff_applied hback happly
      split
      · exact hup hoff
      · next hgood =>
        exact ⟨⟨hoff, fun _ => ⟨plan, Or.inr ⟨plan, hanswer, Or.inl rfl⟩, 1, _, [], hback, happly⟩⟩,
          fun _ => not_not.mp hgood⟩

variable (R C J ids) in
/-- a rejected plan leaves the files and no reason but the source's; what is filed is one proposed plan applied to the
files as they were, and nothing is wrong with it that was not tolerated before -/
def Whole (planner : Planner) (isPublic : Bool) (t : Worktree) : Outcome → Prop
  | .filed s true _ => SameFiles t s.tree ∧ s.reasons = sourceReasons J
  | .filed s false _ => ∃ plan, Proposed planner plan ∧ Applied R C J ids t plan s ∧
      introduced R C (viewBaseline R C isPublic t).1 s = []
  | .refused _ => True
  | .raised => True

variable (R C J tolerated) in
theorem settle_cases (saved : List (Text × Text)) (a : Attempt) :
    (∃ message, settle R C J tolerated saved a = .refused message) ∨
      a.invalid = true ∧ settle R C J tolerated saved a =
        .filed (fresh J (Snapshot.restore isMutable a.stage.tree saved) a.stage.skipped) true a.rejection ∨
      a.invalid = false ∧ settle R C J tolerated saved a = .filed a.stage false a.rejection := by
  unfold settle
  by_cases hinvalid : a.invalid = true
  · rw [if_pos hinvalid]
    dsimp only
    generalize (found R C _ []).filter _ = fallback
    by_cases hfallback : fallback = []
    · rw [if_neg (not_not.mpr hfallback)]
      exact Or.inr (Or.inl ⟨hinvalid, rfl⟩)
    · rw [if_pos hfallback]
      exact Or.inl ⟨_, rfl⟩
  · rw [if_neg hinvalid]
    exact Or.inr (Or.inr ⟨Bool.eq_false_iff.mpr hinvalid, rfl⟩)

theorem settle_whole {planner : Planner} {isPublic : Bool} {t : Worktree} {a : Attempt}
    (h : Attempted R C J ids planner t a)
    (hgood : a.invalid = false → introduced R C (viewBaseline R C isPublic t).1 a.stage = []) :
    Whole R C J ids planner isPublic t
      (settle R C J (viewBaseline R C isPublic t).1 (Snapshot.snapshot isMutable t) a) := by
  have hcases := settle_cases R C J (viewBaseline R C isPublic t).1 (Snapshot.snapshot isMutable t) a
  generalize settle R C J (viewBaseline R C isPublic t).1 (Snapshot.snapshot isMutable t) a = out at hcases ⊢
  rcases hcases with ⟨message, rfl⟩ | ⟨-, rfl⟩ | ⟨hvalid, rfl⟩
  · exact True.intro
  · exact And.intro (sameFiles_restore h.sameOff) rfl
  · obtain ⟨plan, hproposed, happlied⟩ := h.applied hvalid
    exact ⟨plan, hproposed, happlied, hgood hvalid⟩

variable (R C J ids) in
theorem planned_cases (planner : Planner) (isPublic : Bool) (maxTurns : ℕ) (t : Worktree) :
    (∃ message, planned R C J ids planner isPublic maxTurns t = .refused message) ∨
      planned R C J ids planner isPublic maxTurns t = .raised ∨
      ∃ a, Attempted R C J ids planner t a ∧
        (a.invalid = false → introduced R C (viewBaseline R C isPublic t).1 a.stage = []) ∧
        planned R C J ids planner isPublic maxTurns t =
          settle R C J (viewBaseline R C isPublic t).1 (Snapshot.snapshot isMutable t) a := by
  have hfirst : Attempted R C J ids planner t (firstAttempt R C J (ids 0) planner.first (fresh J t [])) :=
    firstAttempt_attempted planner t
  unfold planned
  generalize firstAttempt R C J (ids 0) planner.first (fresh J t []) = first at hfirst ⊢
  generalize viewBaseline R C isPublic t = baseline
  dsimp only
  by_cases hblocked : baseline.2 = []
  · rw [if_neg (not_not.mpr hblocked)]
    by_cases hagain : first.invalid = true ∨ introduced R C baseline.1 first.stage ≠ []
    · rw [if_pos hagain]
      by_cases hturns : maxTurns ≤ planner.requests
      · rw [if_pos hturns]
        refine Or.inr (Or.inr ⟨_, Attempted.givenUp hfirst.sameOff _, fun hvalid => ?_, rfl⟩)
        cases hvalid
      · rw [if_neg hturns]
        cases hanswer : planner.correction with
        | none => exact Or.inr (Or.inl rfl)
        | some answer =>
          obtain ⟨hattempt, hgood⟩ := correct_attempted baseline.1 hanswer first.rejection hfirst.sameOff
          exact Or.inr (Or.inr ⟨_, hattempt, hgood, rfl⟩)
    · rw [if_neg hagain]
      rw [not_or, not_not] at hagain
      exact Or.inr (Or.inr ⟨first, hfirst, fun _ => hagain.2, rfl⟩)
  · rw [if_pos hblocked]
    exact Or.inl ⟨_, rfl⟩

variable (R C J ids) in
/-- a filing plan is applied as a whole or not at all, whatever the planner answers -/
theorem whole (planner : Planner) (isPublic : Bool) (maxTurns : ℕ) (t : Worktree) :
    Whole R C J ids planner isPublic t (planned R C J ids planner isPublic maxTurns t) := by
  have hcases := planned_cases R C J ids planner isPublic maxTurns t
  generalize planned R C J ids planner isPublic maxTurns t = out at hcases ⊢
  rcases hcases with ⟨message, rfl⟩ | rfl | ⟨a, hattempt, hgood, rfl⟩
  · exact True.intro
  · exact True.intro
  · exact settle_whole hattempt hgood

variable (R C J) in
/-- every file that differs is a page among those the editorial gates are run on; reasons are given for pages and the
source, and what a plan has filed introduces no violation -/
def Gated (isPublic : Bool) (t : Worktree) : Outcome → Prop
  | .filed s rejected _ =>
    (∀ path, s.tree.lookup path ≠ t.lookup path → IsPage R path ∧ path ∈ editorialPaths s.reasons) ∧
      (∀ path ∈ s.reasons, path = J.source ∨ IsPage R path) ∧
      (rejected = false → introduced R C (viewBaseline R C isPublic t).1 s = [])
  | .refused _ => True
  | .raised => True

theorem mem_sourceReasons {path : Text} : path ∈ sourceReasons J ↔ path = J.source := by
  rw [sourceReasons, AList.mem_insert]
  exact ⟨fun h => h.resolve_right (AList.notMem_empty path), Or.inl⟩

variable (R C J ids) in
/-- no page that a plan changes escapes the gates -/
theorem gated (planner : Planner) (isPublic : Bool) (maxTurns : ℕ) (t : Worktree) :
    Gated R C J isPublic t (planned R C J ids planner isPublic maxTurns t) := by
  have hwhole := whole R C J ids planner isPublic maxTurns t
  generalize planned R C J ids planner isPublic maxTurns t = out at hwhole ⊢
  cases out with
  | refused message => exact True.intro
  | raised => exact True.intro
  | filed s rejected rejection =>
    cases rejected with
    | true =>
      have hsame : SameFiles t s.tree := hwhole.1
      have hreasons : ∀ path ∈ s.reasons, path = J.source ∨ IsPage R path := fun path hp =>
        Or.inl (mem_sourceReasons.mp (hwhole.2 ▸ hp))
      exact And.intro (fun path hne => absurd (hsame path) hne) (And.intro hreasons Bool.noConfusion)
    | false =>
      obtain ⟨plan, -, happlied, hgood⟩ := hwhole
      obtain ⟨n, start, skipped, hstart, happly⟩ := happlied
      have hexplained : Explained R (fresh J start skipped) s := by
        have hspec : Spec R _ _ (applyFilingPlan R C J (ids n) plan (fresh J start skipped)) :=
          applyFilingPlan_spec plan _
        rw [happly] at hspec
        exact hspec.explained () rfl
      have hchanged : ∀ path, s.tree.lookup path ≠ t.lookup path → IsPage R path ∧ path ∈ editorialPaths s.reasons := by
        intro path hne
        rw [← hstart path] at hne
        obtain ⟨hp, hpage⟩ := hexplained.changed path hne
        exact ⟨hpage, List.mem_filter.mpr ⟨AList.mem_keys.mp hp, pathRole_page hpage⟩⟩
      have hreasons : ∀ path ∈ s.reasons, path = J.source ∨ IsPage R path := by
        intro path hp
        rcases hexplained.told path hp with hold | hpage
        · exact Or.inl (mem_sourceReasons.mp hold)
        · exact Or.inr hpage
      exact And.intro hchanged (And.intro hreasons fun _ => hgood)

end

end Plans
