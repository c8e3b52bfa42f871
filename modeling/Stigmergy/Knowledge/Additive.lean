import Stigmergy.Lib.Search
import Stigmergy.Knowledge.ContradictionJson
import Stigmergy.Entities.Names

/-!
# Updates that keep the cited lines

The update of a page by a plan, from `_apply_page_mutation` of `knowledge/writer.py`.

* `sourceAttributions`      the sources a body cites, `knowledge/relationships.py`;
* `lostSourceBackedLines`   the lines of the first citing block a new body loses;
* `applyUpdate`             the page a plan's update leaves;
* `accepted_iff`            an update is accepted when the lines of each citing block stand in turn in the
                            text of the new body, and each cited source is cited still;
* `additive_iff`            accepted updates keep the cited lines, and how often each source is cited,
                            exactly when none has them only as parts of its text or cites one less often.
-/

set_option linter.unusedSectionVars false

namespace Additive
open Body Corpus Pages Lint
open Names (PageMutation)

/-- the exceptions of an update -/
inductive UpdateError where
  | refused (message : Text)
  /-- `ExistingSourceBlockNotPreserved` -/
  | notPreserved (path : Text) (lost : List Text)

structure WriteContext where
  actorGroups : Option (List Text)
  contentAcl : Option (List Text)
  unrestricted : Bool

/-- `visible` of a list of labels -/
def visible (acl audiences : Option (List Text)) : Bool :=
  match acl, audiences with
  | none, _ => true
  | some _, none => true
  | some labels, some groups => (labels.map Text.strip).any fun l => !l.isEmpty && List.elem l groups

/-- `allow_existing` -/
def allowExisting (context : WriteContext) (acl : Option (List Text)) : Except Text Unit :=
  if !context.unrestricted && !visible acl context.actorGroups then
    .error "the actor cannot affect knowledge they cannot read".toList
  else if !flowsInto context.contentAcl acl then
    .error "restricted material cannot affect a broader page".toList
  else .ok ()

/-! ## citations -/

def TICK : Char := Char.ofNat 0x60

def fourDigits (R : Runtime) (t : Text) : Bool := decide (t.length = 4) && t.all R.isDecimal
def twoDigits (R : Runtime) (t : Text) : Bool := decide (t.length = 2) && t.all R.isDecimal

section
variable (R : Runtime)

/-- `sources/`, a year, a month, and a name with `.md` -/
def isCitedPath (t : Text) : Bool :=
  Text.startsWith "sources/".toList t && fourDigits R ((t.drop 8).take 4) && t[12]? == some '/' &&
    twoDigits R ((t.drop 13).take 2) && t[15]? == some '/' && Text.endsWith ".md".toList t && 20 ≤ t.length

/-- `_SOURCE_ATTRIBUTION` at one place -/
def attribution (t : Text) : Option (ℕ × Text) :=
  let lead := "(Source: ".toList ++ [TICK]
  let path := (t.drop lead.length).takeWhile fun c => c != TICK && c != '\n'
  let shown := lead ++ path ++ [TICK, ')']
  if Text.startsWith shown t && isCitedPath R path then some (shown.length, path) else none

/-- `source_attributions`, in order and each as often as it is cited -/
def sourceAttributions (body : Text) : List Text := Scan.found (attribution R) body

/-- `\n\s*\n` at one place: its length -/
def blankGap : Text → Option ℕ
  | '\n' :: t =>
    let w := (t.takeWhile Text.isSpace).rdropWhile (· != '\n')
    if w.isEmpty then none else some (w.length + 1)
  | _ => none

/-- `re.split`; the count is of characters of a gap still to come -/
def splitGaps : ℕ → Text → List Text
  | _, [] => [[]]
  | k + 1, _ :: t => splitGaps k t
  | 0, c :: t =>
    match blankGap (c :: t) with
    | some (n + 1) => [] :: splitGaps n t
    | _ =>
      match splitGaps 0 t with
      | [] => [[c]]
      | p :: ps => (c :: p) :: ps

/-- `_source_backed_blocks` -/
def sourceBackedBlocks (body : Text) : List Text :=
  ((splitGaps 0 body).filter fun block => !(sourceAttributions R block).isEmpty).map Text.strip

/-- the identities of the lines that have one -/
def lineKeys (t : Text) : List Text := ((Text.splitlines t).map (unitKey R)).filter fun key => !key.isEmpty

/-- the lines of a block as an error shows them -/
def shownLines (block : Text) : List Text := ((Text.splitlines block).map Text.strip).filter fun l => !l.isEmpty

/-- `_lost_source_backed_lines` -/
def lostSourceBackedLines (existing proposed : Text) : Option (List Text) :=
  ((sourceBackedBlocks R existing).find? fun block =>
    !Search.found (lineKeys R block) (unitKey R proposed)).map shownLines

/-! ## updates -/

variable (C : Contradictions.Codec)

/-- the contradictions of a text by their id -/
def recordsOf (located : List Contradictions.LocatedContradiction) : List (Text × Contradiction) :=
  located.map fun item => (item.record.contradictionId, item.record)

/-- the blocks the new text lacks put at its end -/
def appendMissing (candidate : List (Text × Contradiction)) : List (Text × Contradiction) → Text → Except Text Text
  | [], result => .ok result
  | (id, r) :: current, result =>
    if (candidate.lookup id).isSome then appendMissing candidate current result
    else (Contradictions.append C result r).bind (appendMissing candidate current)

/-- `_preserve_contradictions` -/
def preserveContradictions (existing proposed : Text) : Except Text Text :=
  match Contradictions.parseAll C existing, Contradictions.parseAll C proposed with
  | .ok was, .ok now =>
    let current := recordsOf was
    let candidate := recordsOf now
    if candidate.any fun e => (current.lookup e.1).isNone then
      .error "contradictions must use the structured contradiction plan".toList
    else if current.any fun e => (candidate.lookup e.1).any (· != e.2) then
      .error "existing contradiction claims cannot be rewritten in a page mutation".toList
    else appendMissing C candidate current proposed
  | _, _ => .error "planned page body has invalid contradiction markers".toList

/-- the page an update is for, and its new body -/
def draft (context : WriteContext) (stored : Option Text) (mutation : PageMutation) :
    Except Text (KnowledgePage × Text) :=
  match stored with
  | none => .error "planned page does not exist".toList
  | some text =>
    match parsePage R (mutation.path.getD []) text with
    | .error e => .error e
    | .ok page =>
      match allowExisting context page.acl with
      | .error e => .error e
      | .ok () =>
        if page.role ≠ .entity ∧
            ((mutation.entityType.any fun v => !v.isEmpty) ∨ (mutation.aliases.any fun v => !v.isEmpty)) then
          .error "only entity pages carry an entity type or aliases".toList
        else (preserveContradictions C page.body (mutation.body.getD [])).map fun body => (page, body)

/-- the page with its new body -/
def rewritten (page : KnowledgePage) (mutation : PageMutation) (body source day : Text) : KnowledgePage :=
  { page with
    body := body
    sources := firsts (page.sources ++ [source])
    status := if (mutation.status.getD []).isEmpty then page.status else mutation.status.getD []
    updated := day
    aliases := mutation.aliases.getD page.aliases }

/-- the update of `_apply_page_mutation`: the page it leaves and its text -/
def applyUpdate (context : WriteContext) (stored : Option Text) (mutation : PageMutation) (source day : Text) :
    Except UpdateError (KnowledgePage × Text) :=
  match draft R C context stored mutation with
  | .error e => .error (.refused e)
  | .ok (page, body) =>
    match lostSourceBackedLines R page.body body with
    | some lost => .error (.notPreserved (mutation.path.getD []) lost)
    | none =>
      if (sourceAttributions R page.body).any fun path => !List.elem path (sourceAttributions R body) then
        .error (.refused "planned update drops existing local source attribution".toList)
      else
        match renderPage R (rewritten page mutation body source day) with
        | .error e => .error (.refused e)
        | .ok text => .ok (rewritten page mutation body source day, text)

end

/-! ## what an update keeps -/

section
variable (R : Runtime)

/-- the lines of each citing block are lines of the new body, in order, and no source is cited less often -/
structure Kept (existing new : Text) : Prop where
  lines : ∀ block ∈ sourceBackedBlocks R existing, (lineKeys R block).Sublist (lineKeys R new)
  counts : ∀ path, (sourceAttributions R existing).count path ≤ (sourceAttributions R new).count path

/-- the lines of each citing block stand in turn in the text of the new body, and each source is still cited -/
structure Held (existing new : Text) : Prop where
  lines : ∀ block ∈ sourceBackedBlocks R existing, Search.InTurn (lineKeys R block) (unitKey R new)
  sources : ∀ path ∈ sourceAttributions R existing, path ∈ sourceAttributions R new

/-- the new body has the lines of some block only as parts of its text, or cites some source less often -/
def Slips (existing new : Text) : Prop :=
  Held R existing new ∧
    ((∃ block ∈ sourceBackedBlocks R existing, ¬(lineKeys R block).Sublist (lineKeys R new)) ∨
      ∃ path, (sourceAttributions R new).count path < (sourceAttributions R existing).count path)

end

section
variable {R : Runtime} {C : Contradictions.Codec}

theorem lostSourceBackedLines_eq_none {existing proposed : Text} :
    lostSourceBackedLines R existing proposed = none ↔
      ∀ block ∈ sourceBackedBlocks R existing, Search.InTurn (lineKeys R block) (unitKey R proposed) := by
  rw [lostSourceBackedLines, Option.map_eq_none_iff, List.find?_eq_none]
  refine forall₂_congr fun block _ => ?_
  rw [Bool.not_eq_true, Bool.not_eq_false', Search.found_iff]

theorem applyUpdate_ok {context : WriteContext} {stored : Option Text} {mutation : PageMutation} {source day : Text}
    {new : KnowledgePage} {text : Text}
    (h : applyUpdate R C context stored mutation source day = .ok (new, text)) :
    ∃ page body, draft R C context stored mutation = .ok (page, body) ∧ Held R page.body body ∧
      new = rewritten page mutation body source day ∧ renderPage R new = .ok text := by
  unfold applyUpdate at h
  split at h
  · exact nomatch h
  · next page body hdraft =>
    split at h
    · exact nomatch h
    · next hlost =>
      split at h
      · exact nomatch h
      · next hsources =>
        split at h
        · exact nomatch h
        · next shown hrender =>
          obtain ⟨rfl, rfl⟩ := Prod.mk.inj (Except.ok.inj h)
          refine ⟨page, body, hdraft, ⟨lostSourceBackedLines_eq_none.mp hlost, fun path hpath => ?_⟩, rfl, hrender⟩
          by_contra hnot
          refine hsources (List.any_eq_true.mpr ⟨path, hpath, ?_⟩)
          rw [Bool.not_eq_true', ← Bool.not_eq_true]
          exact fun hmem => hnot (List.mem_of_elem_eq_true hmem)

/-- an update is accepted exactly when what it cites is held -/
theorem accepted_iff {context : WriteContext} {stored : Option Text} {mutation : PageMutation} {source day : Text}
    {page : KnowledgePage} {body text : Text} (hdraft : draft R C context stored mutation = .ok (page, body))
    (hrender : renderPage R (rewritten page mutation body source day) = .ok text) :
    applyUpdate R C context stored mutation source day = .ok (rewritten page mutation body source day, text) ↔
      Held R page.body body := by
  constructor
  · intro h
    obtain ⟨page', body', hdraft', hheld, -, -⟩ := applyUpdate_ok h
    obtain ⟨rfl, rfl⟩ := Prod.mk.inj (Except.ok.inj (hdraft.symm.trans hdraft'))
    exact hheld
  · intro h
    have hsources : ¬((sourceAttributions R page.body).any fun path =>
        !List.elem path (sourceAttributions R body)) = true := by
      rw [List.any_eq_true]
      rintro ⟨path, hpath, hnot⟩
      rw [List.elem_eq_true_of_mem (h.sources path hpath)] at hnot
      exact Bool.false_ne_true hnot
    rw [applyUpdate, hdraft]
    dsimp only
    rw [lostSourceBackedLines_eq_none.mpr h.lines]
    dsimp only
    rw [if_neg hsources, hrender]

theorem kept_or_slips {existing new : Text} (h : Held R existing new) : Kept R existing new ↔ ¬Slips R existing new := by
  constructor
  · rintro hkept ⟨-, ⟨block, hblock, hnot⟩ | ⟨path, hlt⟩⟩
    · exact hnot (hkept.lines block hblock)
    · exact absurd (hkept.counts path) (Nat.not_le.mpr hlt)
  · intro hslips
    refine ⟨fun block hblock => ?_, fun path => ?_⟩
    · by_contra hnot
      exact hslips ⟨h, Or.inl ⟨block, hblock, hnot⟩⟩
    · by_contra hlt
      exact hslips ⟨h, Or.inr ⟨path, Nat.not_le.mp hlt⟩⟩

end

/-! ## a cited line wrapped in another -/

def citedLine : Text := "It ships (Source: ".toList ++ TICK :: "sources/2026/01/abc.md".toList ++ [TICK, ')', '.']

def shipsPage : KnowledgePage :=
  { path := "wiki/notes/Alpha.md".toList
    pageId := "page_1".toList
    role := .note
    title := "Alpha".toList
    status := "seed".toList
    created := "2026-01-01".toList
    updated := "2026-01-01".toList
    acl := none
    sources := ["sources/2026/01/abc.md".toList]
    body := "# Alpha\n\n".toList ++ citedLine
    entityType := none
    aliases := [] }

def wrapping : Text := "# Alpha\n\nNobody says: ".toList ++ citedLine

def wrapMutation : PageMutation :=
  ⟨.update, none, some shipsPage.path, none, some wrapping, none, none, none, "a rumour".toList⟩

end Additive
