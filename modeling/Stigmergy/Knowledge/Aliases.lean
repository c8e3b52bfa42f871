import Mathlib.Data.List.Rotate
import Mathlib.Data.Rat.Floor
import Stigmergy.Entities.Names
import Stigmergy.Knowledge.Resolve

/-!
# Other names of entities, recorded

The names a plan links entities by and what becomes of them, from `knowledge/aliases.py` and
`_record_aliases` of `knowledge/writer.py`.

* `candidates`      the names a plan has added that name no page yet;
* `decideAll`       what the classifier says of each, while there is time;
* `record`          the accepted ones written to their pages, or every page put back;
* `recordAliases`   the same behind the gates of the corpus, and the report;
* `Sound`           what the step owes: all or nothing, told as it is, and no name given twice;
* `aliases_sound`       it does exactly when an undone page has no carriage return, and no two accepted names
                    are one link or a name of someone once their white space is collapsed.
-/

set_option linter.unusedSectionVars false

namespace Aliases

open Corpus Pages Resolve Wikilinks Layered

/-! ## links -/

structure Link where
  name : Text
  shown : Text
  offset : ℕ
  line : Text

/-- the links of a line, with the place of each -/
def linksFrom (line : Text) : ℕ → List Segment → List Link
  | _, [] => []
  | k, .plain _ :: l => linksFrom line (k + 1) l
  | k, .link embed inner :: l =>
    ⟨cleaned inner, shownText inner, k, line⟩ :: linksFrom line (k + (Segment.link embed inner).spell.length) l

/-- `_links` -/
def links (text : Text) : List Link :=
  (Text.splitlines (stripCode text)).flatMap fun line => linksFrom line 0 (segments line)

def SENTENCE_SIDE_CHARS : ℕ := 150

/-- `_sentence` -/
def sentence (line : Text) (offset : ℕ) : Text :=
  let first := offset - SENTENCE_SIDE_CHARS
  let window := (line.drop first).take (offset + 2 * SENTENCE_SIDE_CHARS - first)
  Text.oneLine (rewrite (fun _ inner => (behind '|' inner).getD (before '|' inner)) window)

/-! ## candidates -/

structure Candidate where
  entity : Text
  text : Text
  sentence : Text
deriving DecidableEq

/-- a link the plan has added to an entity -/
structure Added where
  target : Text
  shown : Text
  sentence : Text

section
variable (R : Runtime)

/-- `_entity_pages` -/
def entityPages (t : Worktree) : List (Text × KnowledgePage) :=
  (Filing.folderPages t Role.entity.folder).filterMap fun f =>
    match parsePage R f.1 (Text.universalNewlines f.2) with
    | .ok page => some (f.1, page)
    | .error _ => none

/-- `by_stem.get`: the last page of a stem -/
def byStem (entities : List (Text × KnowledgePage)) (name : Text) : Option Text :=
  ((entities.filter fun e => R.casefold (Names.pathStem e.1) == name).getLast?).map Prod.fst

/-- the links that were not there before, each old one counted once -/
def unseen : List (Text × Text) → List Link → List Link
  | _, [] => []
  | existing, l :: ls =>
    if (R.casefold l.name, l.shown) ∈ existing then unseen (existing.erase (R.casefold l.name, l.shown)) ls
    else l :: unseen existing ls

/-- the body before the plan, empty for a new page -/
def oldBody (path : Text) : Option Text → Except Text Text
  | none | some [] => .ok []
  | some old => (parsePage R path old).map KnowledgePage.body

/-- the links the plan has added to one page -/
def addedIn (t : Worktree) (entities : List (Text × KnowledgePage)) (page : Text × Option Text) : List Added :=
  match t.lookup page.1 with
  | none => []
  | some file =>
    match parsePage R page.1 (Text.universalNewlines file), oldBody R page.1 page.2 with
    | .ok now, .ok old =>
      (unseen R ((links old).map fun l => (R.casefold l.name, l.shown)) (links now.body)).filterMap fun l =>
        (byStem R entities (R.casefold (titleStem R l.name))).map fun target =>
          ⟨target, l.shown, sentence l.line l.offset⟩
    | _, _ => []

/-- the name a link is looked up by -/
def linkKey (name : Text) : Text := R.casefold (titleStem R name)

section
variable (entities : List (Text × KnowledgePage)) (linkNames : Stems) (eligible : Text → Bool) (added : List Added)

/-- why a link gives no candidate -/
def refused (a : Added) : Bool :=
  let key := resolutionKey R a.shown
  !key.any R.isAlnum || ((entities.lookup a.target).any fun page => (page.nameKeys R).contains key) ||
    (linkNames.lookup (linkKey R a.shown)).isSome ||
    (added.any fun b => resolutionKey R b.shown == key && b.target != a.target) || !eligible a.target ||
    entities.any fun e => e.1 != a.target &&
      (e.2.nameKeys R).any fun name => (Text.words key).all fun w => (Text.words name).contains w

/-- `found.setdefault` -/
def consider (found : List Candidate) (a : Added) : List Candidate :=
  if refused R entities linkNames eligible added a ||
      found.any (fun c => c.entity == a.target && resolutionKey R c.text == resolutionKey R a.shown) then found
  else found ++ [⟨a.target, a.shown, a.sentence⟩]

end

/-- `candidates` -/
def candidates (t : Worktree) (written : List (Text × Option Text)) (linkNames : Stems) (eligible : Text → Bool) :
    List Candidate :=
  let entities := entityPages R t
  let added := written.flatMap (addedIn R t entities)
  added.foldl (consider R entities linkNames eligible added) []

end

/-! ## what can happen -/

inductive Fault where
  /-- an `OSError`, `UnicodeError` or `PageContractError` -/
  | caught (name : Text)
  /-- anything else, as a deadline or a lost lease -/
  | raised (name : Text)
deriving DecidableEq

inductive Answer where
  | probabilities (answer : List (Text × ℚ))
  /-- `DecisionFailed` -/
  | failed (reason : Text)
  | raised (fault : Fault)

/-- the classifier, the clock and the disk -/
structure World where
  /-- the seconds gone when a candidate's turn comes -/
  elapsed : ℕ → ℚ
  classify : ℕ → Candidate → KnowledgePage → Answer
  /-- what goes wrong before the first candidate is decided -/
  reading : Option Fault
  /-- what goes wrong at a file operation of the aliases, and what a write that fails leaves -/
  fault : ℕ → Option Fault
  torn : ℕ → Text
  /-- the same where a page is put back -/
  undoFault : ℕ → Option Fault
  undoTorn : ℕ → Text

structure Step where
  tree : Worktree
  view : LayerView
  /-- each page of the plan with its text before -/
  written : List (Text × Option Text)
  context : Additive.WriteContext
  tolerated : List Lint.Violation
  reasons : AList fun _ : Text => Text
  day : Text
  window : ℚ
  maxCandidates : ℕ
  start : ℕ

inductive Decision where
  | accepted | rejected | skipped | reverted
deriving DecidableEq

/-- an entry of the report -/
structure Entry where
  named : Option (Text × Text)
  decision : Decision
  reason : Option Text
  probability : Option ℚ
deriving DecidableEq

def Entry.skip (named : Option (Text × Text)) (reason : Text) : Entry := ⟨named, .skipped, some reason, none⟩

/-! ## decisions -/

def THRESHOLD : ℚ := 3 / 4
def ALIAS : Text := "alias".toList
def OTHER : Text := "other".toList
def OPTIONS : List Text := [ALIAS, OTHER]

/-- `round(p, 4)`, halves to the even side -/
def round4 (p : ℚ) : ℚ :=
  let n := ⌊p * 10000⌋
  let rest := p * 10000 - n
  (if rest < 1 / 2 ∨ (rest = 1 / 2 ∧ n % 2 = 0) then n else n + 1 : ℤ) / 10000

section
variable (w : World) (s : Step) (entities : List (Text × KnowledgePage))

/-- one turn of the loop over the candidates -/
def decideOne (i : ℕ) (c : Candidate) : Except Fault Entry :=
  let named := some (c.entity, c.text)
  if s.maxCandidates ≤ i then .ok (Entry.skip named "cap".toList)
  else if s.window - w.elapsed i ≤ 0 then .ok (Entry.skip named "deadline".toList)
  else
    match entities.lookup c.entity with
    | none => .error (.raised "KeyError".toList)
    | some page =>
      match w.classify i c page with
      | .raised fault => .error fault
      | .failed reason => .ok (Entry.skip named reason)
      | .probabilities answer =>
        if (answer.map Prod.fst).any (!OPTIONS.contains ·) || OPTIONS.any (!(answer.map Prod.fst).contains ·) then
          .ok (Entry.skip named "invalid_response".toList)
        else
          let p := (answer.lookup ALIAS).getD 0
          .ok ⟨named, if THRESHOLD ≤ p then .accepted else .rejected, none, some (round4 p)⟩

/-- the report, and the accepted candidates -/
def decideAll : ℕ → List Candidate → Except Fault (List Entry × List Candidate)
  | _, [] => .ok ([], [])
  | i, c :: cs =>
    match decideOne w s entities i c with
    | .error fault => .error fault
    | .ok entry => (decideAll (i + 1) cs).map fun r =>
      (entry :: r.1, if entry.decision = .accepted then c :: r.2 else r.2)

end

/-! ## files -/

/-- what the writes have come to: the tree, the texts before, and what went wrong -/
structure Attempt where
  tree : Worktree
  before : List (Text × Text)
  fault : Option Fault

/-- `before.setdefault` -/
def remember (before : List (Text × Text)) (path text : Text) : List (Text × Text) :=
  if (before.lookup path).isSome then before else before ++ [(path, text)]

section
variable (R : Runtime) (w : World)

/-- a page with one more alias -/
def withAlias (day : Text) (page : KnowledgePage) (name : Text) : KnowledgePage :=
  { page with updated := day, aliases := page.aliases ++ [name] }

/-- the loop over the accepted candidates, up to the first fault -/
def writeAliases (day : Text) : ℕ → Worktree → List (Text × Text) → List Candidate → Attempt
  | _, t, before, [] => ⟨t, before, none⟩
  | k, t, before, c :: cs =>
    match w.fault k with
    | some fault => ⟨t, before, some fault⟩
    | none =>
      match t.lookup c.entity with
      | none => ⟨t, before, some (.caught "FileNotFoundError".toList)⟩
      | some file =>
        let text := Text.universalNewlines file
        let before := remember before c.entity text
        match parsePage R c.entity text with
        | .error _ => ⟨t, before, some (.caught "PageContractError".toList)⟩
        | .ok page =>
          match renderPage R (withAlias day page c.text) with
          | .error _ => ⟨t, before, some (.caught "PageContractError".toList)⟩
          | .ok new =>
            match w.fault (k + 1) with
            | some fault => ⟨t.insert c.entity (w.torn (k + 1)), before, some fault⟩
            | none => writeAliases day (k + 2) (t.insert c.entity new) before cs

/-- the loop that puts the pages back -/
def restore : ℕ → Worktree → List (Text × Text) → Worktree × Option Fault
  | _, t, [] => (t, none)
  | k, t, (path, text) :: before =>
    match w.undoFault k with
    | some fault => (t.insert path (w.undoTorn k), some fault)
    | none => restore (k + 1) (t.insert path text) before

end

/-! ## the step -/

/-- `stores_whole` -/
def storesWhole (view : LayerView) (vpath : Text) : Bool :=
  view.layer == Layers.PUBLIC || (view.ownPages.lookup vpath).isSome || !(view.publicPages.lookup vpath).isSome

section
variable (R : Runtime) (w : World) (s : Step)

/-- the pages a link may name -/
def knownPages : Except Fault (List KnowledgePage) :=
  match w.reading with
  | some fault => .error fault
  | none =>
    match parseFiles R (KNOWLEDGE_FOLDERS.flatMap (Filing.folderPages s.tree)) with
    | .error _ => .error (.caught "PageContractError".toList)
    | .ok pages => .ok (pages.map fun e => e.2.1)

/-- the report and the accepted candidates of the names `pages` answer to -/
def decided (pages : List KnowledgePage) : Except Fault (List Entry × List Candidate) :=
  let found := candidates R s.tree s.written (knowledgeLinkStems R pages [] s.context) (storesWhole s.view)
  decideAll w s (entityPages R s.tree) 0 (found.rotate s.start)

/-- `record` -/
def record (pages : List KnowledgePage) : Worktree × Except Fault (List Entry × List (Text × Text)) :=
  match decided R w s pages with
  | .error fault => (s.tree, .error fault)
  | .ok (report, accepted) =>
    let done := writeAliases R w s.day 0 s.tree [] accepted
    match done.fault with
    | none => (done.tree, .ok (report, done.before))
    | some fault =>
      let back := restore w 0 done.tree done.before
      (back.1, .error (back.2.getD fault))

/-- files as they are read -/
def asRead (t : Worktree) : Worktree where
  entries := t.entries.map fun e => ⟨e.1, Text.universalNewlines e.2⟩
  nodupKeys := by
    have hkeys : (t.entries.map fun e => (⟨e.1, Text.universalNewlines e.2⟩ : Sigma fun _ : Text => Text)).keys =
        t.entries.keys := by
      rw [List.keys, List.map_map]
      rfl
    rw [List.NodupKeys, hkeys]
    exact t.nodupKeys

variable (C : Contradictions.Codec)

/-- `_introduced(check(tree), tolerated)` -/
def introduced (t : Worktree) (tolerated : List Lint.Violation) : List Lint.Violation :=
  (Lint.check R C (asRead t) []).filter fun v => v ∉ tolerated

def Entry.revert (e : Entry) : Entry := if e.decision = .accepted then { e with decision := .reverted } else e

def ADDED_REASON : Text := "Recorded another name a page links this entity by".toList

structure Outcome where
  tree : Worktree
  report : Except Fault (List Entry)
  reasons : AList fun _ : Text => Text

/-- what a fault is told as, where it does not go on -/
def toldAs : Fault → Except Fault (List Entry)
  | .caught name => .ok [Entry.skip none name]
  | .raised name => .error (.raised name)

/-- `_record_aliases` -/
def recordAliases : Outcome :=
  match knownPages R w s with
  | .error fault => ⟨s.tree, toldAs fault, s.reasons⟩
  | .ok pages =>
    match record R w s pages with
    | (t, .error fault) => ⟨t, toldAs fault, s.reasons⟩
    | (t, .ok (report, before)) =>
      if before ≠ [] ∧ introduced R C t s.tolerated ≠ [] then
        match restore w 0 t before with
        | (back, some fault) => ⟨back, .error fault, s.reasons⟩
        | (back, none) => ⟨back, .ok (report.map Entry.revert), s.reasons⟩
      else
        ⟨t, .ok report, before.foldl (fun reasons e => Names.setdefault reasons e.1 ADDED_REASON) s.reasons⟩

/-! ## what the step owes -/

/-- the accepted names of a report, with their pages -/
def acceptedIn (report : List Entry) : List (Text × Text) :=
  report.filterMap fun e => if e.decision = .accepted then e.named else none

/-- the names the step has written, as it tells -/
def Outcome.accepted (o : Outcome) : List (Text × Text) :=
  match o.report with
  | .ok report => acceptedIn report
  | .error _ => []

def Candidate.named (c : Candidate) : Text × Text := (c.entity, c.text)

/-- the candidates the classifier has accepted -/
def chosen : List Candidate :=
  match knownPages R w s with
  | .error _ => []
  | .ok pages =>
    match decided R w s pages with
    | .error _ => []
    | .ok (_, accepted) => accepted

/-- the names written to one page -/
def namesFor (accepted : List (Text × Text)) (path : Text) : List Text :=
  (accepted.filter fun e => e.1 == path).map fun e => Text.oneLine e.2

def pageAt (t : Worktree) (path : Text) : Option KnowledgePage :=
  (t.lookup path).bind fun file => (parsePage R path (Text.universalNewlines file)).toOption

/-- a page with more aliases, after its heading -/
def landed (day : Text) (page : KnowledgePage) (names : List Text) : KnowledgePage :=
  { page with updated := day, body := withHeading page.title page.body, aliases := page.aliases ++ names }

/-- every file is as it was, but a page with accepted names has these too -/
def Told (day : Text) (t t' : Worktree) (accepted : List (Text × Text)) : Prop :=
  ∀ path, (namesFor accepted path = [] → t'.lookup path = t.lookup path) ∧
    (namesFor accepted path ≠ [] → ∃ page, pageAt R t path = some page ∧
      pageAt R t' path = some (landed day page (namesFor accepted path)))

/-- the key an alias has once it is written -/
def writtenKey (name : Text) : Text := resolutionKey R (Text.oneLine name)

/-- one link names both -/
def SameLink (a b : Text) : Prop := linkKey R a = linkKey R b ∧ linkKey R a ≠ []

/-- all or nothing, told as it is, and no name given twice -/
structure Sound : Prop where
  all_or_nothing : (recordAliases R w s C).accepted = [] ∨
    (recordAliases R w s C).accepted = (chosen R w s).map Candidate.named
  told : Told R s.day s.tree (recordAliases R w s C).tree (recordAliases R w s C).accepted
  /-- no alias has the key of another entity -/
  free : ∀ e ∈ (recordAliases R w s C).accepted, ∀ other ∈ entityPages R s.tree, other.1 ≠ e.1 →
    writtenKey R e.2 ∉ other.2.nameKeys R
  /-- and no link that is an alias names a page that was there -/
  unlinked : ∀ e ∈ (recordAliases R w s C).accepted, ∀ pages, knownPages R w s = .ok pages →
    ∀ n ∈ linkNames R pages [] s.context, ¬(R.casefold n.1 = linkKey R e.2 ∧ linkKey R e.2 ≠ [])
  apart : ∀ e ∈ (recordAliases R w s C).accepted, ∀ f ∈ (recordAliases R w s C).accepted, e.1 ≠ f.1 →
    writtenKey R e.2 ≠ writtenKey R f.2 ∧ ¬SameLink R e.2 f.2
  whole : ∀ path, storesWhole s.view path = false → (recordAliases R w s C).tree.lookup path = s.tree.lookup path

/-! ## when it is sound -/

/-- the writes of the step, where it comes to them -/
def attempt : Option Attempt :=
  match knownPages R w s with
  | .error _ => none
  | .ok pages =>
    match decided R w s pages with
    | .error _ => none
    | .ok (_, accepted) => some (writeAliases R w s.day 0 s.tree [] accepted)

/-- the writes fail, or the gates find something new in what they leave -/
def Undone (a : Attempt) : Prop :=
  a.fault.isSome = true ∨ (a.before ≠ [] ∧ introduced R C a.tree s.tolerated ≠ [])

/-- nobody else has the key of a written name -/
def Unshared (c : Candidate) : Prop :=
  (∀ other ∈ entityPages R s.tree, other.1 ≠ c.entity → writtenKey R c.text ∉ other.2.nameKeys R) ∧
    ∀ d ∈ chosen R w s, d.entity ≠ c.entity → writtenKey R d.text ≠ writtenKey R c.text

/-- an undone page has no carriage return; accepted names of two entities are not one link, and a name whose key
changes with its white space is nobody else's -/
structure Plain : Prop where
  undone : ∀ a, attempt R w s = some a → Undone R s C a → ∀ e ∈ a.before, '\r' ∉ (s.tree.lookup e.1).getD []
  links : ∀ a, attempt R w s = some a → ¬Undone R s C a → ∀ c ∈ chosen R w s, ∀ d ∈ chosen R w s,
    c.entity ≠ d.entity → ¬SameLink R c.text d.text
  keys : ∀ a, attempt R w s = some a → ¬Undone R s C a → ∀ c ∈ chosen R w s,
    writtenKey R c.text = resolutionKey R c.text ∨ Unshared R w s c

end

/-! ## what a candidate is -/

section
variable {R : Runtime} {entities : List (Text × KnowledgePage)} {linkNames : Stems} {eligible : Text → Bool}
  {added : List Added}

variable (R entities linkNames eligible added) in
/-- the names of a candidate are new -/
structure Fresh (c : Candidate) : Prop where
  here : ∃ b ∈ added, b.target = c.entity ∧ b.shown = c.text
  linked : ∀ b ∈ added, resolutionKey R b.shown = resolutionKey R c.text → b.target = c.entity
  unlinked : linkNames.lookup (linkKey R c.text) = none
  eligible : eligible c.entity = true
  free : ∀ other ∈ entities, other.1 ≠ c.entity → resolutionKey R c.text ∉ other.2.nameKeys R

theorem fresh_of_refused {a : Added} (ha : a ∈ added)
    (h : refused R entities linkNames eligible added a = false) :
    Fresh R entities linkNames eligible added ⟨a.target, a.shown, a.sentence⟩ := by
  unfold refused at h
  simp only [Bool.or_eq_false_iff] at h
  obtain ⟨⟨⟨⟨⟨-, -⟩, hlink⟩, hlinked⟩, heligible⟩, hwords⟩ := h
  refine ⟨⟨a, ha, rfl, rfl⟩, fun b hb hkey => ?_, ?_, ?_, fun other hother hne hmem => ?_⟩
  · have hb := List.any_eq_false.mp hlinked b hb
    rw [Bool.and_eq_true, beq_iff_eq, bne_iff_ne, not_and, not_ne_iff] at hb
    exact hb hkey
  · exact Option.isNone_iff_eq_none.mp (Option.isSome_eq_false_iff.mp hlink)
  · show eligible a.target = true
    rw [← Bool.not_not (eligible a.target), heligible]
    rfl
  · have hother := List.any_eq_false.mp hwords other hother
    rw [Bool.and_eq_true, bne_iff_ne, not_and] at hother
    refine hother hne (List.any_eq_true.mpr ⟨_, hmem, List.all_eq_true.mpr fun word hword => ?_⟩)
    exact List.contains_iff_mem.mpr hword

theorem mem_foldl_consider {l : List Added} {found : List Candidate} {c : Candidate}
    (h : c ∈ l.foldl (consider R entities linkNames eligible added) found) :
    c ∈ found ∨ ∃ a ∈ l, refused R entities linkNames eligible added a = false ∧ c = ⟨a.target, a.shown, a.sentence⟩ := by
  induction l generalizing found with
  | nil => exact Or.inl h
  | cons a l ih =>
    rcases ih h with h | ⟨b, hb, hrefused, rfl⟩
    · unfold consider at h
      split at h
      · exact Or.inl h
      · next hkept =>
        rw [Bool.or_eq_true, not_or, Bool.not_eq_true] at hkept
        rcases List.mem_append.mp h with h | h
        · exact Or.inl h
        · exact Or.inr ⟨a, List.mem_cons_self, hkept.1, List.mem_singleton.mp h⟩
    · exact Or.inr ⟨b, List.mem_cons_of_mem a hb, hrefused, rfl⟩

theorem fresh_of_mem {t : Worktree} {written : List (Text × Option Text)} {c : Candidate}
    (h : c ∈ candidates R t written linkNames eligible) :
    Fresh R (entityPages R t) linkNames eligible (written.flatMap (addedIn R t (entityPages R t))) c := by
  rcases mem_foldl_consider h with h | ⟨a, ha, hrefused, rfl⟩
  · exact absurd h List.not_mem_nil
  · exact fresh_of_refused ha hrefused

/-- two candidates of one key are of one entity -/
theorem Fresh.one_entity {c d : Candidate} (hc : Fresh R entities linkNames eligible added c)
    (hd : Fresh R entities linkNames eligible added d) (h : resolutionKey R c.text = resolutionKey R d.text) :
    c.entity = d.entity := by
  obtain ⟨b, hb, htarget, hshown⟩ := hc.here
  rw [← htarget]
  exact hd.linked b hb (by rw [hshown, h])

end

/-! ## what is decided -/

section
variable {w : World} {s : Step} {entities : List (Text × KnowledgePage)}

theorem decideOne_named {i : ℕ} {c : Candidate} {entry : Entry} (h : decideOne w s entities i c = .ok entry) :
    entry.named = some c.named := by
  unfold decideOne at h
  dsimp only at h
  split at h
  · rw [← Except.ok.inj h]
    rfl
  split at h
  · rw [← Except.ok.inj h]
    rfl
  split at h
  · exact nomatch h
  split at h
  · exact nomatch h
  · rw [← Except.ok.inj h]
    rfl
  · split at h
    · rw [← Except.ok.inj h]
      rfl
    · rw [← Except.ok.inj h]
      rfl

/-- the accepted entries of the report are the accepted candidates -/
theorem decideAll_eq_ok {i : ℕ} {cs accepted : List Candidate} {report : List Entry}
    (h : decideAll w s entities i cs = .ok (report, accepted)) :
    acceptedIn report = accepted.map Candidate.named ∧ ∀ c ∈ accepted, c ∈ cs := by
  induction cs generalizing i report accepted with
  | nil =>
    obtain ⟨rfl, rfl⟩ := Prod.mk.inj (Except.ok.inj h)
    exact ⟨rfl, fun c hc => hc⟩
  | cons c cs ih =>
    rw [decideAll] at h
    split at h
    · exact nomatch h
    next entry hentry =>
    obtain ⟨⟨rest, others⟩, hrest, heq⟩ := Checks.map_eq_ok h
    obtain ⟨rfl, rfl⟩ := Prod.mk.inj heq
    obtain ⟨hreport, hmem⟩ := ih hrest
    have hnamed := decideOne_named hentry
    by_cases haccepted : entry.decision = .accepted
    · have hcons : acceptedIn (entry :: rest) = c.named :: acceptedIn rest := by
        rw [acceptedIn, List.filterMap_cons, if_pos haccepted, hnamed]
        rfl
      rw [if_pos haccepted, hcons, hreport]
      refine ⟨rfl, fun d hd => ?_⟩
      rcases List.mem_cons.mp hd with rfl | hd
      · exact List.mem_cons_self
      · exact List.mem_cons_of_mem c (hmem d hd)
    · have hcons : acceptedIn (entry :: rest) = acceptedIn rest := by
        rw [acceptedIn, List.filterMap_cons, if_neg haccepted]
        rfl
      rw [if_neg haccepted, hcons, hreport]
      exact ⟨rfl, fun d hd => List.mem_cons_of_mem c (hmem d hd)⟩

theorem acceptedIn_revert (report : List Entry) : acceptedIn (report.map Entry.revert) = [] := by
  induction report with
  | nil => rfl
  | cons e report ih =>
    have hnot : (Entry.revert e).decision ≠ .accepted := by
      unfold Entry.revert
      split
      · exact nofun
      · next hne => exact hne
    rw [List.map_cons, acceptedIn, List.filterMap_cons, if_neg hnot]
    exact ih

end

/-! ## what is written -/

section
variable {R : Runtime} {day : Text}

theorem landed_landed {page : KnowledgePage} (h : Text.isBlank page.body = false) (names more : List Text) :
    landed day (landed day page names) more = landed day page (names ++ more) := by
  unfold landed
  dsimp only
  rw [withHeading_withHeading _ _ h, List.append_assoc]

/-- a page is written with its new alias, and read so -/
theorem written_page (hnfkd : R.nfkdAscii [] = []) (hlower : R.lower [] = [])
    (hday : ∀ t d, R.isoDate t = some d → R.isoDate d = some d)
    (hdump : ∀ m : Metadata, m.Plain R.showList → '\r' ∉ R.dump m) (hat : R.isoDate day = some day)
    {path text new name : Text} {page : KnowledgePage} (hpage : parsePage R path text = .ok page)
    (hreturn : '\r' ∉ text) (hnew : renderPage R (withAlias day page name) = .ok new) :
    '\r' ∉ new ∧ parsePage R path new = .ok (landed day page [Text.oneLine name]) := by
  have haccepted := accepted_of_parsePage hpage
  have hgiven := haccepted.given hday
  have hsame : collapsed (withAlias day page name) = landed day page [Text.oneLine name] := by
    unfold collapsed withAlias landed
    dsimp only
    rw [haccepted.title, List.map_append, haccepted.collapsed]
    rfl
  have hbody : '\r' ∉ (withAlias day page name).body := fun hmem => hreturn (mem_of_parsePage hpage hmem)
  have hnames : Given R (withAlias day page name) :=
    ⟨hgiven.pageId, hgiven.created, hat, hgiven.acl, hgiven.sources⟩
  have hparse := parsePage_renderPage hnfkd hlower hnew hnames
  refine ⟨return_renderPage hdump hnew hbody, ?_⟩
  rw [← hsame, ← hparse, ← haccepted.place]
  rfl

/-! ### the aliases so far -/

theorem namesFor_append (done more : List (Text × Text)) (path : Text) :
    namesFor (done ++ more) path = namesFor done path ++ namesFor more path := by
  rw [namesFor, List.filter_append, List.map_append]
  rfl

theorem namesFor_self (path name : Text) : namesFor [(path, name)] path = [Text.oneLine name] := by
  rw [namesFor, List.filter_cons, if_pos (beq_self_eq_true path)]
  rfl

theorem namesFor_other {path other : Text} (h : path ≠ other) (name : Text) : namesFor [(path, name)] other = [] := by
  rw [namesFor, List.filter_cons, if_neg fun hb => h (beq_iff_eq.mp hb)]
  rfl

variable (R day) in
/-- the aliases `done` are written, and nothing else -/
def Progress (t₀ t : Worktree) (done : List (Text × Text)) : Prop :=
  ∀ path, (namesFor done path = [] → t.lookup path = t₀.lookup path) ∧
    (namesFor done path ≠ [] → ∃ page text, pageAt R t₀ path = some page ∧ t.lookup path = some text ∧ '\r' ∉ text ∧
      parsePage R path text = .ok (landed day page (namesFor done path)))

theorem progress_nil (t : Worktree) : Progress R day t t [] :=
  fun _ => ⟨fun _ => rfl, fun h => absurd rfl h⟩

theorem pageAt_eq_some {t : Worktree} {path : Text} {page : KnowledgePage} :
    pageAt R t path = some page ↔
      ∃ file, t.lookup path = some file ∧ parsePage R path (Text.universalNewlines file) = .ok page := by
  unfold pageAt
  rw [Option.bind_eq_some_iff]
  refine exists_congr fun file => and_congr_right fun _ => ?_
  cases parsePage R path (Text.universalNewlines file) with
  | error e => exact iff_of_false nofun nofun
  | ok found =>
    show some found = some page ↔ _
    rw [Option.some.injEq, Except.ok.injEq]

theorem Progress.told {t₀ t : Worktree} {done : List (Text × Text)} (h : Progress R day t₀ t done) :
    Told R day t₀ t done := by
  intro path
  refine ⟨(h path).1, fun hne => ?_⟩
  obtain ⟨page, text, hpage, htext, hreturn, hparse⟩ := (h path).2 hne
  refine ⟨page, hpage, pageAt_eq_some.mpr ⟨text, htext, ?_⟩⟩
  rw [Text.universalNewlines_eq_self.mpr hreturn, hparse]

/-- one more alias is written -/
theorem Progress.write (hnfkd : R.nfkdAscii [] = []) (hlower : R.lower [] = [])
    (hday : ∀ t d, R.isoDate t = some d → R.isoDate d = some d)
    (hdump : ∀ m : Metadata, m.Plain R.showList → '\r' ∉ R.dump m) (hat : R.isoDate day = some day)
    {t₀ t : Worktree} {done : List (Text × Text)} (h : Progress R day t₀ t done) {path name file new : Text}
    {page : KnowledgePage} (hfile : t.lookup path = some file)
    (hpage : parsePage R path (Text.universalNewlines file) = .ok page)
    (hnew : renderPage R (withAlias day page name) = .ok new) :
    Progress R day t₀ (t.insert path new) (done ++ [(path, name)]) := by
  obtain ⟨hreturn, hparse⟩ :=
    written_page hnfkd hlower hday hdump hat hpage (Text.return_universalNewlines file) hnew
  intro other
  rw [namesFor_append]
  by_cases hother : path = other
  · subst hother
    rw [namesFor_self]
    refine ⟨fun hnil => absurd (List.append_eq_nil_iff.mp hnil).2 (List.cons_ne_nil _ _), fun _ => ?_⟩
    by_cases hnil : namesFor done path = []
    · rw [hnil, List.nil_append]
      refine ⟨page, new, pageAt_eq_some.mpr ⟨file, ?_, hpage⟩, AList.lookup_insert t, hreturn, hparse⟩
      rw [← (h path).1 hnil, hfile]
    · obtain ⟨first, text, hfirst, htext, hclean, hread⟩ := (h path).2 hnil
      obtain rfl : text = file := Option.some.inj (htext.symm.trans hfile)
      rw [Text.universalNewlines_eq_self.mpr hclean, hread] at hpage
      obtain rfl := Except.ok.inj hpage
      obtain ⟨old, -, hold⟩ := pageAt_eq_some.mp hfirst
      refine ⟨first, new, hfirst, AList.lookup_insert t, hreturn, ?_⟩
      rw [hparse, landed_landed (accepted_of_parsePage hold).body.1]
  · rw [namesFor_other hother, List.append_nil, AList.lookup_insert_ne (Ne.symm hother)]
    exact h other

/-! ### the texts before -/

theorem remember_cases (before : List (Text × Text)) (path text : Text) :
    (path ∈ before.map Prod.fst ∧ remember before path text = before) ∨
      (path ∉ before.map Prod.fst ∧ remember before path text = before ++ [(path, text)]) := by
  have hkey : (before.lookup path).isSome = true ↔ path ∈ before.map Prod.fst := by
    induction before with
    | nil => exact iff_of_false nofun List.not_mem_nil
    | cons e before ih =>
      rw [List.lookup_cons, List.map_cons, List.mem_cons]
      split
      · next heq => exact iff_of_true rfl (Or.inl (beq_iff_eq.mp heq))
      · next hne =>
        rw [ih]
        exact ⟨Or.inr, fun h => h.resolve_left (beq_eq_false_iff_ne.mp hne)⟩
  unfold remember
  split
  · next h => exact Or.inl ⟨hkey.mp h, rfl⟩
  · next h => exact Or.inr ⟨fun hmem => h (hkey.mpr hmem), rfl⟩

/-- the pages that may have changed, each with its text before -/
structure Saved (t₀ t : Worktree) (before : List (Text × Text)) (all : List Candidate) : Prop where
  texts : ∀ e ∈ before, ∃ file, t₀.lookup e.1 = some file ∧ e.2 = Text.universalNewlines file
  rest : ∀ path, path ∉ before.map Prod.fst → t.lookup path = t₀.lookup path
  nodup : (before.map Prod.fst).Nodup
  owned : ∀ e ∈ before, ∃ c ∈ all, c.entity = e.1

theorem Saved.remember {t₀ t : Worktree} {before : List (Text × Text)} {all : List Candidate}
    (h : Saved t₀ t before all) {c : Candidate} (hc : c ∈ all) {file : Text} (hfile : t.lookup c.entity = some file) :
    Saved t₀ t (remember before c.entity (Text.universalNewlines file)) all ∧
      c.entity ∈ (remember before c.entity (Text.universalNewlines file)).map Prod.fst := by
  rcases remember_cases before c.entity (Text.universalNewlines file) with ⟨hmem, heq⟩ | ⟨hmem, heq⟩
  · rw [heq]
    exact ⟨h, hmem⟩
  rw [heq, List.map_append]
  refine ⟨⟨fun e he => ?_, fun path hpath => ?_, ?_, fun e he => ?_⟩, List.mem_append_right _ List.mem_cons_self⟩
  · rcases List.mem_append.mp he with he | he
    · exact h.texts e he
    · rw [List.mem_singleton.mp he]
      exact ⟨file, h.rest _ hmem ▸ hfile, rfl⟩
  · rw [List.map_append, List.mem_append, not_or] at hpath
    exact h.rest path hpath.1
  · rw [List.map_append]
    refine List.nodup_append'.mpr ⟨h.nodup, List.nodup_singleton _, ?_⟩
    exact List.disjoint_singleton.mpr hmem
  · rcases List.mem_append.mp he with he | he
    · exact h.owned e he
    · rw [List.mem_singleton.mp he]
      exact ⟨c, hc, rfl⟩

theorem Saved.insert {t₀ t : Worktree} {before : List (Text × Text)} {all : List Candidate}
    (h : Saved t₀ t before all) {path : Text} (hpath : path ∈ before.map Prod.fst) (text : Text) :
    Saved t₀ (t.insert path text) before all := by
  refine ⟨h.texts, fun other hother => ?_, h.nodup, h.owned⟩
  have hne : other ≠ path := fun he => hother (he ▸ hpath)
  rw [AList.lookup_insert_ne hne]
  exact h.rest other hother

/-- the loop over the accepted candidates -/
theorem writeAliases_spec (hnfkd : R.nfkdAscii [] = []) (hlower : R.lower [] = [])
    (hday : ∀ t d, R.isoDate t = some d → R.isoDate d = some d)
    (hdump : ∀ m : Metadata, m.Plain R.showList → '\r' ∉ R.dump m) (hat : R.isoDate day = some day) (w : World)
    {t₀ : Worktree} {all cs : List Candidate} (hall : ∀ c ∈ cs, c ∈ all) (k : ℕ) {t : Worktree}
    {before : List (Text × Text)} {done : List (Text × Text)} (hprogress : Progress R day t₀ t done)
    (hsaved : Saved t₀ t before all) :
    Saved t₀ (writeAliases R w day k t before cs).tree (writeAliases R w day k t before cs).before all ∧
      ((writeAliases R w day k t before cs).fault = none →
        Progress R day t₀ (writeAliases R w day k t before cs).tree (done ++ cs.map Candidate.named)) := by
  induction cs generalizing k t before done with
  | nil =>
    refine ⟨hsaved, fun _ => ?_⟩
    rw [List.map_nil, List.append_nil]
    exact hprogress
  | cons c cs ih =>
    rw [writeAliases]
    cases hread : w.fault k with
    | some fault => exact ⟨hsaved, nofun⟩
    | none =>
      dsimp only
      cases hfile : t.lookup c.entity with
      | none => exact ⟨hsaved, nofun⟩
      | some file =>
        dsimp only
        obtain ⟨hsaved, hmem⟩ := hsaved.remember (hall c List.mem_cons_self) hfile
        cases hpage : parsePage R c.entity (Text.universalNewlines file) with
        | error e => exact ⟨hsaved, nofun⟩
        | ok page =>
          dsimp only
          cases hnew : renderPage R (withAlias day page c.text) with
          | error e => exact ⟨hsaved, nofun⟩
          | ok new =>
            dsimp only
            cases hwrite : w.fault (k + 1) with
            | some fault => exact ⟨hsaved.insert hmem _, nofun⟩
            | none =>
              dsimp only
              have hnext := hprogress.write hnfkd hlower hday hdump hat hfile hpage hnew
              have hstep := ih (fun d hd => hall d (List.mem_cons_of_mem c hd)) (k + 2) hnext (hsaved.insert hmem new)
              rw [List.append_assoc] at hstep
              exact hstep

/-- the loop that puts the pages back -/
theorem restore_eq {w : World} {before : List (Text × Text)} (k : ℕ) (t : Worktree)
    (hundo : ∀ j < before.length, w.undoFault (k + j) = none) (hnodup : (before.map Prod.fst).Nodup) :
    (restore w k t before).2 = none ∧ (∀ e ∈ before, (restore w k t before).1.lookup e.1 = some e.2) ∧
      ∀ path, path ∉ before.map Prod.fst → (restore w k t before).1.lookup path = t.lookup path := by
  induction before generalizing k t with
  | nil => exact ⟨rfl, fun e he => absurd he List.not_mem_nil, fun _ _ => rfl⟩
  | cons e before ih =>
    obtain ⟨path, text⟩ := e
    obtain ⟨hout, hnodup⟩ := List.nodup_cons.mp hnodup
    have hlater : ∀ j < before.length, w.undoFault (k + 1 + j) = none := fun j hj => by
      rw [Nat.add_assoc, Nat.add_comm 1 j]
      exact hundo (j + 1) (Nat.succ_lt_succ hj)
    obtain ⟨hfault, hback, hrest⟩ := ih (k + 1) (t.insert path text) hlater hnodup
    have hstep : restore w k t ((path, text) :: before) = restore w (k + 1) (t.insert path text) before := by
      rw [restore, show w.undoFault k = none from hundo 0 (Nat.succ_pos _)]
    rw [hstep]
    refine ⟨hfault, fun e he => ?_, fun other hother => ?_⟩
    · rcases List.mem_cons.mp he with rfl | he
      · rw [hrest path hout, AList.lookup_insert]
      · exact hback e he
    · rw [List.map_cons, List.mem_cons, not_or] at hother
      rw [hrest other hother.2, AList.lookup_insert_ne hother.1]

/-- pages put back are as they were exactly if they have no carriage return -/
theorem restored_iff {w : World} {t₀ t : Worktree} {before : List (Text × Text)} {all : List Candidate}
    (hundo : ∀ k < before.length, w.undoFault k = none) (h : Saved t₀ t before all) :
    (∀ path, (restore w 0 t before).1.lookup path = t₀.lookup path) ↔
      ∀ e ∈ before, '\r' ∉ (t₀.lookup e.1).getD [] := by
  obtain ⟨-, hback, hrest⟩ := restore_eq 0 t (fun j hj => (Nat.zero_add j).symm ▸ hundo j hj) h.nodup
  have hself : ∀ e ∈ before, (restore w 0 t before).1.lookup e.1 = t₀.lookup e.1 ↔
      '\r' ∉ (t₀.lookup e.1).getD [] := by
    intro e he
    obtain ⟨file, hfile, htext⟩ := h.texts e he
    rw [hback e he, hfile, htext, Option.some.injEq, Text.universalNewlines_eq_self]
    rfl
  constructor
  · intro hall e he
    exact (hself e he).mp (hall e.1)
  · intro hall path
    by_cases hpath : path ∈ before.map Prod.fst
    · obtain ⟨e, he, rfl⟩ := List.mem_map.mp hpath
      exact (hself e he).mpr (hall e he)
    · rw [hrest path hpath, h.rest path hpath]

/-! ## the run -/

/-- a name that is looked up in vain names no page -/
theorem not_answered {names : List (Text × Text)} {stems : Stems} {key : Text}
    (h : (names.foldl (addName R) stems).lookup key = none) :
    stems.lookup key = none ∧ ∀ n ∈ names, ¬(R.casefold n.1 = key ∧ key ≠ []) := by
  induction names generalizing stems with
  | nil => exact ⟨h, fun n hn => absurd hn List.not_mem_nil⟩
  | cons n names ih =>
    obtain ⟨hstep, hrest⟩ := ih h
    unfold addName at hstep
    dsimp only at hstep
    by_cases hempty : (R.casefold n.1).isEmpty = true
    · rw [if_pos hempty] at hstep
      refine ⟨hstep, fun m hm => ?_⟩
      rcases List.mem_cons.mp hm with rfl | hm
      · exact fun ⟨hkey, hne⟩ => hne (hkey ▸ List.isEmpty_iff.mp hempty)
      · exact hrest m hm
    · rw [if_neg hempty] at hstep
      have hne : key ≠ R.casefold n.1 := by
        rintro rfl
        rw [AList.lookup_insert] at hstep
        exact nomatch hstep
      rw [AList.lookup_insert_ne hne] at hstep
      refine ⟨hstep, fun m hm => ?_⟩
      rcases List.mem_cons.mp hm with rfl | hm
      · exact fun ⟨hkey, _⟩ => hne hkey.symm
      · exact hrest m hm

variable {w : World} {s : Step} {C : Contradictions.Codec}

theorem attempt_eq_some {a : Attempt} (h : attempt R w s = some a) :
    ∃ pages report, knownPages R w s = .ok pages ∧ decided R w s pages = .ok (report, chosen R w s) ∧
      a = writeAliases R w s.day 0 s.tree [] (chosen R w s) := by
  unfold attempt at h
  cases hknown : knownPages R w s with
  | error fault =>
    rw [hknown] at h
    exact nomatch h
  | ok pages =>
    rw [hknown] at h
    dsimp only at h
    cases hdecided : decided R w s pages with
    | error fault =>
      rw [hdecided] at h
      exact nomatch h
    | ok found =>
      obtain ⟨report, accepted⟩ := found
      rw [hdecided] at h
      have hchosen : chosen R w s = accepted := by
        unfold chosen
        rw [hknown]
        dsimp only
        rw [hdecided]
      exact ⟨pages, report, rfl, by rw [hdecided, hchosen], by rw [hchosen, ← Option.some.inj h]⟩

theorem accepted_toldAs (t : Worktree) (fault : Fault) (reasons : AList fun _ : Text => Text) :
    (⟨t, toldAs fault, reasons⟩ : Outcome).accepted = [] := by
  cases fault <;> rfl

theorem record_eq {pages : List KnowledgePage} {report : List Entry} {accepted : List Candidate} {a : Attempt}
    (h : decided R w s pages = .ok (report, accepted)) (ha : a = writeAliases R w s.day 0 s.tree [] accepted) :
    record R w s pages = match a.fault with
      | none => (a.tree, Except.ok (report, a.before))
      | some fault =>
        ((restore w 0 a.tree a.before).1, Except.error ((restore w 0 a.tree a.before).2.getD fault)) := by
  unfold record
  rw [h, ha]

/-- the step ends before it writes, it is undone, or it stands -/
theorem outcome_cases
    (hback : ∀ a, attempt R w s = some a → Undone R s C a → (restore w 0 a.tree a.before).2 = none) :
    (attempt R w s = none ∧ (recordAliases R w s C).tree = s.tree ∧ (recordAliases R w s C).accepted = []) ∨
      ∃ a, attempt R w s = some a ∧
        ((Undone R s C a ∧ (recordAliases R w s C).tree = (restore w 0 a.tree a.before).1 ∧
            (recordAliases R w s C).accepted = []) ∨
          (¬Undone R s C a ∧ a.fault = none ∧ (recordAliases R w s C).tree = a.tree ∧
            (recordAliases R w s C).accepted = (chosen R w s).map Candidate.named)) := by
  cases hattempt : attempt R w s with
  | none =>
    refine Or.inl ⟨rfl, ?_⟩
    unfold attempt at hattempt
    unfold recordAliases
    cases hknown : knownPages R w s with
    | error fault => exact ⟨rfl, accepted_toldAs _ _ _⟩
    | ok pages =>
      rw [hknown] at hattempt
      dsimp only at hattempt ⊢
      unfold record
      cases hdecided : decided R w s pages with
      | error fault => exact ⟨rfl, accepted_toldAs _ _ _⟩
      | ok found =>
        rw [hdecided] at hattempt
        exact nomatch hattempt
  | some a =>
    refine Or.inr ⟨a, rfl, ?_⟩
    have hback := hback a hattempt
    obtain ⟨pages, report, hknown, hdecided, ha⟩ := attempt_eq_some hattempt
    have hrecord := record_eq hdecided ha
    have hrun : recordAliases R w s C = (match record R w s pages with
        | (t, .error fault) => ⟨t, toldAs fault, s.reasons⟩
        | (t, .ok (report, before)) =>
          if before ≠ [] ∧ introduced R C t s.tolerated ≠ [] then
            match restore w 0 t before with
            | (back, some fault) => ⟨back, .error fault, s.reasons⟩
            | (back, none) => ⟨back, .ok (report.map Entry.revert), s.reasons⟩
          else
            ⟨t, .ok report, before.foldl (fun reasons e => Names.setdefault reasons e.1 ADDED_REASON) s.reasons⟩) := by
      unfold recordAliases
      rw [hknown]
    cases hfault : a.fault with
    | some fault =>
      rw [hfault] at hrecord
      dsimp only at hrecord
      rw [hback (Or.inl (by rw [hfault]; rfl)), Option.getD_none] at hrecord
      rw [hrecord] at hrun
      refine Or.inl ⟨Or.inl (by rw [hfault]; rfl), ?_, ?_⟩
      · rw [hrun]
      · rw [hrun]
        exact accepted_toldAs _ _ _
    | none =>
      rw [hfault] at hrecord
      dsimp only at hrecord
      rw [hrecord] at hrun
      dsimp only at hrun
      by_cases hgate : a.before ≠ [] ∧ introduced R C a.tree s.tolerated ≠ []
      · refine Or.inl ⟨Or.inr hgate, ?_⟩
        have hpair : restore w 0 a.tree a.before = ((restore w 0 a.tree a.before).1, none) := by
          rw [← hback (Or.inr hgate)]
        rw [if_pos hgate, hpair] at hrun
        rw [hrun]
        exact ⟨rfl, acceptedIn_revert report⟩
      · rw [if_neg hgate] at hrun
        refine Or.inr ⟨?_, rfl, ?_, ?_⟩
        · rintro (hsome | hnew)
          · rw [hfault] at hsome
            exact nomatch hsome
          · exact hgate hnew
        · rw [hrun]
        · rw [hrun]
          exact (decideAll_eq_ok hdecided).1

theorem chosen_fresh {pages : List KnowledgePage} {report : List Entry}
    (h : decided R w s pages = .ok (report, chosen R w s)) {c : Candidate} (hc : c ∈ chosen R w s) :
    Fresh R (entityPages R s.tree) (knowledgeLinkStems R pages [] s.context) (storesWhole s.view)
      (s.written.flatMap (addedIn R s.tree (entityPages R s.tree))) c :=
  fresh_of_mem (List.mem_rotate.mp ((decideAll_eq_ok h).2 c hc))

theorem namesFor_eq_nil {accepted : List (Text × Text)} {path : Text} (h : ∀ e ∈ accepted, e.1 ≠ path) :
    namesFor accepted path = [] := by
  rw [namesFor, List.map_eq_nil_iff, List.filter_eq_nil_iff]
  exact fun e he hkey => h e he (beq_iff_eq.mp hkey)

theorem told_nil {t t' : Worktree} : Told R day t t' [] ↔ ∀ path, t'.lookup path = t.lookup path :=
  ⟨fun h path => (h path).1 rfl, fun h path => ⟨fun _ => h path, fun hne => absurd rfl hne⟩⟩

/-- a step that has written nothing is sound exactly if no file has changed -/
theorem sound_of_nothing (h : (recordAliases R w s C).accepted = []) :
    Sound R w s C ↔ ∀ path, (recordAliases R w s C).tree.lookup path = s.tree.lookup path := by
  constructor
  · intro hsound
    have htold := hsound.told
    rw [h] at htold
    exact told_nil.mp htold
  · intro hall
    have hnone : ∀ e, e ∉ (recordAliases R w s C).accepted := by
      rw [h]
      exact fun _ => List.not_mem_nil
    exact
      { all_or_nothing := Or.inl h
        told := by
          rw [h]
          exact told_nil.mpr hall
        free := fun e he => absurd he (hnone e)
        unlinked := fun e he => absurd he (hnone e)
        apart := fun e he => absurd he (hnone e)
        whole := fun path _ => hall path }

/-- a step that stands gives no name twice exactly if its names are as `Plain` has them -/
theorem sound_of_standing {a : Attempt} (hattempt : attempt R w s = some a) (hstands : ¬Undone R s C a)
    (hprogress : Progress R s.day s.tree a.tree ((chosen R w s).map Candidate.named))
    (htree : (recordAliases R w s C).tree = a.tree)
    (haccepted : (recordAliases R w s C).accepted = (chosen R w s).map Candidate.named) :
    Sound R w s C ↔ Plain R w s C := by
  obtain ⟨pages, report, hknown, hdecided, -⟩ := attempt_eq_some hattempt
  have hfresh : ∀ c ∈ chosen R w s, _ := fun c hc => chosen_fresh hdecided hc
  have hone : ∀ b, attempt R w s = some b → b = a := fun b hb => Option.some.inj (hb.symm.trans hattempt)
  have hmem : ∀ c ∈ chosen R w s, c.named ∈ (recordAliases R w s C).accepted := fun c hc => by
    rw [haccepted]
    exact List.mem_map_of_mem hc
  constructor
  · intro h
    refine ⟨fun b hb hundone => ?_, fun _ _ _ c hc d hd hne => ?_, fun _ _ _ c hc => Or.inr ⟨fun other hother hne => ?_,
      fun d hd hne => ?_⟩⟩
    · rw [hone b hb] at hundone
      exact absurd hundone hstands
    · exact (h.apart _ (hmem c hc) _ (hmem d hd) hne).2
    · exact h.free _ (hmem c hc) other hother hne
    · exact (h.apart _ (hmem d hd) _ (hmem c hc) hne).1
  · intro h
    have hkeys := h.keys a hattempt hstands
    have hcandidate : ∀ e ∈ (recordAliases R w s C).accepted, ∃ c ∈ chosen R w s, c.named = e := fun e he => by
      rw [haccepted] at he
      exact List.mem_map.mp he
    refine ⟨Or.inr haccepted, ?_, fun e he other hother hne => ?_, fun e he others hothers n hn => ?_,
      fun e he f hf hne => ⟨?_, ?_⟩, fun path hpath => ?_⟩
    · rw [haccepted, htree]
      exact hprogress.told
    · obtain ⟨c, hc, rfl⟩ := hcandidate e he
      rcases hkeys c hc with hkey | hunshared
      · show writtenKey R c.text ∉ _
        rw [hkey]
        exact (hfresh c hc).free other hother hne
      · exact hunshared.1 other hother hne
    · obtain ⟨c, hc, rfl⟩ := hcandidate e he
      rw [hknown] at hothers
      obtain rfl := Except.ok.inj hothers
      exact (not_answered (hfresh c hc).unlinked).2 n hn
    · obtain ⟨c, hc, rfl⟩ := hcandidate e he
      obtain ⟨d, hd, rfl⟩ := hcandidate f hf
      rcases hkeys c hc with hckey | hunshared
      · rcases hkeys d hd with hdkey | hunshared
        · intro hsame
          refine hne ((hfresh c hc).one_entity (hfresh d hd) ?_)
          rw [← hckey, ← hdkey]
          exact hsame
        · exact hunshared.2 c hc hne
      · exact fun hsame => hunshared.2 d hd (Ne.symm hne) hsame.symm
    · obtain ⟨c, hc, rfl⟩ := hcandidate e he
      obtain ⟨d, hd, rfl⟩ := hcandidate f hf
      exact h.links a hattempt hstands c hc d hd hne
    · have hnames : namesFor ((chosen R w s).map Candidate.named) path = [] := by
        refine namesFor_eq_nil fun e he heq => ?_
        obtain ⟨c, hc, rfl⟩ := List.mem_map.mp he
        have hwhole := (hfresh c hc).eligible
        rw [show c.entity = path from heq, hpath] at hwhole
        exact nomatch hwhole
      rw [htree]
      exact (hprogress path).1 hnames

end

/-! ## a firm and its other name -/

def firm : KnowledgePage where
  path := "wiki/entities/Acme.md".toList
  pageId := "page_1".toList
  role := .entity
  title := "Acme".toList
  status := "seed".toList
  created := "2024-05-01".toList
  updated := "2024-05-02".toList
  acl := none
  sources := []
  body := "# Acme\n\nA firm.".toList
  entityType := some "organization".toList
  aliases := []

def meeting : KnowledgePage where
  path := "wiki/notes/Week.md".toList
  pageId := "page_2".toList
  role := .note
  title := "Week".toList
  status := "seed".toList
  created := "2024-05-01".toList
  updated := "2024-05-02".toList
  acl := none
  sources := []
  body := "# Week\n\nMet [[Acme|Acme  Labs]].".toList
  entityType := none
  aliases := []

def fileOf (page : KnowledgePage) : Text := ((renderPage ascii page).toOption).getD []

/-- a text with the line ends of another system -/
def withReturns (t : Text) : Text := t.flatMap fun c => if c = '\n' then ['\r', '\n'] else [c]

def weekStep (lineEnds : Text → Text) : Step where
  tree := ((∅ : Worktree).insert firm.path (lineEnds (fileOf firm))).insert meeting.path (fileOf meeting)
  view := ⟨Layers.PUBLIC, [], [], []⟩
  written := [(meeting.path, none)]
  context := ⟨none, none, true⟩
  tolerated := []
  reasons := ∅
  day := "2024-06-01".toList
  window := 10
  maxCandidates := 8
  start := 0

/-- a sure classifier, and a disk on which one operation fails -/
def sureWorld (failing : Option ℕ) : World where
  elapsed := fun _ => 0
  classify := fun _ _ _ => .probabilities [(ALIAS, 9 / 10), (OTHER, 1 / 10)]
  reading := none
  fault := fun k => if some k = failing then some (.caught "OSError".toList) else none
  torn := fun _ => []
  undoFault := fun _ => none
  undoTorn := fun _ => []

def noRecords : Contradictions.Codec := Contradictions.jsonCodec fun _ => []

/-- with a disk that works the name is written -/
example : (recordAliases ascii (sureWorld none) (weekStep id) noRecords).accepted =
    [(firm.path, "Acme  Labs".toList)] := by decide +kernel

end Aliases
