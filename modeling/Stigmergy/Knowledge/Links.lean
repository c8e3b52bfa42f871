import Stigmergy.Index.Rows
import Stigmergy.Kernel.Ascii
import Stigmergy.Lib.Checks
import Stigmergy.Knowledge.Lint
import Stigmergy.Knowledge.Nibbles

/-!
# Two readings of a link

The gates of a corpus fold the case of names, the index lowers it.

* `parsed_of_clean`, `known_iff`   the pages of a clean tree are the pages of the index;
* `meaning`                what `_relationship_violations` takes a name for;
* `mem_targets_iff`        the index reaches the pages among these whose lowered stem is the name;
* `agrees_iff`             the two agree exactly when lowered stems do.
-/

set_option linter.unusedSectionVars false

namespace Lint

open Corpus Pages

/-! ## paths -/

theorem endsWith_iff {suffix t : Text} : Text.endsWith suffix t = true ↔ suffix <:+ t := by
  unfold Text.endsWith
  exact List.isSuffixOf_iff_suffix

theorem startsWith_iff {p t : Text} : Text.startsWith p t = true ↔ p <+: t := by
  unfold Text.startsWith
  exact List.isPrefixOf_iff_prefix

section
variable (R : Runtime)

theorem zone_of_wikiType {vpath : Text} (h : (wikiType vpath).isSome = true) :
    Text.startsWith "wiki/".toList vpath = true ∧ Text.endsWith ".md".toList vpath = true := by
  have hpage : ∀ folder : String, "wiki/".toList <+: folder.toList →
      (Text.startsWith folder.toList vpath && Text.endsWith ".md".toList vpath &&
        folder.length + 3 < vpath.length && !(vpath.drop folder.length).contains '/') = true →
      Text.startsWith "wiki/".toList vpath = true ∧ Text.endsWith ".md".toList vpath = true := by
    intro folder hfolder hcond
    simp only [Bool.and_eq_true] at hcond
    exact ⟨startsWith_iff.mpr (hfolder.trans (startsWith_iff.mp hcond.1.1.1)), hcond.1.1.2⟩
  unfold wikiType at h
  dsimp only at h
  split at h
  · exact hpage "wiki/notes/" (by decide) ‹_›
  · split at h
    · exact hpage "wiki/concepts/" (by decide) ‹_›
    · split at h
      · exact hpage "wiki/entities/" (by decide) ‹_›
      · split at h
        · exact hpage "wiki/projects/" (by decide) ‹_›
        · exact nomatch h

/-- a text of the right length whose last places are tested for `s` ends with `s` -/
theorem suffix_of_zipWith {ps : List (Char → Bool)} {s t : Text} (hlen : t.length = ps.length + s.length)
    (h : (List.zipWith (fun p c => p c) (ps ++ s.map fun c d => d == c) t).all id = true) : s <:+ t := by
  have htake : ps.length = (t.take ps.length).length := by
    rw [List.length_take]
    omega
  rw [← List.take_append_drop ps.length t, List.zipWith_append htake, List.all_append,
    Bool.and_eq_true] at h
  have hdrop : t.drop ps.length = s := Text.eq_of_zipWith (by rw [List.length_drop]; omega) h.2
  rw [← hdrop]
  exact List.drop_suffix _ _

theorem zone_of_isSourcePath {vpath : Text} (h : isSourcePath R vpath = true) :
    Text.startsWith "sources/".toList vpath = true ∧ Text.endsWith ".md".toList vpath = true := by
  unfold isSourcePath at h
  simp only [Bool.and_eq_true, beq_iff_eq] at h
  obtain ⟨hsources, ⟨hlen, htests⟩, -⟩ := h
  refine ⟨hsources, endsWith_iff.mpr ?_⟩
  have hshape : sourceShape R = (sourceShape R).take 44 ++ ".md".toList.map fun c d => d == c := rfl
  rw [hshape] at htests
  exact (suffix_of_zipWith (by rw [hlen]; rfl) htests).trans (List.drop_suffix 8 vpath)

/-- the index reads Markdown files of the zones -/
theorem isMarkdownPath_of_isIndexable {path : Text} (h : isIndexablePage R path = true) :
    isMarkdownPath path = true := by
  unfold isIndexablePage at h
  cases hsplit : Layers.splitPath path with
  | none =>
    rw [hsplit] at h
    exact nomatch h
  | some found =>
    obtain ⟨layer, vpath⟩ := found
    rw [hsplit] at h
    have hzone : (Text.startsWith "wiki/".toList vpath || Text.startsWith "sources/".toList vpath) = true ∧
        Text.endsWith ".md".toList vpath = true := by
      rcases Bool.or_eq_true_iff.mp h with hwiki | hsource
      · have := zone_of_wikiType hwiki
        exact ⟨by rw [this.1, Bool.true_or], this.2⟩
      · have := zone_of_isSourcePath R hsource
        exact ⟨by rw [this.1, Bool.or_true], this.2⟩
    unfold Layers.splitPath at hsplit
    unfold isMarkdownPath
    dsimp only
    split at hsplit
    · rename_i hroot
      split at hsplit
      · rename_i name rest hcut
        split at hsplit
        · rename_i hname
          obtain ⟨rfl, rfl⟩ := Prod.mk.inj (Option.some.inj hsplit)
          have hrest : rest <:+ path := by
            have hdrop := List.drop_suffix 7 path
            rw [Layers.cutSlash_eq_some hcut] at hdrop
            exact ((List.suffix_cons '/' rest).trans (List.suffix_append name _)).trans hdrop
          have hne : name.isEmpty = false := by
            cases name with
            | nil => exact absurd hname (by simp [Layers.isLayerName, Layers.matchesName])
            | cons => rfl
          have hend := endsWith_iff.mpr ((endsWith_iff.mp hzone.2).trans hrest)
          simp only [hend, hroot, hcut, hne, hzone.1, Bool.true_and, Bool.not_false, Bool.or_true, if_true]
        · exact nomatch hsplit
      · exact nomatch hsplit
    · obtain ⟨rfl, rfl⟩ := Prod.mk.inj (Option.some.inj hsplit)
      rw [hzone.1, hzone.2]
      rfl

/-! ## the pages of a tree -/

theorem mem_markdownPages {t : Worktree} {path text : Text} : (path, text) ∈ markdownPages t ↔
    isMarkdownPath path = true ∧ ∃ raw, t.lookup path = some raw ∧ text = Text.universalNewlines raw := by
  unfold markdownPages
  rw [List.mem_filterMap]
  constructor
  · rintro ⟨q, hq, h⟩
    obtain ⟨raw, hraw, hpair⟩ := Option.map_eq_some_iff.mp h
    obtain ⟨rfl, rfl⟩ := Prod.mk.inj hpair
    exact ⟨(List.mem_filter.mp (mem_sortedSet.mp hq)).2, raw, hraw, rfl⟩
  · rintro ⟨hmd, raw, hraw, rfl⟩
    refine ⟨path, mem_sortedSet.mpr (List.mem_filter.mpr ⟨Table.mem_keys_iff.mpr ⟨raw, hraw⟩, hmd⟩), ?_⟩
    rw [hraw]
    rfl

theorem mem_parsedPages {files : List (Text × Text)} {page : CorpusPage} :
    page ∈ (parsedPages R files).1 ↔ ∃ f ∈ files, parseCorpusPage R f.1 f.2 = .ok page := by
  induction files with
  | nil => exact ⟨nofun, fun ⟨f, hf, _⟩ => nomatch hf⟩
  | cons f files ih =>
    obtain ⟨path, text⟩ := f
    unfold parsedPages
    cases hparse : parseCorpusPage R path text with
    | error e =>
      dsimp only
      rw [ih, List.exists_mem_cons_iff, hparse]
      exact ⟨Or.inr, fun h => h.resolve_left nofun⟩
    | ok other =>
      dsimp only
      rw [List.mem_cons, ih, List.exists_mem_cons_iff, hparse]
      exact or_congr_left ⟨fun e => by rw [e], fun e => (Except.ok.inj e).symm⟩

theorem parses_of_clean {files : List (Text × Text)} (h : (parsedPages R files).2 = []) :
    ∀ f ∈ files, ∃ page, parseCorpusPage R f.1 f.2 = .ok page := by
  induction files with
  | nil => exact nofun
  | cons f files ih =>
    obtain ⟨path, text⟩ := f
    unfold parsedPages at h
    cases hparse : parseCorpusPage R path text with
    | error e =>
      rw [hparse] at h
      exact nomatch h
    | ok page =>
      rw [hparse] at h
      rintro f (_ | ⟨_, hf⟩)
      · exact ⟨page, hparse⟩
      · exact ih h f hf

theorem isUnsafe_dashRuns {b : Bool} {t : Text} : ∀ c ∈ dashRuns b t, isUnsafe c = false := by
  induction t generalizing b with
  | nil => exact nofun
  | cons d t ih =>
    intro c hc
    unfold dashRuns at hc
    split at hc
    · split at hc
      · exact ih c hc
      · rcases List.mem_cons.mp hc with rfl | hc
        · rfl
        · exact ih c hc
    · rename_i hd
      rcases List.mem_cons.mp hc with rfl | hc
      · exact Bool.eq_false_iff.mpr hd
      · exact ih c hc

/-- the name of a file holds nothing a link cannot hold -/
theorem isUnsafe_titleStem {title : Text} : ∀ c ∈ titleStem R title, isUnsafe c = false := by
  intro c hc
  exact isUnsafe_dashRuns c ((List.dropWhile_suffix _).subset ((List.rdropWhile_prefix _ _).subset hc))

theorem pagePath_eq_ok {role : Role} {title vpath : Text} (h : pagePath R role title = .ok vpath) :
    titleStem R title ≠ [] ∧ vpath = role.folder ++ '/' :: titleStem R title ++ ".md".toList := by
  unfold pagePath at h
  dsimp only at h
  split at h
  · exact nomatch h
  · rename_i hne
    split at h
    · exact nomatch h
    · exact ⟨fun e => hne (by rw [e]; rfl), (Except.ok.inj h).symm⟩

theorem wikiType_pagePath {role : Role} {title vpath : Text} (h : pagePath R role title = .ok vpath) :
    (wikiType vpath).isSome = true := by
  obtain ⟨hne, rfl⟩ := pagePath_eq_ok R h
  set name := titleStem R title with hname
  have hslash : List.contains (name ++ ".md".toList) '/' = false := by
    rw [Bool.eq_false_iff, ne_eq, List.contains_iff_mem, List.mem_append, not_or]
    refine ⟨fun hmem => ?_, by decide⟩
    exact absurd (isUnsafe_titleStem R _ hmem) (by decide)
  have hlen : 0 < name.length := List.length_pos_of_ne_nil hne
  have hend : Text.endsWith ".md".toList (role.folder ++ '/' :: name ++ ".md".toList) = true :=
    endsWith_iff.mpr (List.suffix_append _ _)
  have hstart : Text.startsWith (role.folder ++ ['/']) (role.folder ++ '/' :: name ++ ".md".toList) =
      true := startsWith_iff.mpr ⟨name ++ ".md".toList, by simp⟩
  have hcond : (Text.startsWith (role.folder ++ ['/']) (role.folder ++ '/' :: name ++ ".md".toList) &&
      Text.endsWith ".md".toList (role.folder ++ '/' :: name ++ ".md".toList) &&
      (role.folder ++ ['/']).length + 3 < (role.folder ++ '/' :: name ++ ".md".toList).length &&
      !((role.folder ++ '/' :: name ++ ".md".toList).drop (role.folder ++ ['/']).length).contains '/') =
      true := by
    have hdrop : (role.folder ++ '/' :: name ++ ".md".toList).drop (role.folder ++ ['/']).length =
        name ++ ".md".toList := by
      have hassoc : role.folder ++ '/' :: name ++ ".md".toList =
          (role.folder ++ ['/']) ++ (name ++ ".md".toList) := by simp
      rw [hassoc, List.drop_left]
    rw [hstart, hend, hdrop, hslash]
    simp
    omega
  unfold wikiType
  dsimp only
  split
  · rfl
  · rename_i hnotes
    split
    · rfl
    · rename_i hconcepts
      split
      · rfl
      · rename_i hentities
        split
        · rfl
        · rename_i hprojects
          cases role with
          | note => exact absurd hcond hnotes
          | concept => exact absurd hcond hconcepts
          | entity => exact absurd hcond hentities
          | project => exact absurd hcond hprojects

/-- a page that parses is one the index reads -/
structure PageAt (path text : Text) (page : CorpusPage) : Prop where
  split : Layers.splitPath path = some (page.layer, page.vpath)
  indexable : isIndexablePage R path = true
  path : page.path = path
  text : page.text = text

theorem isIndexablePage_of_split {path layer vpath : Text} (h : Layers.splitPath path = some (layer, vpath))
    (hv : ((wikiType vpath).isSome || isSourcePath R vpath) = true) : isIndexablePage R path = true := by
  unfold isIndexablePage
  rw [h]
  exact hv

theorem path_parsePage {path text : Text} {page : KnowledgePage} (h : parsePage R path text = .ok page) :
    ∃ role title, pagePath R role title = .ok path := by
  unfold parsePage at h
  split at h
  split at h
  · exact nomatch h
  · split at h
    · exact nomatch h
    · rename_i role title status _
      cases hpath : pagePath R role title with
      | error e =>
        rw [hpath] at h
        exact nomatch h
      | ok expected =>
        rw [hpath] at h
        dsimp only at h
        split at h
        · exact nomatch h
        · rename_i hsame
          exact ⟨role, title, by rw [hpath, not_ne_iff.mp hsame]⟩

theorem path_parseSource {path text : Text} {source : SourceDocument}
    (h : parseSource R path text = .ok source) : isSourcePath R path = true := by
  unfold parseSource at h
  split at h
  split at h
  · exact nomatch h
  · rename_i hcond
    simp only [Bool.or_eq_true, not_or, Bool.not_eq_true', Bool.not_eq_false] at hcond
    exact hcond.1.1

theorem text_parseSource {path text : Text} {source : SourceDocument}
    (h : parseSource R path text = .ok source) : source.text = text := by
  unfold parseSource at h
  split at h
  rename_i metadata body malformed hfront
  obtain ⟨-, h⟩ := Checks.of_ite_error h
  obtain ⟨-, h⟩ := Checks.of_ite_error h
  cases hfound : sourceRefusal R path metadata body with
  | error e =>
    rw [hfound] at h
    exact nomatch h
  | ok found =>
    rw [hfound] at h
    dsimp only at h
    obtain ⟨-, h⟩ := Checks.of_ite_error h
    cases hacl : sourceAcl (metadata.get "acl") with
    | error e =>
      rw [hacl] at h
      exact nomatch h
    | ok acl =>
      rw [hacl] at h
      obtain rfl := Except.ok.inj h
      rfl

theorem pageAt_of_parse {path text : Text} {page : CorpusPage}
    (h : parseCorpusPage R path text = .ok page) : PageAt R path text page := by
  unfold parseCorpusPage at h
  cases hsplit : Layers.splitPath path with
  | none =>
    rw [hsplit] at h
    exact nomatch h
  | some found =>
    obtain ⟨layer, vpath⟩ := found
    rw [hsplit] at h
    dsimp only at h
    split at h
    · exact nomatch h
    · rename_i other hother
      split at h
      · exact nomatch h
      · obtain rfl := Except.ok.inj h
        split at hother
        · cases hpage : parsePage R vpath text with
          | error e =>
            rw [hpage] at hother
            exact nomatch hother
          | ok page =>
            rw [hpage] at hother
            obtain rfl := Except.ok.inj hother
            obtain ⟨role, title, hpath⟩ := path_parsePage R hpage
            exact ⟨hsplit, isIndexablePage_of_split R hsplit
              (by rw [wikiType_pagePath R hpath, Bool.true_or]), rfl, rfl⟩
        · split at hother
          · cases hsource : parseSource R vpath text with
            | error e =>
              rw [hsource] at hother
              exact nomatch hother
            | ok source =>
              rw [hsource] at hother
              obtain rfl := Except.ok.inj hother
              exact ⟨hsplit, isIndexablePage_of_split R hsplit
                (by rw [path_parseSource R hsource, Bool.or_true]), rfl, text_parseSource R hsource⟩
          · exact nomatch hother

/-! ## clean trees -/

variable (C : Contradictions.Codec)

/-- the pages `check` reads -/
def pagesOf (t : Worktree) : List CorpusPage := (parsedPages R (markdownPages t)).1

theorem violationsOf_of_clean {t : Worktree} {editorialPaths : List Text} (h : check R C t editorialPaths = []) :
    violationsOf R C (markdownPages t) editorialPaths = [] := by
  refine List.eq_nil_iff_forall_not_mem.mpr fun v hv => ?_
  have hmem : Violation.ofSortKey (Violation.sortKey v) ∈ check R C t editorialPaths :=
    List.mem_map_of_mem (mem_sortedSet.mpr (List.mem_map_of_mem hv))
  rw [h] at hmem
  exact nomatch hmem

theorem parsed_of_clean {t : Worktree} {editorialPaths : List Text} (h : check R C t editorialPaths = []) :
    ∀ f ∈ markdownPages t, ∃ page ∈ pagesOf R t, PageAt R f.1 f.2 page := by
  have hnone := violationsOf_of_clean R C h
  unfold violationsOf at hnone
  simp only [List.append_eq_nil_iff] at hnone
  intro f hf
  obtain ⟨page, hpage⟩ := parses_of_clean R hnone.1.1.1.1 f hf
  exact ⟨page, (mem_parsedPages R).mpr ⟨f, hf, hpage⟩, pageAt_of_parse R hpage⟩

theorem pageAt_of_mem {t : Worktree} {page : CorpusPage} (h : page ∈ pagesOf R t) :
    ∃ f ∈ markdownPages t, PageAt R f.1 f.2 page := by
  obtain ⟨f, hf, hparse⟩ := (mem_parsedPages R).mp h
  exact ⟨f, hf, pageAt_of_parse R hparse⟩

/-- the virtual paths the index knows in a layer are those of the pages of a clean tree -/
theorem known_iff {t : Worktree} {editorialPaths : List Text} (h : check R C t editorialPaths = [])
    (layer vpath : Text) :
    (∃ path ∈ Corpus.pathsOf R t, Layers.splitPath path = some (layer, vpath)) ↔
      ∃ page ∈ pagesOf R t, page.layer = layer ∧ page.vpath = vpath := by
  constructor
  · rintro ⟨path, hpath, hsplit⟩
    obtain ⟨hz, hne⟩ := (mem_pathsOf R).mp hpath
    obtain ⟨raw, hraw⟩ := Option.ne_none_iff_exists'.mp hne
    have hfile : (path, Text.universalNewlines raw) ∈ markdownPages t :=
      mem_markdownPages.mpr ⟨isMarkdownPath_of_isIndexable R hz, raw, hraw, rfl⟩
    obtain ⟨page, hpage, hat⟩ := parsed_of_clean R C h _ hfile
    obtain ⟨hl, hv⟩ := Prod.mk.inj (Option.some.inj (hat.split.symm.trans hsplit))
    exact ⟨page, hpage, hl, hv⟩
  · rintro ⟨page, hpage, rfl, rfl⟩
    obtain ⟨f, hf, hat⟩ := pageAt_of_mem R hpage
    obtain ⟨-, raw, hraw, -⟩ := mem_markdownPages.mp hf
    exact ⟨f.1, (mem_pathsOf R).mpr ⟨hat.indexable, by rw [hraw]; exact nofun⟩, hat.split⟩

/-! ## what a name means -/

/-- what `_relationship_violations` takes a name for -/
inductive Meaning where
  | dead | ambiguous | apart
  | one (vpath : Text)
deriving DecidableEq

/-- the pages that answer to a name in each layer a page sees -/
def answers (pages : List CorpusPage) (layer name : Text) : List (List CorpusPage) :=
  (scopeOf layer).map fun l => byStem R pages l (R.casefold name)

/-- the virtual paths that answer to a name -/
def named (pages : List CorpusPage) (layer name : Text) : List Text :=
  vpathsOf (answers R pages layer name).flatten

def meaning (pages : List CorpusPage) (layer name : Text) : Meaning :=
  if (answers R pages layer name).flatten.isEmpty then .dead
  else if (answers R pages layer name).any fun found => 1 < (vpathsOf found).length then .ambiguous
  else
    match named R pages layer name with
    | [vpath] => .one vpath
    | _ => .apart

/-- a link is reported when its name is nobody's, or that of two pages of one layer -/
theorem meaning_of_linkViolations {pages : List CorpusPage} {page : CorpusPage} {target : Text}
    (h : linkViolations R pages page target = []) :
    meaning R pages page.layer target ≠ .dead ∧ meaning R pages page.layer target ≠ .ambiguous := by
  unfold linkViolations at h
  dsimp only at h
  split at h
  · exact nomatch h
  · rename_i hcond
    rw [Bool.or_eq_true, not_or] at hcond
    have hsome : ¬(answers R pages page.layer target).flatten.isEmpty = true := hcond.1
    have hfew : ¬((answers R pages page.layer target).any fun found => 1 < (vpathsOf found).length) = true :=
      hcond.2
    unfold meaning
    rw [if_neg hsome, if_neg hfew]
    split
    · exact ⟨nofun, nofun⟩
    · exact ⟨nofun, nofun⟩

theorem links_of_relationshipsFrom {pages rest : List CorpusPage} {ids : List (Text × Text)}
    (h : relationshipsFrom R C pages ids rest = []) {page : CorpusPage} (hpage : page ∈ rest)
    (htype : page.pageType ≠ .source) {target : Text} (htarget : target ∈ linkTargets R page.text) :
    linkViolations R pages page target = [] := by
  induction rest generalizing ids with
  | nil => exact nomatch hpage
  | cons other rest ih =>
    unfold relationshipsFrom at h
    rcases List.mem_cons.mp hpage with rfl | hpage
    · rw [if_neg htype, List.append_eq_nil_iff] at h
      have hlinks : (linkTargets R page.text).flatMap (linkViolations R pages page) = [] := by
        have hpv := h.1
        unfold pageViolations at hpv
        dsimp only at hpv
        split at hpv
        · simp only [List.append_eq_nil_iff] at hpv
          exact hpv.1.1
        · simp only [List.append_eq_nil_iff] at hpv
          exact hpv.1.1
      exact List.flatMap_eq_nil_iff.mp hlinks target htarget
    · split at h
      · exact ih h hpage
      · exact ih (List.append_eq_nil_iff.mp h).2 hpage

/-- lint has read every link of a page that is not a source -/
theorem meaning_of_clean {t : Worktree} {editorialPaths : List Text} (h : check R C t editorialPaths = [])
    {page : CorpusPage} (hpage : page ∈ pagesOf R t) (htype : page.pageType ≠ .source) {target : Text}
    (htarget : target ∈ linkTargets R page.text) :
    meaning R (pagesOf R t) page.layer target ≠ .dead ∧
      meaning R (pagesOf R t) page.layer target ≠ .ambiguous := by
  have hnone := violationsOf_of_clean R C h
  unfold violationsOf at hnone
  simp only [List.append_eq_nil_iff] at hnone
  exact meaning_of_linkViolations R (links_of_relationshipsFrom R C hnone.1.2 hpage htype htarget)

theorem mem_named {pages : List CorpusPage} {layer name vpath : Text} :
    vpath ∈ named R pages layer name ↔
      (∃ l ∈ scopeOf layer, ∃ page ∈ pages, page.layer = l ∧ page.vpath = vpath) ∧
        R.casefold (stem vpath) = R.casefold name := by
  unfold named vpathsOf answers byStem
  simp only [List.mem_dedup, List.mem_map, List.mem_flatten, exists_exists_and_eq_and, List.mem_filter,
    Bool.and_eq_true, beq_iff_eq]
  constructor
  · rintro ⟨page, ⟨l, hl, hpage, hlayer, hname⟩, rfl⟩
    exact ⟨⟨l, hl, page, hpage, hlayer, rfl⟩, hname⟩
  · rintro ⟨⟨l, hl, page, hpage, hlayer, rfl⟩, hname⟩
    exact ⟨page, ⟨l, hl, hpage, hlayer, hname⟩, rfl⟩

/-- folding forgets what lowering does -/
def Folds : Prop := ∀ s, R.casefold (R.lower s) = R.casefold s

theorem scope_eq {path layer vpath : Text} (h : Layers.splitPath path = some (layer, vpath)) :
    scope path = scopeOf layer := by
  have hlayer : layerOf path = layer := by
    unfold layerOf
    rw [h]
    rfl
  unfold scope scopeOf
  rw [hlayer]

/-- the index reaches the pages that answer to the name whose stem is the name in lower case -/
theorem mem_targets_iff (hfold : Folds R) {t : Worktree} {editorialPaths : List Text}
    (h : check R C t editorialPaths = []) {page : CorpusPage} (hpage : page ∈ pagesOf R t)
    (name vpath : Text) : vpath ∈ targets R (Corpus.pathsOf R t) page.path name ↔
      vpath ∈ named R (pagesOf R t) page.layer name ∧ R.lower (stem vpath) = name := by
  obtain ⟨f, hf, hat⟩ := pageAt_of_mem R hpage
  rw [mem_targets, mem_named, hat.path, scope_eq hat.split]
  simp only [known_iff R C h]
  constructor
  · rintro ⟨hknown, hname⟩
    exact ⟨⟨hknown, by rw [← hname, hfold]⟩, hname⟩
  · rintro ⟨⟨hknown, -⟩, hname⟩
    exact ⟨hknown, hname⟩

theorem nodup_named (pages : List CorpusPage) (layer name : Text) : (named R pages layer name).Nodup :=
  List.nodup_dedup _

theorem meaning_eq_one {pages : List CorpusPage} {layer name vpath : Text}
    (h : meaning R pages layer name = .one vpath) : named R pages layer name = [vpath] := by
  unfold meaning at h
  split at h
  · exact nomatch h
  · split at h
    · exact nomatch h
    · split at h
      · rename_i found hfound
        rw [hfound, Meaning.one.inj h]
      · exact nomatch h

theorem meaning_of_named {pages : List CorpusPage} {layer name vpath : Text}
    (hdead : meaning R pages layer name ≠ .dead) (hambiguous : meaning R pages layer name ≠ .ambiguous)
    (h : named R pages layer name = [vpath]) : meaning R pages layer name = .one vpath := by
  unfold meaning at hdead hambiguous ⊢
  split at hdead
  · exact absurd rfl hdead
  · rename_i hsome
    rw [if_neg hsome] at hambiguous ⊢
    split at hambiguous
    · exact absurd rfl hambiguous
    · rename_i hfew
      rw [if_neg hfew, h]

theorem reached_eq_some {paths : List Text} {own name vpath : Text} :
    reached R paths own name = some vpath ↔
      targets R paths own name = [vpath] ∧ some vpath ≠ (Layers.splitPath own).map (·.2) := by
  unfold reached
  split
  · rename_i v hv
    rw [hv, List.cons.injEq, and_iff_left rfl]
    split
    · rename_i hown
      refine ⟨nofun, ?_⟩
      rintro ⟨rfl, hne⟩
      exact absurd hown hne
    · rename_i hown
      rw [Option.some.injEq]
      refine ⟨?_, fun e => e.1⟩
      rintro rfl
      exact ⟨rfl, hown⟩
  · rename_i hnot
    exact ⟨nofun, fun e => absurd e.1 (hnot vpath)⟩

theorem resolveLinks_singleton {paths : List Text} {own name vpath : Text} :
    resolveLinks R paths own [name] = [vpath] ↔ reached R paths own name = some vpath := by
  unfold resolveLinks
  cases h : reached R paths own name with
  | none =>
    rw [List.filterMap_cons_none h]
    exact ⟨nofun, nofun⟩
  | some v =>
    rw [List.filterMap_cons_some h, List.filterMap_nil, sortedSet_singleton, List.cons.injEq,
      and_iff_left rfl, Option.some.injEq]

theorem resolveLinks_eq_nil {paths : List Text} {own name : Text} :
    resolveLinks R paths own [name] = [] ↔ reached R paths own name = none := by
  unfold resolveLinks
  cases h : reached R paths own name with
  | none =>
    rw [List.filterMap_cons_none h]
    exact ⟨fun _ => rfl, fun _ => rfl⟩
  | some v =>
    rw [List.filterMap_cons_some h, List.filterMap_nil, sortedSet_singleton]
    exact ⟨nofun, nofun⟩

/-! ## agreement -/

/-- the index takes a link of a page for what lint takes it for; a link to the page itself is none -/
structure Agrees (t : Worktree) (page : CorpusPage) (target : Text) : Prop where
  one : ∀ vpath, vpath ≠ page.vpath →
    (resolveLinks R (Corpus.pathsOf R t) page.path [target] = [vpath] ↔
      meaning R (pagesOf R t) page.layer target = .one vpath)
  none : resolveLinks R (Corpus.pathsOf R t) page.path [target] = [] ↔
    meaning R (pagesOf R t) page.layer target = .apart ∨
      meaning R (pagesOf R t) page.layer target = .one page.vpath

/-- lowering finds the pages that folding finds, as far as it matters -/
structure SameNames (t : Worktree) (page : CorpusPage) (target : Text) : Prop where
  /-- lint does not read the links of sources -/
  source : page.pageType = .source → meaning R (pagesOf R t) page.layer target ≠ .dead ∧
    meaning R (pagesOf R t) page.layer target ≠ .ambiguous
  one : ∀ vpath, meaning R (pagesOf R t) page.layer target = .one vpath → vpath ≠ page.vpath →
    R.lower (stem vpath) = target
  apart : meaning R (pagesOf R t) page.layer target = .apart →
    ∀ vpath ∈ named R (pagesOf R t) page.layer target, vpath ≠ page.vpath →
      R.lower (stem vpath) = target → ∃ other ∈ named R (pagesOf R t) page.layer target,
        other ≠ vpath ∧ R.lower (stem other) = target

/-- lint and the index agree on a link exactly when lowering finds what folding finds -/
theorem agrees_iff (hfold : Folds R) {t : Worktree} {editorialPaths : List Text}
    (h : check R C t editorialPaths = []) {page : CorpusPage} (hpage : page ∈ pagesOf R t)
    {target : Text} (htarget : target ∈ linkTargets R page.text) :
    Agrees R t page target ↔ SameNames R t page target := by
  set m := meaning R (pagesOf R t) page.layer target
  set l := named R (pagesOf R t) page.layer target with hl
  have hown : (Layers.splitPath page.path).map (·.2) = some page.vpath := by
    obtain ⟨f, -, hat⟩ := pageAt_of_mem R hpage
    rw [hat.path, hat.split]
    rfl
  have hreached : ∀ v, reached R (Corpus.pathsOf R t) page.path target = some v ↔
      (v ∈ l ∧ R.lower (stem v) = target) ∧ (∀ w ∈ l, R.lower (stem w) = target → w = v) ∧
        v ≠ page.vpath := by
    intro v
    have hnodup : (targets R (Corpus.pathsOf R t) page.path target).Nodup := List.nodup_dedup _
    rw [reached_eq_some, hown, eq_singleton_of_nodup hnodup, mem_targets_iff R C hfold h hpage,
      ne_eq, Option.some.injEq, and_assoc]
    simp only [mem_targets_iff R C hfold h hpage, and_imp]
    rfl
  have hone : ∀ v, m = .one v → ∀ w ∈ l, w = v := by
    intro v hv w hw
    rw [hl, meaning_eq_one R hv] at hw
    exact List.mem_singleton.mp hw
  have hmem : ∀ v, m = .one v → v ∈ l := by
    intro v hv
    rw [hl, meaning_eq_one R hv]
    exact List.mem_singleton_self v
  constructor
  · intro ha
    refine ⟨fun _ => ?_, fun v hv hne => ?_, fun hv v hvl hne hlow => ?_⟩
    · -- a name the index resolves or leaves is one that lint counts
      cases hr : reached R (Corpus.pathsOf R t) page.path target with
      | none =>
        rcases ha.none.mp ((resolveLinks_eq_nil R).mpr hr) with e | e
        · rw [e]
          exact ⟨nofun, nofun⟩
        · rw [e]
          exact ⟨nofun, nofun⟩
      | some v =>
        rw [(ha.one v ((hreached v).mp hr).2.2).mp ((resolveLinks_singleton R).mpr hr)]
        exact ⟨nofun, nofun⟩
    · exact ((hreached v).mp ((resolveLinks_singleton R).mp ((ha.one v hne).mpr hv))).1.2
    · by_contra hno
      have hr := (hreached v).mpr ⟨⟨hvl, hlow⟩, fun w hw hwlow => by
        by_contra hwv
        exact hno ⟨w, hw, hwv, hwlow⟩, hne⟩
      rw [(resolveLinks_eq_nil R).mp (ha.none.mpr (Or.inl hv))] at hr
      exact nomatch hr
  · intro hs
    have hread : m ≠ .dead ∧ m ≠ .ambiguous := by
      by_cases htype : page.pageType = .source
      · exact hs.source htype
      · exact meaning_of_clean R C h hpage htype htarget
    have hsome : ∀ v, reached R (Corpus.pathsOf R t) page.path target = some v ↔
        m = .one v ∧ v ≠ page.vpath := by
      intro v
      rw [hreached]
      constructor
      · rintro ⟨⟨hvl, hlow⟩, hall, hne⟩
        refine ⟨?_, hne⟩
        cases hcase : m with
        | dead => exact absurd hcase hread.1
        | ambiguous => exact absurd hcase hread.2
        | one w => rw [hone w hcase v hvl]
        | apart =>
          obtain ⟨w, hw, hwv, hwlow⟩ := hs.apart hcase v hvl hne hlow
          exact absurd (hall w hw hwlow) hwv
      · rintro ⟨hv, hne⟩
        exact ⟨⟨hmem v hv, hs.one v hv hne⟩, fun w hw _ => hone v hv w hw, hne⟩
    refine ⟨fun v hne => ?_, ?_⟩
    · rw [resolveLinks_singleton, hsome, and_iff_left hne]
    · rw [resolveLinks_eq_nil, Option.eq_none_iff_forall_ne_some]
      constructor
      · intro hnone
        cases hcase : m with
        | dead => exact absurd hcase hread.1
        | ambiguous => exact absurd hcase hread.2
        | apart => exact Or.inl hcase
        | one v =>
          by_cases hv : v = page.vpath
          · exact Or.inr (hv ▸ hcase)
          · exact absurd ((hsome v).mpr ⟨hcase, hv⟩) (hnone v)
      · rintro (hcase | hcase) v hr
        · exact nomatch hcase.symm.trans ((hsome v).mp hr).1
        · exact ((hsome v).mp hr).2 (Meaning.one.inj (hcase.symm.trans ((hsome v).mp hr).1)).symm

end

/-! ## a name with a sharp s -/

/-- folding writes a sharp s as two letters, lowering leaves it -/
def foldChar (c : Char) : Text := if c = 'ß' then ['s', 's'] else [Ascii.lowerChar c]

def german : Runtime := { ascii with casefold := fun t => t.flatMap foldChar }

def streetNote : Text := "wiki/notes/Straße.md".toList
def linkNote : Text := "wiki/notes/First.md".toList

/-- a note that links to another by a name -/
def linkedTree (name : String) : Worktree :=
  ((∅ : Worktree).insert linkNote (Ascii.note "First" [] ("See [[" ++ name ++ "]]."))).insert streetNote
    (Ascii.note "Straße" [] "Hello.")

def linkPage (R : Runtime) (t : Worktree) : Option CorpusPage :=
  (pagesOf R t).find? fun page => page.path == linkNote

/-- lint takes the link for the street, and the index leaves it as text -/
theorem not_agrees :
    ∃ page ∈ pagesOf german (linkedTree "Strasse"), check german nibbles (linkedTree "Strasse") [] = [] ∧
      linkTargets german page.text = ["strasse".toList] ∧
      meaning german (pagesOf german (linkedTree "Strasse")) page.layer "strasse".toList =
        .one streetNote ∧
      resolveLinks german (Corpus.pathsOf german (linkedTree "Strasse")) page.path ["strasse".toList] = [] := by
  have hclean : check german nibbles (linkedTree "Strasse") [] = [] := by decide +kernel
  have hpage : (linkPage german (linkedTree "Strasse")).any (fun page =>
      linkTargets german page.text == ["strasse".toList] &&
      meaning german (pagesOf german (linkedTree "Strasse")) page.layer "strasse".toList == .one streetNote &&
      resolveLinks german (Corpus.pathsOf german (linkedTree "Strasse")) page.path ["strasse".toList] == []) =
        true := by decide +kernel
  obtain ⟨page, hfind, h⟩ := (Option.any_eq_true _ _).mp hpage
  simp only [Bool.and_eq_true, beq_iff_eq] at h
  unfold linkPage at hfind
  have hmem : page ∈ pagesOf german (linkedTree "Strasse") := List.mem_of_find?_eq_some hfind
  exact ⟨page, hmem, hclean, h.1.1, h.1.2, h.2⟩

theorem folds_german : Folds german := by
  intro s
  show (s.map Ascii.lowerChar).flatMap foldChar = s.flatMap foldChar
  rw [List.flatMap_map]
  refine List.flatMap_congr fun c _ => ?_
  have hsharp : Ascii.lowerChar c = 'ß' ↔ c = 'ß' := by
    rcases Ascii.lowerChar_or c with h | h
    · rw [h]
    · have hall : ∀ d ∈ Ascii.capitals, (Ascii.lowerChar d = 'ß' ↔ d = 'ß') := by decide
      exact hall c h
  unfold foldChar
  rw [Ascii.lowerChar_lowerChar]
  simp only [hsharp]

/-- by its own name the street is found -/
theorem agrees_street :
    ∃ page ∈ pagesOf german (linkedTree "Straße"), Agrees german (linkedTree "Straße") page "straße".toList := by
  have hclean : check german nibbles (linkedTree "Straße") [] = [] := by decide +kernel
  have hpage : (linkPage german (linkedTree "Straße")).any (fun page =>
      linkTargets german page.text == ["straße".toList] && page.pageType != .source &&
      meaning german (pagesOf german (linkedTree "Straße")) page.layer "straße".toList == .one streetNote) =
        true := by decide +kernel
  obtain ⟨page, hfind, h⟩ := (Option.any_eq_true _ _).mp hpage
  simp only [Bool.and_eq_true, beq_iff_eq, bne_iff_ne] at h
  obtain ⟨⟨htargets, htype⟩, hmeaning⟩ := h
  unfold linkPage at hfind
  have hmem : page ∈ pagesOf german (linkedTree "Straße") := List.mem_of_find?_eq_some hfind
  refine ⟨page, hmem, (agrees_iff german nibbles folds_german hclean hmem
    (by rw [htargets]; exact List.mem_singleton_self _)).mpr ⟨fun e => absurd e htype, ?_, ?_⟩⟩
  · intro vpath hv _
    rw [hmeaning] at hv
    rw [← Meaning.one.inj hv]
    decide +kernel
  · intro hapart
    rw [hmeaning] at hapart
    exact nomatch hapart

end Lint
