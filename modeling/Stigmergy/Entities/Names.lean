import Stigmergy.Knowledge.Layered
import Stigmergy.Knowledge.Context
import Stigmergy.Knowledge.Links
import Stigmergy.Knowledge.PageCodec

/-!
# Names of entities

`entities/service.py` and the loop of `knowledge/writer.py` that drops creations: what happens to a
name that another entity answers to.

* `Unicode`            what Unicode says of a name, and `letters`, what is left of it without case, accents,
                       punctuation and white space;
* `skipClaimedNames`   `_skip_claimed_names`;
* `renameEntity`       `rename_entity`, as the writer calls it;
* `letters_titleStem`  the filename of a title keeps its letters;
* `letters_of_plain`   so does the resolution key, of a name whose letters are all in ASCII;
* `distinct_names`     creations, renames, aliases and lint turn a name down for the letters of another one
                       exactly where names with one key have the same letters;
* `not_distinct_names` two names in Cyrillic.
-/

set_option linter.unusedSectionVars false

namespace Names

open Corpus Pages

def isAscii (c : Char) : Bool := c.toNat < 128

/-- white space, and what is neither a letter nor a digit of ASCII -/
def isSeparator (c : Char) : Bool := Text.isSpace c || (isAscii c && !c.isAlphanum)

/-- what Unicode says of a name -/
structure Unicode (R : Runtime) where
  /-- `normalize("NFKD", …)` -/
  nfkd : Text → Text
  /-- case folding of one character -/
  fold : Char → Text
  /-- a letter or a digit of any script -/
  isLetter : Char → Bool
  nfkdAscii_eq : ∀ t, R.nfkdAscii t = (nfkd t).filter isAscii
  casefold_eq : ∀ t, R.casefold t = t.flatMap fold
  lower_eq : ∀ t, (∀ c ∈ t, isAscii c = true) → R.lower t = R.casefold t
  nfkd_nfc : ∀ t, nfkd (R.nfc t) = nfkd t
  /-- a separator composes with nothing -/
  nfkd_append : ∀ a b c, isSeparator c = true → nfkd (a ++ c :: b) = nfkd a ++ nfkd [c] ++ nfkd b
  not_isLetter : ∀ c, isSeparator c = true → isLetter c = false ∧ ∀ d ∈ (nfkd [c]).flatMap fold, isLetter d = false

section
variable {R : Runtime} (U : Unicode R)

/-- a name up to case, accents, punctuation and white space -/
def Unicode.letters (t : Text) : Text := (R.casefold (U.nfkd t)).filter U.isLetter

/-- every character outside ASCII of the decomposed name is no letter -/
def Unicode.Plain (t : Text) : Prop :=
  ∀ c ∈ U.nfkd t, isAscii c = false → ∀ d ∈ U.fold c, U.isLetter d = false

end

/-! ## creations -/

inductive MutationAction where
  | create | update | delete
deriving DecidableEq

structure PageMutation where
  action : MutationAction
  role : Option Role
  path : Option Text
  title : Option Text
  body : Option Text
  status : Option Text
  entityType : Option Text
  aliases : Option (List Text)
  reason : Text
deriving DecidableEq

/-- what the loop of `_skip_claimed_names` keeps -/
structure Claims where
  entityNames : List Text
  /-- the folder of each name, case folded -/
  folders : AList fun _ : Text => Text
  kept : List PageMutation
  skipped : List Text
  contested : List Text

/-- `dict.setdefault` -/
def setdefault (folders : AList fun _ : Text => Text) (name folder : Text) : AList fun _ : Text => Text :=
  if (folders.lookup name).isSome then folders else folders.insert name folder

section
variable (R : Runtime)

/-- `entity_pages` -/
def entityPages (t : Worktree) : Except Text (List (Text × KnowledgePage)) :=
  (Layered.parseFiles R (Filing.folderPages t Role.entity.folder)).map fun pages =>
    pages.map fun e => (e.1, e.2.1)

/-- `name_index`, the pages of one key -/
def nameIndex (pages : List (Text × KnowledgePage)) (key : Text) : List Text :=
  (pages.filter fun e => (e.2.nameKeys R).contains key).map Prod.fst

/-- `Path(path).stem` of a file `*.md` -/
def pathStem (path : Text) : Text := if (stem path).isEmpty then ".md".toList else stem path

/-- `folders`: a later folder replaces an earlier one -/
def foldersOf (t : Worktree) : AList fun _ : Text => Text :=
  (KNOWLEDGE_FOLDERS.flatMap fun folder => (Filing.folderPages t folder).map fun f =>
    (R.casefold (pathStem f.1), folder)).foldl (fun folders e => folders.insert e.1 e.2) ∅

/-- the aliases of a creation -/
def PageMutation.entityAliases (m : PageMutation) : List Text :=
  if m.role = some .entity then m.aliases.getD [] else []

def PageMutation.names (m : PageMutation) : List Text := m.title.getD [] :: m.entityAliases

def alreadyClaimed (m : PageMutation) : Text :=
  ((m.role.map Role.name).getD "None".toList) ++ " page ".toList ++ R.repr (m.title.getD []) ++
    " was not created: its name is already claimed".toList

/-- the path of a creation, in two -/
def creationPath (m : PageMutation) : Option (Text × Text) :=
  match m.role with
  | none => none
  | some role =>
    match pagePath R role (m.title.getD []) with
    | .error _ => none
    | .ok path => some (role.folder, stem path)

/-- the creation of an entity under a name that forms a path -/
def makesEntity (m : PageMutation) : Bool :=
  decide (m.action = .create ∧ m.role = some .entity) && (creationPath R m).isSome

/-- one round of the loop -/
def claimRound (s : Claims) (m : PageMutation) : Claims :=
  match m.action, creationPath R m with
  | .create, some (folder, filename) =>
    let name := R.casefold filename
    if (m.names.map (resolutionKey R)).any fun key => s.entityNames.contains key then
      { s with skipped := s.skipped ++ [alreadyClaimed R m] }
    else if (s.folders.lookup name).getD folder ≠ folder then
      { s with skipped := s.skipped ++ [alreadyClaimed R m], contested := name :: s.contested }
    else
      let taken := m.entityAliases.filter fun a => (s.folders.lookup (R.casefold (titleStem R a))).getD folder ≠ folder
      let left := m.entityAliases.filter fun a => !taken.contains a
      let m' := if taken.isEmpty then m else { m with aliases := some left }
      { entityNames := if m.role = some .entity then
          (m.title.getD [] :: left).map (resolutionKey R) ++ s.entityNames else s.entityNames
        folders := (name :: left.map fun a => R.casefold (titleStem R a)).foldl
          (fun folders n => setdefault folders n folder) s.folders
        kept := s.kept ++ [m']
        skipped := s.skipped ++ taken.map fun a => "alias ".toList ++ R.repr a ++ " of ".toList ++
          R.repr (m.title.getD []) ++ " was not added: another page has that name".toList
        contested := s.contested }
  | _, _ => { s with kept := s.kept ++ [m] }

/-- before the loop -/
def claimsOf (t : Worktree) (pages : List (Text × KnowledgePage)) : Claims :=
  ⟨pages.flatMap fun e => e.2.nameKeys R, foldersOf R t, [], [], []⟩

/-- `_skip_claimed_names` -/
def skipClaimedNames (t : Worktree) (mutations : List PageMutation) : Except Text Claims :=
  (entityPages R t).map fun pages => mutations.foldl (claimRound R) (claimsOf R t pages)

/-! ## renames -/

inductive RenameError where
  | missing
  /-- the title forms no path -/
  | unusable (message : Text)
  /-- a page has the path -/
  | taken
  /-- an entity has the name -/
  | claimed
  /-- a page breaks its contract -/
  | contract (message : Text)
deriving DecidableEq

/-- `rename_entity(…, rewrite=False)`: the new path and the tree -/
def renameEntity (t : Worktree) (path newTitle day : Text) : Except RenameError (Text × Worktree) :=
  match entityPages R t with
  | .error e => .error (.contract e)
  | .ok pages =>
    match pages.lookup path with
    | none => .error .missing
    | some page =>
      match pagePath R .entity newTitle with
      | .error e => .error (.unusable e)
      | .ok newPath =>
        if newPath ≠ path ∧ (t.lookup newPath).isSome then .error .taken
        else
          let newKey := resolutionKey R newTitle
          if (nameIndex R pages newKey).any fun other => other != path then .error .claimed
          else
            let aliases := firsts ((page.aliases ++ [page.title]).filter fun a => resolutionKey R a != newKey)
            match renderPage R { page with
              path := newPath, title := Text.oneLine newTitle, aliases := aliases, updated := day } with
            | .error e => .error (.contract e)
            | .ok text => .ok (newPath, (if newPath = path then t else t.erase path).insert newPath text)

end

section
variable {R : Runtime} (U : Unicode R)

/-! ## what is left of a name -/

theorem nfkd_nil : U.nfkd [] = [] := by
  have h : U.nfkd ([] ++ [' ']) = U.nfkd [] ++ U.nfkd [' '] ++ U.nfkd [] := U.nfkd_append [] [] ' ' (by decide)
  have hlen := congrArg List.length h
  rw [List.nil_append, List.length_append, List.length_append] at hlen
  exact List.length_eq_zero_iff.mp (by omega)

theorem letters_nil : U.letters [] = [] := by
  rw [Unicode.letters, nfkd_nil, U.casefold_eq]
  rfl

/-- a separator has no letters, and the letters around it stay what they are -/
theorem letters_append (a b : Text) {c : Char} (hc : isSeparator c = true) :
    U.letters (a ++ c :: b) = U.letters a ++ U.letters b := by
  have hnone : ((U.nfkd [c]).flatMap U.fold).filter U.isLetter = [] :=
    List.filter_eq_nil_iff.mpr fun d hd => Bool.not_eq_true _ ▸ (U.not_isLetter c hc).2 d hd
  simp only [Unicode.letters, U.casefold_eq, U.nfkd_append a b c hc, List.flatMap_append, List.filter_append, hnone,
    List.append_nil]

theorem letters_cons (b : Text) {c : Char} (hc : isSeparator c = true) : U.letters (c :: b) = U.letters b := by
  have h := letters_append U [] b hc
  rwa [letters_nil, List.nil_append, List.nil_append] at h

theorem letters_oneLine (t : Text) : U.letters (Text.oneLine t) = U.letters t := by
  refine Text.map_oneLine (letters_nil U) (fun a b c hc => letters_append U a b ?_) t
  rw [isSeparator, hc, Bool.true_or]

/-- what holds of the characters of ASCII holds of each of them -/
theorem ascii_all {f : Char → Bool} (h : (List.range 128).all (fun n => f (Char.ofNat n)) = true) {c : Char}
    (hc : c.toNat < 128) : f c = true := by
  have hn := List.all_eq_true.mp h c.toNat (List.mem_range.mpr hc)
  rwa [Char.ofNat_toNat] at hn

theorem isSeparator_of_isUnsafe {c : Char} (h : isUnsafe c = true) : isSeparator c = true := by
  have hascii : c.toNat < 128 := by
    simp only [isUnsafe, Bool.or_eq_true, decide_eq_true_eq, beq_iff_eq, List.contains_iff_mem] at h
    rcases h with ((h | h) | h) | h
    · omega
    · omega
    · have hall : ∀ d ∈ "/\\:*?\"<>|[]#".toList, d.toNat < 128 := by decide
      exact hall c h
    · omega
  have hall := ascii_all (f := fun c => !isUnsafe c || isSeparator c) (by decide +kernel) hascii
  rw [h] at hall
  exact hall

/-- a run of unsafe characters and the dash for it -/
theorem letters_dashRuns (t : Text) :
    U.letters (dashRuns true t) = U.letters t ∧ ∀ a, U.letters (a ++ dashRuns false t) = U.letters (a ++ t) := by
  have hdash : isSeparator '-' = true := by decide
  induction t with
  | nil => exact ⟨rfl, fun a => rfl⟩
  | cons c t ih =>
    obtain ⟨htrue, hfalse⟩ := ih
    by_cases hc : isUnsafe c = true
    · have hsep := isSeparator_of_isUnsafe hc
      refine ⟨?_, fun a => ?_⟩
      · rw [dashRuns, if_pos hc, if_pos rfl, letters_cons U t hsep, htrue]
      · rw [dashRuns, if_pos hc, if_neg Bool.false_ne_true, letters_append U a _ hdash, letters_append U a _ hsep, htrue]
    · refine ⟨?_, fun a => ?_⟩
      · rw [dashRuns, if_neg hc]
        exact hfalse [c]
      · rw [dashRuns, if_neg hc]
        have h := hfalse (a ++ [c])
        rwa [List.append_assoc, List.append_assoc, List.singleton_append, List.singleton_append] at h

theorem letters_dropWhile {f : Char → Bool} (hf : ∀ c, f c = true → isSeparator c = true) (t : Text) :
    U.letters (t.dropWhile f) = U.letters t := by
  induction t with
  | nil => rfl
  | cons c t ih =>
    by_cases hc : f c = true
    · rw [List.dropWhile_cons_of_pos hc, ih, letters_cons U t (hf c hc)]
    · rw [List.dropWhile_cons_of_neg hc]

theorem letters_rdropWhile {f : Char → Bool} (hf : ∀ c, f c = true → isSeparator c = true) (t : Text) :
    U.letters (t.rdropWhile f) = U.letters t := by
  induction t using List.reverseRecOn with
  | nil => rfl
  | append_singleton t c ih =>
    by_cases hc : f c = true
    · have h := letters_append U t [] (hf c hc)
      rw [List.rdropWhile_concat_pos f t c hc, ih, h, letters_nil, List.append_nil]
    · rw [List.rdropWhile_concat_neg f t c hc]

/-- the filename of a title has its letters -/
theorem letters_titleStem (t : Text) : U.letters (titleStem R t) = U.letters t := by
  have houter : ∀ c, (c == ' ' || c == '.' || c == '-') = true → isSeparator c = true := by
    intro c hc
    simp only [Bool.or_eq_true, beq_iff_eq] at hc
    rcases hc with (rfl | rfl) | rfl <;> decide
  have hdash := (letters_dashRuns U (R.nfc (Text.oneLine t))).2 []
  rw [List.nil_append, List.nil_append] at hdash
  unfold titleStem
  dsimp only
  rw [letters_rdropWhile U houter, letters_dropWhile U houter, hdash, Unicode.letters, U.nfkd_nfc]
  exact letters_oneLine U t

/-! ## the resolution key -/

theorem isSeparator_of_isNamePunctuation {c : Char} (h : isNamePunctuation c = true) : isSeparator c = true := by
  have hall : ∀ d ∈ ".,()\"'/".toList, isSeparator d = true := by decide
  exact hall c (List.contains_iff_mem.mp h)

/-- the letters of a key are those of the characters in ASCII -/
theorem letters_resolutionKey (t : Text) :
    (resolutionKey R t).filter U.isLetter = (((U.nfkd t).filter isAscii).flatMap U.fold).filter U.isLetter := by
  have hlower : R.lower (R.nfkdAscii t) = ((U.nfkd t).filter isAscii).flatMap U.fold := by
    rw [U.nfkdAscii_eq, ← U.casefold_eq]
    exact U.lower_eq _ fun c hc => (List.mem_filter.mp hc).2
  have hspace : ∀ c, Text.isSpace c = true → U.isLetter c = false := by
    intro c hc
    refine (U.not_isLetter c ?_).1
    rw [isSeparator, hc, Bool.true_or]
  have hpunctuation : ∀ s : Text, (s.map fun c => if isNamePunctuation c then ' ' else c).filter U.isLetter =
      s.filter U.isLetter := by
    intro s
    induction s with
    | nil => rfl
    | cons c s ih =>
      by_cases hc : isNamePunctuation c = true
      · have hnot := (U.not_isLetter c (isSeparator_of_isNamePunctuation hc)).1
        rw [List.map_cons, if_pos hc, List.filter_cons_of_neg (Bool.eq_false_iff.mp (hspace ' ' rfl)),
          List.filter_cons_of_neg (Bool.eq_false_iff.mp hnot), ih]
      · rw [List.map_cons, if_neg hc, List.filter_cons, List.filter_cons, ih]
  unfold resolutionKey
  rw [Text.map_oneLine (f := List.filter U.isLetter) rfl (fun a b c hc => ?_), hpunctuation, hlower]
  rw [List.filter_append, List.filter_cons_of_neg (Bool.eq_false_iff.mp (hspace c hc))]

/-- the key of a name whose letters are all in ASCII has all of them -/
theorem letters_of_plain {t : Text} (h : U.Plain t) : U.letters t = (resolutionKey R t).filter U.isLetter := by
  rw [letters_resolutionKey, Unicode.letters, U.casefold_eq]
  have hkept : ∀ s : Text, (∀ c ∈ s, isAscii c = false → ∀ d ∈ U.fold c, U.isLetter d = false) →
      (s.flatMap U.fold).filter U.isLetter = ((s.filter isAscii).flatMap U.fold).filter U.isLetter := by
    intro s hs
    induction s with
    | nil => rfl
    | cons c s ih =>
      have ih := ih fun d hd => hs d (List.mem_cons_of_mem c hd)
      by_cases hc : isAscii c = true
      · rw [List.filter_cons_of_pos hc, List.flatMap_cons, List.flatMap_cons, List.filter_append, List.filter_append, ih]
      · have hnone : (U.fold c).filter U.isLetter = [] := List.filter_eq_nil_iff.mpr fun d hd =>
          Bool.eq_false_iff.mp (hs c List.mem_cons_self (Bool.eq_false_iff.mpr hc) d hd)
        rw [List.filter_cons_of_neg hc, List.flatMap_cons, List.filter_append, hnone, List.nil_append, ih]
  exact hkept _ h

end

section
variable {R : Runtime}

/-! ## pages -/

/-- what the contract says of a page that parses -/
structure Parsed (R : Runtime) (path : Text) (page : KnowledgePage) : Prop where
  title : ∃ title, pagePath R page.role title = .ok path ∧ page.title = Text.oneLine title
  status : page.status ∈ STATUSES
  entityType : page.role = .entity → ∃ entityType, checkEntityType page.entityType = .ok entityType
  body : Text.isBlank page.body = false

theorem parsed_of_parsePage {path text : Text} {page : KnowledgePage} (h : parsePage R path text = .ok page) :
    Parsed R path page := by
  have haccepted := accepted_of_parsePage h
  exact ⟨⟨page.title, haccepted.own, haccepted.title.symm⟩, haccepted.status,
    fun hrole => ⟨_, haccepted.entityType hrole⟩, haccepted.body.1⟩

/-- the role of a page is that of its folder -/
theorem Parsed.role_of_folder {path : Text} {page : KnowledgePage} (h : Parsed R path page) {role : Role}
    (hf : inFolder role.folder path = true) : page.role = role := by
  obtain ⟨title, hpath, -⟩ := h.title
  have hfolders : ∀ r r' : Role, r.folder ++ ['/'] <+: r'.folder ++ ['/'] → r = r' := by
    intro r r'
    cases r <;> cases r' <;> decide
  have hown : page.role.folder ++ ['/'] <+: path := by
    refine ⟨titleStem R title ++ ".md".toList, ?_⟩
    rw [(Lint.pagePath_eq_ok R hpath).2]
    simp only [List.append_assoc, List.cons_append, List.nil_append]
  have hother : role.folder ++ ['/'] <+: path := by
    simp only [inFolder, Bool.and_eq_true] at hf
    exact Lint.startsWith_iff.mp hf.1.1
  rcases List.prefix_or_prefix_of_prefix hown hother with hp | hp
  · exact hfolders _ _ hp
  · exact (hfolders _ _ hp).symm

theorem mem_parseFiles {files : List (Text × Text)} {pages : List (Text × KnowledgePage × Text)}
    (h : Layered.parseFiles R files = .ok pages) {e : Text × KnowledgePage × Text} (he : e ∈ pages) :
    (∃ raw, (e.1, raw) ∈ files) ∧ Parsed R e.1 e.2.1 := by
  induction files generalizing pages with
  | nil =>
    obtain rfl := Except.ok.inj h
    exact absurd he List.not_mem_nil
  | cons f files ih =>
    rw [Layered.parseFiles] at h
    split at h
    · cases h
    · next page hpage =>
      obtain ⟨rest, hrest, rfl⟩ := Checks.map_eq_ok h
      rcases List.mem_cons.mp he with rfl | he
      · exact ⟨⟨f.2, List.mem_cons_self⟩, parsed_of_parsePage hpage⟩
      · obtain ⟨⟨raw, hraw⟩, hparsed⟩ := ih hrest he
        exact ⟨⟨raw, List.mem_cons_of_mem f hraw⟩, hparsed⟩

theorem mem_folderPages {t : Worktree} {folder : Text} {path raw : Text} :
    (path, raw) ∈ Filing.folderPages t folder ↔ t.lookup path = some raw ∧ inFolder folder path = true := by
  rw [Filing.folderPages, List.mem_insertionSort, List.mem_map]
  constructor
  · rintro ⟨e, he, heq⟩
    obtain ⟨rfl, rfl⟩ := Prod.mk.inj heq
    obtain ⟨hmem, hin⟩ := List.mem_filter.mp he
    exact ⟨AList.mem_lookup_iff.mpr hmem, hin⟩
  · rintro ⟨hlookup, hin⟩
    exact ⟨⟨path, raw⟩, List.mem_filter.mpr ⟨AList.mem_lookup_iff.mp hlookup, hin⟩, rfl⟩

/-- the pages of `entity_pages` are entities -/
theorem mem_entityPages {t : Worktree} {pages : List (Text × KnowledgePage)} (h : entityPages R t = .ok pages)
    {path : Text} {page : KnowledgePage} (hmem : (path, page) ∈ pages) : Parsed R path page ∧ page.role = .entity := by
  obtain ⟨parsed, hparse, rfl⟩ := Checks.map_eq_ok h
  obtain ⟨e, he, heq⟩ := List.mem_map.mp hmem
  obtain ⟨rfl, rfl⟩ := Prod.mk.inj heq
  obtain ⟨⟨raw, hraw⟩, hparsed⟩ := mem_parseFiles hparse he
  exact ⟨hparsed, hparsed.role_of_folder (mem_folderPages.mp hraw).2⟩

/-- every file of the folder has its page -/
theorem exists_entityPages {t : Worktree} {pages : List (Text × KnowledgePage)} (h : entityPages R t = .ok pages)
    {path raw : Text} (hin : inFolder Role.entity.folder path = true) (hraw : t.lookup path = some raw) :
    ∃ page, (path, page) ∈ pages := by
  obtain ⟨parsed, hparse, rfl⟩ := Checks.map_eq_ok h
  have hmem : path ∈ (Filing.folderPages t Role.entity.folder).map Prod.fst :=
    List.mem_map_of_mem (mem_folderPages.mpr ⟨hraw, hin⟩)
  rw [← Layered.map_fst_parseFiles hparse] at hmem
  obtain ⟨e, he, rfl⟩ := List.mem_map.mp hmem
  exact ⟨e.2.1, List.mem_map_of_mem he⟩

/-! ## names that are taken for one -/

/-- the title and the aliases of a page -/
def namesOf (page : KnowledgePage) : List Text := page.title :: page.aliases

variable (R) in
/-- the names of the entities of a tree and of the creations kept so far -/
def claimed (pages : List (Text × KnowledgePage)) (kept : List PageMutation) : List Text :=
  (pages.flatMap fun e => namesOf e.2) ++ (kept.filter (makesEntity R)).flatMap PageMutation.names

variable (R) in
/-- two of the names have one key: NFKD leaves the same of both in ASCII -/
def OneKey (names others : List Text) : Prop := ∃ n ∈ names, ∃ o ∈ others, resolutionKey R n = resolutionKey R o

/-- two of the names are equal up to case, accents, punctuation and white space -/
def OneName (U : Unicode R) (names others : List Text) : Prop := ∃ n ∈ names, ∃ o ∈ others, U.letters n = U.letters o

/-- names whose letters are all in ASCII are one when their keys are -/
theorem OneKey.oneName {U : Unicode R} {names others : List Text} (h : OneKey R names others)
    (hn : ∀ n ∈ names, U.Plain n) (ho : ∀ o ∈ others, U.Plain o) : OneName U names others := by
  obtain ⟨n, hmem, o, hother, hkey⟩ := h
  refine ⟨n, hmem, o, hother, ?_⟩
  rw [letters_of_plain U (hn n hmem), letters_of_plain U (ho o hother), hkey]

theorem mem_nameKeys {page : KnowledgePage} {key : Text} :
    key ∈ page.nameKeys R ↔ ∃ n ∈ namesOf page, resolutionKey R n = key := by
  rw [KnowledgePage.nameKeys, mem_firsts, List.mem_map]
  rfl

/-! ### creations -/

variable (R) in
/-- the page is not created -/
def Dropped (s : Claims) (m : PageMutation) : Prop := m.action = .create ∧ (claimRound R s m).kept = s.kept

variable (R) in
/-- another folder has the name of the file -/
def Elsewhere (s : Claims) (m : PageMutation) : Prop :=
  ∃ folder filename, creationPath R m = some (folder, filename) ∧
    (s.folders.lookup (R.casefold filename)).getD folder ≠ folder

/-- the keys of the loop are those of the names -/
def Keyed (R : Runtime) (pages : List (Text × KnowledgePage)) (s : Claims) : Prop :=
  ∀ key, key ∈ s.entityNames ↔ ∃ o ∈ claimed R pages s.kept, resolutionKey R o = key

theorem keyed_claimsOf (t : Worktree) (pages : List (Text × KnowledgePage)) : Keyed R pages (claimsOf R t pages) := by
  intro key
  show key ∈ (pages.flatMap fun e => e.2.nameKeys R) ↔ ∃ o ∈ (pages.flatMap fun e => namesOf e.2) ++ [], _
  rw [List.append_nil, List.mem_flatMap]
  constructor
  · rintro ⟨e, he, hkey⟩
    obtain ⟨n, hn, hsame⟩ := mem_nameKeys.mp hkey
    exact ⟨n, List.mem_flatMap.mpr ⟨e, he, hn⟩, hsame⟩
  · rintro ⟨n, hn, hsame⟩
    obtain ⟨e, he, hn⟩ := List.mem_flatMap.mp hn
    exact ⟨e, he, mem_nameKeys.mpr ⟨n, hn, hsame⟩⟩

theorem any_keys_iff {pages : List (Text × KnowledgePage)} {s : Claims} (hs : Keyed R pages s) {names : List Text} :
    ((names.map (resolutionKey R)).any fun key => s.entityNames.contains key) = true ↔
      OneKey R names (claimed R pages s.kept) := by
  rw [List.any_eq_true]
  constructor
  · rintro ⟨key, hkey, hmem⟩
    obtain ⟨n, hn, rfl⟩ := List.mem_map.mp hkey
    obtain ⟨o, ho, hsame⟩ := (hs _).mp (List.contains_iff_mem.mp hmem)
    exact ⟨n, hn, o, ho, hsame.symm⟩
  · rintro ⟨n, hn, o, ho, hsame⟩
    exact ⟨_, List.mem_map_of_mem hn, List.contains_iff_mem.mpr ((hs _).mpr ⟨o, ho, hsame.symm⟩)⟩

/-- a round drops the creation for a key or for its folder, or keeps it with the aliases that are left -/
theorem claimRound_create {s : Claims} {m : PageMutation} (hm : m.action = .create) {folder filename : Text}
    (hpath : creationPath R m = some (folder, filename)) :
    ((((m.names.map (resolutionKey R)).any fun key => s.entityNames.contains key) = true ∨
        (s.folders.lookup (R.casefold filename)).getD folder ≠ folder) ∧
      (claimRound R s m).kept = s.kept ∧ (claimRound R s m).entityNames = s.entityNames) ∨
    (¬((m.names.map (resolutionKey R)).any fun key => s.entityNames.contains key) = true ∧
      (s.folders.lookup (R.casefold filename)).getD folder = folder ∧
      ∃ m', m'.action = m.action ∧ m'.role = m.role ∧ m'.title = m.title ∧ (claimRound R s m).kept = s.kept ++ [m'] ∧
        (claimRound R s m).entityNames =
          if m.role = some .entity then m'.names.map (resolutionKey R) ++ s.entityNames else s.entityNames) := by
  unfold claimRound
  rw [hm, hpath]
  dsimp only
  by_cases hkey : ((m.names.map (resolutionKey R)).any fun key => s.entityNames.contains key) = true
  · rw [if_pos hkey]
    exact Or.inl ⟨Or.inl hkey, rfl, rfl⟩
  rw [if_neg hkey]
  by_cases hfolder : (s.folders.lookup (R.casefold filename)).getD folder ≠ folder
  · rw [if_pos hfolder]
    exact Or.inl ⟨Or.inr hfolder, rfl, rfl⟩
  rw [if_neg hfolder]
  refine Or.inr ⟨hkey, not_ne_iff.mp hfolder, _, ?_, ?_, ?_, rfl, ?_⟩
  · split
    · exact hm
    · rfl
  · split <;> rfl
  · split <;> rfl
  · by_cases hrole : m.role = some .entity
    · rw [if_pos hrole, if_pos hrole]
      refine congrArg (· ++ s.entityNames) (congrArg (List.map (resolutionKey R)) ?_)
      split
      · next hempty =>
        refine congrArg (m.title.getD [] :: ·) (List.filter_eq_self.mpr fun a _ => ?_)
        rw [List.isEmpty_iff.mp hempty]
        rfl
      · exact congrArg (m.title.getD [] :: ·) (if_pos hrole).symm
    · rw [if_neg hrole, if_neg hrole]

/-- a mutation that makes no page is kept -/
theorem claimRound_keeps {s : Claims} {m : PageMutation} (hm : m.action ≠ .create ∨ creationPath R m = none) :
    claimRound R s m = { s with kept := s.kept ++ [m] } := by
  unfold claimRound
  split
  · next folder filename hcreate hpath =>
    rcases hm with hm | hm
    · exact absurd hcreate hm
    · rw [hpath] at hm
      exact nomatch hm
  · rfl

theorem creationPath_congr {m m' : PageMutation} (hrole : m'.role = m.role) (htitle : m'.title = m.title) :
    creationPath R m' = creationPath R m := by
  unfold creationPath
  rw [hrole, htitle]

theorem claimed_append (pages : List (Text × KnowledgePage)) (kept : List PageMutation) (m : PageMutation) :
    claimed R pages (kept ++ [m]) = claimed R pages kept ++ if makesEntity R m = true then m.names else [] := by
  unfold claimed
  rw [List.filter_append, List.flatMap_append, ← List.append_assoc]
  by_cases hm : makesEntity R m = true
  · rw [if_pos hm, List.filter_cons_of_pos hm, List.filter_nil, List.flatMap_singleton]
  · rw [if_neg hm, List.filter_cons_of_neg hm, List.filter_nil, List.flatMap_nil]

/-- every round keeps the keys those of the names -/
theorem Keyed.round {pages : List (Text × KnowledgePage)} {s : Claims} (hs : Keyed R pages s) (m : PageMutation) :
    Keyed R pages (claimRound R s m) := by
  intro key
  by_cases hm : m.action = .create
  swap
  · have hno : makesEntity R m = false := by
      rw [makesEntity, decide_eq_false (fun h => hm h.1), Bool.false_and]
    rw [claimRound_keeps (Or.inl hm), claimed_append, hno, if_neg Bool.false_ne_true, List.append_nil]
    exact hs key
  cases hpath : creationPath R m with
  | none =>
    have hno : makesEntity R m = false := by
      rw [makesEntity, hpath, Option.isSome_none, Bool.and_false]
    rw [claimRound_keeps (Or.inr hpath), claimed_append, hno, if_neg Bool.false_ne_true, List.append_nil]
    exact hs key
  | some e =>
    rcases claimRound_create hm hpath with ⟨-, hkept, hnames⟩ | ⟨-, -, m', haction, hrole, htitle, hkept, hnames⟩
    · rw [hkept, hnames]
      exact hs key
    · have hmakes : makesEntity R m' = decide (m.role = some .entity) := by
        rw [makesEntity, creationPath_congr hrole htitle, hpath, haction, hrole, Option.isSome_some, Bool.and_true]
        exact decide_eq_decide.mpr (and_iff_right hm)
      rw [hkept, hnames, claimed_append, hmakes]
      by_cases hentity : m.role = some .entity
      · rw [if_pos hentity, if_pos (decide_eq_true hentity), List.mem_append, hs key, List.mem_map]
        constructor
        · rintro (⟨n, hn, hsame⟩ | ⟨o, ho, hsame⟩)
          · exact ⟨n, List.mem_append_right _ hn, hsame⟩
          · exact ⟨o, List.mem_append_left _ ho, hsame⟩
        · rintro ⟨o, ho, hsame⟩
          rcases List.mem_append.mp ho with ho | ho
          · exact Or.inr ⟨o, ho, hsame⟩
          · exact Or.inl ⟨o, ho, hsame⟩
      · rw [if_neg hentity, if_neg (fun h => hentity (of_decide_eq_true h)), List.append_nil]
        exact hs key

/-- a creation is dropped for a key or for its folder -/
theorem dropped_iff {pages : List (Text × KnowledgePage)} {s : Claims} (hs : Keyed R pages s) {m : PageMutation} :
    Dropped R s m ↔ m.action = .create ∧ ((creationPath R m).isSome ∧ OneKey R m.names (claimed R pages s.kept) ∨
      Elsewhere R s m) := by
  refine and_congr_right fun hm => ?_
  cases hpath : creationPath R m with
  | none =>
    rw [claimRound_keeps (Or.inr hpath)]
    refine iff_of_false (fun h => ?_) ?_
    · exact absurd (congrArg List.length h) (by simp)
    · rintro (⟨h, -⟩ | ⟨folder, filename, h, -⟩)
      · exact nomatch h
      · rw [hpath] at h
        exact nomatch h
  | some e =>
    obtain ⟨folder, filename⟩ := e
    have hiff : ((m.names.map (resolutionKey R)).any fun key => s.entityNames.contains key) = true ↔
        OneKey R m.names (claimed R pages s.kept) := any_keys_iff hs
    have helse : Elsewhere R s m ↔ (s.folders.lookup (R.casefold filename)).getD folder ≠ folder := by
      refine ⟨?_, fun h => ⟨folder, filename, hpath, h⟩⟩
      rintro ⟨folder', filename', h, hne⟩
      rw [hpath] at h
      obtain ⟨rfl, rfl⟩ := Prod.mk.inj (Option.some.inj h)
      exact hne
    rw [helse, ← hiff, Option.isSome_some]
    rcases claimRound_create hm hpath with ⟨hwhy, hkept, -⟩ | ⟨hkey, hfolder, m', -, -, -, hkept, -⟩
    · exact iff_of_true hkept (hwhy.imp_left fun h => ⟨rfl, h⟩)
    · rw [hkept]
      refine iff_of_false (fun h => ?_) ?_
      · exact absurd (congrArg List.length h) (by simp)
      · rintro (⟨-, h⟩ | h)
        · exact hkey h
        · exact h hfolder

/-- where the loop stands before a creation -/
def before (R : Runtime) (t : Worktree) (pages : List (Text × KnowledgePage)) (mutations : List PageMutation) : Claims :=
  mutations.foldl (claimRound R) (claimsOf R t pages)

theorem keyed_before (t : Worktree) (pages : List (Text × KnowledgePage)) (mutations : List PageMutation) :
    Keyed R pages (before R t pages mutations) := by
  induction mutations using List.reverseRecOn with
  | nil => exact keyed_claimsOf t pages
  | append_singleton mutations m ih =>
    rw [before, List.foldl_concat]
    exact ih.round m

/-- a creation is dropped only for a name of another entity -/
def CreationsJust (U : Unicode R) (t : Worktree) (mutations : List PageMutation) : Prop :=
  ∀ pages, entityPages R t = .ok pages → ∀ first m rest, mutations = first ++ m :: rest →
    Dropped R (before R t pages first) m → OneName U m.names (claimed R pages (before R t pages first).kept)

/-- a creation with the key of a name, or the file name of another folder, has a name of an entity -/
def CreationsApart (U : Unicode R) (t : Worktree) (mutations : List PageMutation) : Prop :=
  ∀ pages, entityPages R t = .ok pages → ∀ first m rest, mutations = first ++ m :: rest → m.action = .create →
    (creationPath R m).isSome ∧ OneKey R m.names (claimed R pages (before R t pages first).kept) ∨
      Elsewhere R (before R t pages first) m → OneName U m.names (claimed R pages (before R t pages first).kept)

theorem creationsJust_iff (U : Unicode R) (t : Worktree) (mutations : List PageMutation) :
    CreationsJust U t mutations ↔ CreationsApart U t mutations := by
  constructor
  · intro h pages hpages first m rest heq hm hwhy
    exact h pages hpages first m rest heq ((dropped_iff (keyed_before t pages first)).mpr ⟨hm, hwhy⟩)
  · intro h pages hpages first m rest heq hdropped
    obtain ⟨hm, hwhy⟩ := (dropped_iff (keyed_before t pages first)).mp hdropped
    exact h pages hpages first m rest heq hm hwhy

/-! ### aliases -/

variable (R) in
/-- what `_aliases` asks of the aliases of a title -/
structure Fit (values : List Text) (title : Text) : Prop where
  searchable : ∀ v ∈ values, (resolutionKey R (Text.oneLine v)).any R.isAlnum = true
  nodup : (values.map fun v => resolutionKey R (Text.oneLine v)).Nodup
  title : resolutionKey R title ∉ values.map fun v => resolutionKey R (Text.oneLine v)

/-- aliases with letters, no two the same name -/
structure Distinct (U : Unicode R) (values : List Text) (title : Text) : Prop where
  letters : ∀ v ∈ values, U.letters v ≠ []
  nodup : (values.map U.letters).Nodup
  title : U.letters title ∉ values.map U.letters

theorem checkAliases_iff {values : List Text} {title : Text} :
    (∃ aliases, checkAliases R values title = .ok aliases) ↔ Fit R values title := by
  have hkeys : (values.map Text.oneLine).map (resolutionKey R) = values.map fun v => resolutionKey R (Text.oneLine v) :=
    List.map_map
  constructor
  · rintro ⟨aliases, h⟩
    obtain ⟨rfl, haliases⟩ := checkAliases_eq_ok.mp h
    exact ⟨fun v hv => haliases.searchable _ (List.mem_map_of_mem hv), hkeys ▸ haliases.nodup, hkeys ▸ haliases.title⟩
  · intro h
    refine ⟨_, checkAliases_eq_ok.mpr ⟨rfl, fun a ha => ?_, hkeys.symm ▸ h.nodup, hkeys.symm ▸ h.title⟩⟩
    obtain ⟨v, hv, rfl⟩ := List.mem_map.mp ha
    exact h.searchable v hv

/-- aliases are refused only if one has no letters, or two of the names are one -/
def AliasesJust (U : Unicode R) (values : List Text) (title : Text) : Prop :=
  ∀ e, checkAliases R values title = .error e → ¬Distinct U values title

theorem aliasesJust_iff (U : Unicode R) (values : List Text) (title : Text) :
    AliasesJust U values title ↔ (Distinct U values title → Fit R values title) := by
  rw [← checkAliases_iff]
  constructor
  · intro h hdistinct
    cases hc : checkAliases R values title with
    | error e => exact absurd hdistinct (h e hc)
    | ok aliases => exact ⟨aliases, rfl⟩
  · intro h e he hdistinct
    obtain ⟨aliases, hok⟩ := h hdistinct
    rw [he] at hok
    exact nomatch hok

/-! ### renames -/

/-- the names of the other entities -/
def others (pages : List (Text × KnowledgePage)) (path : Text) : List Text :=
  (pages.filter fun e => e.1 != path).flatMap fun e => namesOf e.2

variable (R) in
/-- the aliases of a renamed page -/
def keptNames (page : KnowledgePage) (newTitle : Text) : List Text :=
  firsts ((page.aliases ++ [page.title]).filter fun a => resolutionKey R a != resolutionKey R newTitle)

theorem any_nameIndex_iff {pages : List (Text × KnowledgePage)} {path newTitle : Text} :
    ((nameIndex R pages (resolutionKey R newTitle)).any fun other => other != path) = true ↔
      OneKey R [newTitle] (others pages path) := by
  rw [List.any_eq_true]
  constructor
  · rintro ⟨other, hother, hne⟩
    obtain ⟨e, he, rfl⟩ := List.mem_map.mp hother
    obtain ⟨hmem, hkey⟩ := List.mem_filter.mp he
    obtain ⟨n, hn, hsame⟩ := mem_nameKeys.mp (List.contains_iff_mem.mp hkey)
    exact ⟨newTitle, List.mem_cons_self, n, List.mem_flatMap.mpr ⟨e, List.mem_filter.mpr ⟨hmem, hne⟩, hn⟩, hsame.symm⟩
  · rintro ⟨n, hn, o, ho, hsame⟩
    rw [List.mem_singleton.mp hn] at hsame
    obtain ⟨e, he, ho⟩ := List.mem_flatMap.mp ho
    obtain ⟨hmem, hne⟩ := List.mem_filter.mp he
    have hkey := List.contains_iff_mem.mpr (mem_nameKeys.mpr ⟨o, ho, hsame.symm⟩)
    exact ⟨e.1, List.mem_map_of_mem (List.mem_filter.mpr ⟨hmem, hkey⟩), hne⟩

/-- a renamed page is written when its aliases are fit -/
theorem renderPage_renamed {path newPath newTitle : Text} (day : Text) {page : KnowledgePage} (hp : Parsed R path page)
    (hrole : page.role = .entity) (hpath : pagePath R .entity newTitle = .ok newPath) {aliases : List Text} :
    (∃ text, renderPage R { page with
      path := newPath, title := Text.oneLine newTitle, aliases := aliases, updated := day } = .ok text) ↔
      Fit R aliases (Text.oneLine newTitle) := by
  obtain ⟨entityType, hentity⟩ := hp.entityType hrole
  unfold renderPage entityFields
  dsimp only
  rw [hrole, pagePath_oneLine, hpath]
  dsimp only
  rw [if_neg (not_not.mpr rfl), if_neg (not_not.mpr hp.status), if_pos rfl, hentity, Text.oneLine_oneLine,
    ← checkAliases_iff, hp.body]
  cases checkAliases R aliases (Text.oneLine newTitle) with
  | error e => exact iff_of_false (fun ⟨_, h⟩ => nomatch h) fun ⟨_, h⟩ => nomatch h
  | ok aliases' => exact iff_of_true ⟨_, rfl⟩ ⟨_, rfl⟩

theorem mem_of_lookup {pages : List (Text × KnowledgePage)} {path : Text} {page : KnowledgePage}
    (h : pages.lookup path = some page) : (path, page) ∈ pages := by
  induction pages with
  | nil => exact nomatch h
  | cons e pages ih =>
    obtain ⟨p, q⟩ := e
    rw [List.lookup_cons] at h
    split at h
    · next heq =>
      obtain rfl := Option.some.inj h
      rw [beq_iff_eq.mp heq]
      exact List.mem_cons_self
    · exact List.mem_cons_of_mem _ (ih h)

/-- a rename is refused for the path, for a key of another page, or for the aliases -/
theorem renameEntity_refused {t : Worktree} {pages : List (Text × KnowledgePage)} (hpages : entityPages R t = .ok pages)
    {path newTitle newPath : Text} (day : Text) {page : KnowledgePage} (hpage : pages.lookup path = some page)
    (hpath : pagePath R .entity newTitle = .ok newPath) :
    (∃ e, renameEntity R t path newTitle day = .error e) ↔ (newPath ≠ path ∧ (t.lookup newPath).isSome = true) ∨
      OneKey R [newTitle] (others pages path) ∨ ¬Fit R (keptNames R page newTitle) (Text.oneLine newTitle) := by
  obtain ⟨hparsed, hrole⟩ := mem_entityPages hpages (mem_of_lookup hpage)
  unfold renameEntity
  rw [hpages]
  dsimp only
  rw [hpage]
  dsimp only
  rw [hpath]
  dsimp only
  by_cases htaken : newPath ≠ path ∧ (t.lookup newPath).isSome = true
  · rw [if_pos htaken]
    exact iff_of_true ⟨_, rfl⟩ (Or.inl htaken)
  rw [if_neg htaken, or_iff_right htaken, ← any_nameIndex_iff]
  by_cases hkey : ((nameIndex R pages (resolutionKey R newTitle)).any fun other => other != path) = true
  · rw [if_pos hkey]
    exact iff_of_true ⟨_, rfl⟩ (Or.inl hkey)
  rw [if_neg hkey, or_iff_right hkey, ← renderPage_renamed day hparsed hrole hpath]
  unfold keptNames
  cases renderPage R { page with
      path := newPath, title := Text.oneLine newTitle, updated := day
      aliases := firsts ((page.aliases ++ [page.title]).filter fun a => resolutionKey R a != resolutionKey R newTitle) } with
  | error e => exact iff_of_true ⟨_, rfl⟩ fun ⟨_, h⟩ => nomatch h
  | ok text => exact iff_of_false (fun ⟨_, h⟩ => nomatch h) fun h => h ⟨text, rfl⟩

/-- a page at the path of a title has the letters of the title -/
theorem oneName_of_taken (U : Unicode R) {t : Worktree} {pages : List (Text × KnowledgePage)}
    (hpages : entityPages R t = .ok pages) {path newTitle newPath : Text} (hpath : pagePath R .entity newTitle = .ok newPath)
    (hne : newPath ≠ path) (htaken : (t.lookup newPath).isSome = true) : OneName U [newTitle] (others pages path) := by
  obtain ⟨raw, hraw⟩ := Option.isSome_iff_exists.mp htaken
  have heq := (Lint.pagePath_eq_ok R hpath).2
  have hin : inFolder Role.entity.folder newPath = true := by
    have hstart : Text.startsWith (Role.entity.folder ++ ['/']) newPath = true :=
      Lint.startsWith_iff.mpr ⟨titleStem R newTitle ++ ".md".toList, by simp [heq]⟩
    have hend : Text.endsWith ".md".toList newPath = true := by
      rw [heq]
      exact Lint.endsWith_iff.mpr (List.suffix_append _ _)
    have hslash : (newPath.drop (Role.entity.folder.length + 1)).contains '/' = false := by
      have hdrop : newPath.drop (Role.entity.folder.length + 1) = titleStem R newTitle ++ ".md".toList := by
        have hassoc : newPath = (Role.entity.folder ++ ['/']) ++ (titleStem R newTitle ++ ".md".toList) := by simp [heq]
        have hlen : Role.entity.folder.length + 1 = (Role.entity.folder ++ ['/']).length := by simp
        rw [hlen, hassoc, List.drop_left]
      rw [hdrop, Bool.eq_false_iff, ne_eq, List.contains_iff_mem, List.mem_append, not_or]
      refine ⟨fun hmem => ?_, by decide⟩
      exact absurd (Lint.isUnsafe_titleStem R _ hmem) (by decide)
    rw [inFolder, hstart, hend, hslash]
    rfl
  obtain ⟨page, hmem⟩ := exists_entityPages hpages hin hraw
  obtain ⟨hparsed, hrole⟩ := mem_entityPages hpages hmem
  obtain ⟨title, htitle, hline⟩ := hparsed.title
  rw [hrole] at htitle
  have hstems : titleStem R newTitle = titleStem R title := by
    have hboth := heq.symm.trans (Lint.pagePath_eq_ok R htitle).2
    rw [List.append_assoc, List.append_assoc] at hboth
    have hcut := (List.cons.inj (List.append_cancel_left hboth)).2
    exact List.append_cancel_right hcut
  refine ⟨newTitle, List.mem_cons_self, page.title, ?_, ?_⟩
  · exact List.mem_flatMap.mpr ⟨(newPath, page), List.mem_filter.mpr ⟨hmem, bne_iff_ne.mpr hne⟩, List.mem_cons_self⟩
  · rw [hline, letters_oneLine, ← letters_titleStem U newTitle, hstems, letters_titleStem]

/-- a page is refused a new title only for a name of another entity -/
def RenameJust (U : Unicode R) (t : Worktree) (path newTitle day : Text) : Prop :=
  ∀ pages page newPath, entityPages R t = .ok pages → pages.lookup path = some page →
    pagePath R .entity newTitle = .ok newPath → ∀ e, renameEntity R t path newTitle day = .error e →
      OneName U [newTitle] (others pages path)

/-- a title with the key of another page, or of a page whose names do not fit as aliases, has a name of another page -/
def RenameApart (U : Unicode R) (t : Worktree) (path newTitle : Text) : Prop :=
  ∀ pages page newPath, entityPages R t = .ok pages → pages.lookup path = some page →
    pagePath R .entity newTitle = .ok newPath →
      OneKey R [newTitle] (others pages path) ∨ ¬Fit R (keptNames R page newTitle) (Text.oneLine newTitle) →
        OneName U [newTitle] (others pages path)

theorem renameJust_iff (U : Unicode R) (t : Worktree) (path newTitle day : Text) :
    RenameJust U t path newTitle day ↔ RenameApart U t path newTitle := by
  constructor
  · intro h pages page newPath hpages hpage hpath hwhy
    obtain ⟨e, he⟩ := (renameEntity_refused hpages day hpage hpath).mpr (Or.inr hwhy)
    exact h pages page newPath hpages hpage hpath e he
  · intro h pages page newPath hpages hpage hpath e he
    rcases (renameEntity_refused hpages day hpage hpath).mp ⟨e, he⟩ with ⟨hne, htaken⟩ | hwhy
    · exact oneName_of_taken U hpages hpath hne htaken
    · exact h pages page newPath hpages hpage hpath hwhy

/-! ### lint -/

variable (R) in
/-- the names of a page of the corpus -/
def namesIn (page : Lint.CorpusPage) : List Text :=
  if page.pageType = .entity then
    match parsePage R page.vpath page.text with
    | .ok p => namesOf p
    | .error _ => []
  else []

/-- the keys lint compares are those of the names -/
theorem mem_nameKeys_corpus {t : Worktree} {page : Lint.CorpusPage} (h : page ∈ Lint.pagesOf R t) {key : Text} :
    key ∈ page.nameKeys ↔ ∃ n ∈ namesIn R page, resolutionKey R n = key := by
  obtain ⟨f, -, hparse⟩ := (Lint.mem_parsedPages R).mp h
  unfold Lint.parseCorpusPage at hparse
  split at hparse
  · exact nomatch hparse
  next layer vpath hsplit =>
  dsimp only at hparse
  split at hparse
  · exact nomatch hparse
  next found hfound =>
  obtain ⟨-, hparse⟩ := Checks.of_ite_error hparse
  obtain rfl := Except.ok.inj hparse
  split at hfound
  · split at hfound
    · exact nomatch hfound
    · next p hp =>
      obtain rfl := Except.ok.inj hfound
      unfold namesIn
      dsimp only
      rw [hp]
      by_cases hrole : p.role = .entity
      · rw [if_pos hrole, hrole]
        exact mem_nameKeys
      · have htype : Lint.typeOfRole p.role ≠ .entity := by
          intro heq
          refine hrole ?_
          generalize p.role = role at heq ⊢
          cases role with
          | entity => rfl
          | _ => exact nomatch heq
        rw [if_neg hrole, if_neg htype]
        exact iff_of_false List.not_mem_nil fun ⟨_, hn, _⟩ => absurd hn List.not_mem_nil
  · split at hfound
    · split at hfound
      · exact nomatch hfound
      · obtain rfl := Except.ok.inj hfound
        exact iff_of_false List.not_mem_nil fun ⟨_, hn, _⟩ => absurd hn List.not_mem_nil
    · exact nomatch hfound

/-- two pages of one layer -/
def Beside (page other : Lint.CorpusPage) : Prop := other.layer = page.layer ∧ other.path ≠ page.path

/-- a page is reported only for a name of another entity page of its layer -/
def CollisionsJust (U : Unicode R) (t : Worktree) : Prop :=
  ∀ v ∈ Lint.nameCollisions R (Lint.pagesOf R t), ∃ page ∈ Lint.pagesOf R t, page.path = v.path ∧
    ∃ other ∈ Lint.pagesOf R t, Beside page other ∧ OneName U (namesIn R page) (namesIn R other)

/-- a page with the key of another has a name of another -/
def CorpusApart (U : Unicode R) (t : Worktree) : Prop :=
  ∀ page ∈ Lint.pagesOf R t, (∃ other ∈ Lint.pagesOf R t, Beside page other ∧ OneKey R (namesIn R page) (namesIn R other)) →
    ∃ other ∈ Lint.pagesOf R t, Beside page other ∧ OneName U (namesIn R page) (namesIn R other)

theorem mem_nameCollisions {pages : List Lint.CorpusPage} {v : Lint.Violation} :
    v ∈ Lint.nameCollisions R pages ↔ ∃ page ∈ pages, ∃ key ∈ page.nameKeys, ∃ other ∈ pages, Beside page other ∧
      key ∈ other.nameKeys ∧ v = ⟨page.path, "alias-collision".toList,
        "entity name ".toList ++ R.repr key ++ " is also claimed by ".toList ++ other.path⟩ := by
  simp only [Lint.nameCollisions, List.mem_flatMap, List.mem_map, List.mem_filter, Bool.and_eq_true, beq_iff_eq,
    bne_iff_ne, List.contains_iff_mem, Beside]
  constructor
  · rintro ⟨page, hpage, key, hkey, other, ⟨hother, ⟨hlayer, hin⟩, hne⟩, rfl⟩
    exact ⟨page, hpage, key, hkey, other, hother, ⟨hlayer, hne⟩, hin, rfl⟩
  · rintro ⟨page, hpage, key, hkey, other, hother, ⟨hlayer, hne⟩, hin, rfl⟩
    exact ⟨page, hpage, key, hkey, other, ⟨hother, ⟨hlayer, hin⟩, hne⟩, rfl⟩

/-- one page at each path -/
theorem eq_of_path {t : Worktree} {page page' : Lint.CorpusPage} (h : page ∈ Lint.pagesOf R t) (h' : page' ∈ Lint.pagesOf R t)
    (heq : page'.path = page.path) : page' = page := by
  obtain ⟨⟨path, text⟩, hf, hparse⟩ := (Lint.mem_parsedPages R).mp h
  obtain ⟨⟨path', text'⟩, hf', hparse'⟩ := (Lint.mem_parsedPages R).mp h'
  have hpath := (Lint.pageAt_of_parse R hparse).path
  have hpath' := (Lint.pageAt_of_parse R hparse').path
  obtain ⟨-, raw, hraw, rfl⟩ := Lint.mem_markdownPages.mp hf
  obtain ⟨-, raw', hraw', rfl⟩ := Lint.mem_markdownPages.mp hf'
  obtain rfl : path' = path := hpath'.symm.trans (heq.trans hpath)
  obtain rfl := Option.some.inj (hraw'.symm.trans hraw)
  exact Except.ok.inj (hparse'.symm.trans hparse)

theorem collisionsJust_iff (U : Unicode R) (t : Worktree) : CollisionsJust U t ↔ CorpusApart U t := by
  constructor
  · rintro h page hpage ⟨other, hother, hbeside, n, hn, o, ho, hsame⟩
    have hkey := (mem_nameKeys_corpus hpage).mpr ⟨n, hn, hsame⟩
    have hkey' := (mem_nameKeys_corpus hother).mpr ⟨o, ho, rfl⟩
    obtain ⟨page', hpage', heq, hwhy⟩ :=
      h _ (mem_nameCollisions.mpr ⟨page, hpage, _, hkey, other, hother, hbeside, hkey', rfl⟩)
    rw [eq_of_path hpage hpage' heq] at hwhy
    exact hwhy
  · intro h v hv
    obtain ⟨page, hpage, key, hkey, other, hother, hbeside, hkey', rfl⟩ := mem_nameCollisions.mp hv
    obtain ⟨n, hn, hsame⟩ := (mem_nameKeys_corpus hpage).mp hkey
    obtain ⟨o, ho, hsame'⟩ := (mem_nameKeys_corpus hother).mp hkey'
    exact ⟨page, hpage, rfl, h page hpage ⟨other, hother, hbeside, n, hn, o, ho, hsame.trans hsame'.symm⟩⟩

/-- creations, renames, aliases and the pages of a corpus are turned down for the letters of a name exactly where names
with one key have them in common -/
theorem distinct_names (U : Unicode R) :
    (∀ t mutations, CreationsJust U t mutations ↔ CreationsApart U t mutations) ∧
      (∀ t path newTitle day, RenameJust U t path newTitle day ↔ RenameApart U t path newTitle) ∧
        (∀ values title, AliasesJust U values title ↔ (Distinct U values title → Fit R values title)) ∧
          ∀ t, CollisionsJust U t ↔ CorpusApart U t :=
  ⟨creationsJust_iff U, renameJust_iff U, aliasesJust_iff U, collisionsJust_iff U⟩

end

/-! ## two names in Cyrillic -/

/-- letters in lower case, and no accents, outside ASCII -/
def isLetter (c : Char) : Bool := if c.toNat < 128 then Ascii.isAlnum c else !Text.isSpace c

def scripts : Unicode ascii where
  nfkd := id
  fold := fun c => [Ascii.lowerChar c]
  isLetter := isLetter
  nfkdAscii_eq := fun _ => rfl
  casefold_eq := fun _ => List.map_eq_flatMap
  lower_eq := fun _ _ => rfl
  nfkd_nfc := fun _ => rfl
  nfkd_append := fun a b c _ => by rw [id, id, id, id, List.append_assoc, List.singleton_append]
  not_isLetter := by
    intro c hc
    show isLetter c = false ∧ ∀ d ∈ [Ascii.lowerChar c], isLetter d = false
    rw [List.forall_mem_singleton]
    by_cases hascii : c.toNat < 128
    · have hall := ascii_all (f := fun c => !isSeparator c || (!isLetter c && !isLetter (Ascii.lowerChar c)))
        (by decide +kernel) hascii
      rw [hc, Bool.not_true, Bool.false_or, Bool.and_eq_true, Bool.not_eq_true', Bool.not_eq_true'] at hall
      exact hall
    · have hspace : Text.isSpace c = true := by
        rw [isSeparator, isAscii, decide_eq_false hascii, Bool.false_and, Bool.or_false] at hc
        exact hc
      have hlower : Ascii.lowerChar c = c := by
        refine (Ascii.lowerChar_or c).resolve_right fun hmem => hascii ?_
        have hcapitals : ∀ d ∈ Ascii.capitals, d.toNat < 128 := by decide
        exact hcapitals c hmem
      rw [hlower, isLetter, if_neg hascii, hspace]
      exact ⟨rfl, rfl⟩

def entityPage (title : String) : KnowledgePage :=
  { path := "wiki/entities/".toList ++ title.toList ++ ".md".toList
    pageId := "page_".toList ++ title.toList
    role := .entity
    title := title.toList
    status := "seed".toList
    created := "2026-01-01".toList
    updated := "2026-01-01".toList
    acl := none
    sources := []
    body := "# ".toList ++ title.toList ++ "\n\nA company.".toList
    entityType := some "organization".toList
    aliases := [] }

def entityText (title : String) : Text :=
  withFrontMatter ascii (metadataOf ascii (entityPage title)
    [("entity_type".toList, .str "organization".toList), ("aliases".toList, ofList ascii [])])
    ('\n' :: (entityPage title).body ++ ['\n'])

def yandexTree : Worktree := (∅ : Worktree).insert (entityPage "яндекс").path (entityText "яндекс")

def bothTree : Worktree := yandexTree.insert (entityPage "сбер").path (entityText "сбер")

def createSber : PageMutation :=
  ⟨.create, some .entity, none, some "сбер".toList, some "A bank.".toList, none, some "organization".toList, none,
    "new".toList⟩

theorem entityPages_yandex : entityPages ascii yandexTree = .ok [((entityPage "яндекс").path, entityPage "яндекс")] := by
  have hpages : (entityPages ascii yandexTree).toOption = some [((entityPage "яндекс").path, entityPage "яндекс")] := by
    decide +kernel
  cases h : entityPages ascii yandexTree with
  | error e =>
    rw [h] at hpages
    exact nomatch hpages
  | ok pages =>
    rw [h] at hpages
    rw [Option.some.inj hpages]

theorem not_distinct_names : ¬CreationsJust scripts yandexTree [createSber] ∧
    ¬RenameJust scripts yandexTree (entityPage "яндекс").path "yandex".toList "2026-01-02".toList ∧
      ¬CollisionsJust scripts bothTree := by
  refine ⟨fun h => ?_, fun h => ?_, fun h => ?_⟩
  · have hdropped : Dropped ascii (before ascii yandexTree [((entityPage "яндекс").path, entityPage "яндекс")] [])
        createSber := ⟨rfl, by decide +kernel⟩
    have hone := h _ entityPages_yandex [] createSber [] rfl hdropped
    revert hone
    unfold OneName
    decide +kernel
  · have hpath : pagePath ascii .entity "yandex".toList = .ok "wiki/entities/yandex.md".toList := rfl
    have hrefused : (renameEntity ascii yandexTree (entityPage "яндекс").path "yandex".toList
        "2026-01-02".toList).toOption.isNone = true := by
      decide +kernel
    cases hrename : renameEntity ascii yandexTree (entityPage "яндекс").path "yandex".toList "2026-01-02".toList with
    | error e =>
      obtain ⟨_, -, o, ho, -⟩ := h _ (entityPage "яндекс") _ entityPages_yandex (by decide +kernel) hpath e hrename
      have hempty : others [((entityPage "яндекс").path, entityPage "яндекс")] (entityPage "яндекс").path = [] := by
        decide +kernel
      rw [hempty] at ho
      exact absurd ho List.not_mem_nil
    | ok renamed =>
      rw [hrename] at hrefused
      exact nomatch hrefused
  · have hreported : (Lint.nameCollisions ascii (Lint.pagesOf ascii bothTree)).isEmpty = false := by decide +kernel
    obtain ⟨v, hv⟩ := List.exists_mem_of_ne_nil _ (List.isEmpty_eq_false_iff.mp hreported)
    obtain ⟨page, hpage, -, other, hother, ⟨-, hne⟩, n, hn, o, ho, hsame⟩ := h v hv
    have hapart : ((Lint.pagesOf ascii bothTree).all fun page => (Lint.pagesOf ascii bothTree).all fun other =>
        decide (other.path = page.path) || (namesIn ascii page).all fun n => (namesIn ascii other).all fun o =>
          decide (scripts.letters n ≠ scripts.letters o)) = true := by
      decide +kernel
    have hpair := List.all_eq_true.mp (List.all_eq_true.mp hapart page hpage) other hother
    rw [decide_eq_false hne, Bool.false_or] at hpair
    have hnames := List.all_eq_true.mp (List.all_eq_true.mp hpair n hn) o ho
    exact of_decide_eq_true hnames hsame

end Names
