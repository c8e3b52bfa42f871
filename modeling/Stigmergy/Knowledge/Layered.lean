import Stigmergy.Kernel.Ascii
import Stigmergy.Kernel.Body
import Stigmergy.Knowledge.ContradictionJson
import Stigmergy.Knowledge.Pages
import Stigmergy.Lib.Checks

/-!
# Views of a layer

`knowledge/layered.py`: a view shows the public pages and the pages of one layer as one repository, and
what was changed in it is stored in the layer alone.

* `buildView`       the view of a layer;
* `project`         the changes of a view, computed before the first file is touched;
* `applyWrites_ok`  writes under different paths do not get in each other's way;
* `project_confined`   a refused projection changes nothing, an accepted one changes its layer only.
-/

set_option linter.unusedSectionVars false

namespace Layered

open Pages Body Layers

def NARROWER : Text := "the page has readers outside the capture's audience".toList

abbrev Bytes := List ℕ

structure LayerView where
  layer : Text
  publicPages : List (Text × KnowledgePage)
  ownPages : List (Text × KnowledgePage)
  before : List (Text × Bytes)

section
variable (R : Runtime)

/-! ## reading pages -/

/-- the virtual path of a file of one layer -/
def virtualIn (layer path : Text) : Option Text :=
  match splitPath path with
  | some (owner, vpath) => if owner = layer then some vpath else none
  | none => none

/-- the Markdown files of one folder of a layer, by virtual path -/
def layerFiles (tree : Worktree) (layer folder : Text) : List (Text × Text) :=
  (tree.entries.filterMap fun e => (virtualIn layer e.1).bind fun vpath =>
    if inFolder folder vpath then some (vpath, e.2) else none).insertionSort fun a b => a.1 ≤ b.1

/-- each file with the page in it -/
def parseFiles : List (Text × Text) → Except Text (List (Text × KnowledgePage × Text))
  | [] => .ok []
  | (vpath, file) :: files =>
    let text := Text.universalNewlines file
    match parsePage R vpath text with
    | .error e => .error e
    | .ok page => (parseFiles files).map ((vpath, page, text) :: ·)

/-- `knowledge_pages` -/
def knowledgePages (tree : Worktree) (layer : Text) : Except Text (List (Text × KnowledgePage × Text)) :=
  parseFiles R (KNOWLEDGE_FOLDERS.flatMap (layerFiles tree layer))

/-! ## the view -/

/-- `_with_audience` -/
def withAudience (page : KnowledgePage) (acl : Option (List Text)) : Except Text Text :=
  renderPage R { page with acl := acl }

/-- the first alias of each key but the title's -/
def mergedAliases (base own : KnowledgePage) : List Text :=
  let pairs := ((base.aliases ++ own.aliases).map fun a => (resolutionKey R a, a)).filter fun e =>
    e.1 != resolutionKey R base.title
  (firsts (pairs.map Prod.fst)).filterMap fun key => pairs.lookup key

/-- `_merged` -/
def merged (base own : KnowledgePage) : Except Text Text :=
  renderPage R
    { base with
      body := mergeForWriting R "view".toList base.body own.body
      acl := none
      sources := firsts (base.sources ++ own.sources)
      created := min base.created own.created
      updated := max base.updated own.updated
      aliases := if base.role = .entity then mergedAliases R base own else [] }

/-- the pages of the layer as the view shows them -/
def openPages (known : List (Text × KnowledgePage)) :
    List (Text × KnowledgePage × Text) → Except Text (List (Text × Text))
  | [] => .ok []
  | (vpath, page, _) :: own =>
    match (match known.lookup vpath with
      | none => withAudience R page none
      | some base => merged R base page) with
    | .error e => .error e
    | .ok text => (openPages known own).map ((vpath, text) :: ·)

/-- the pages of the dictionary `knowledge_pages` returns -/
def pagesOf (files : List (Text × KnowledgePage × Text)) : List (Text × KnowledgePage) :=
  files.map fun f => (f.1, f.2.1)

/-- `build_view`, its pages only -/
def buildView (tree : Worktree) (layer : Text) : Except Text LayerView :=
  match knowledgePages R tree PUBLIC with
  | .error e => .error e
  | .ok known =>
    if layer = PUBLIC then
      .ok ⟨layer, pagesOf known, pagesOf known,
        known.map fun f => (f.1, Contradictions.utf8Bytes f.2.2)⟩
    else
      match knowledgePages R tree layer with
      | .error e => .error e
      | .ok own =>
        match openPages R (pagesOf known) own with
        | .error e => .error e
        | .ok opened =>
          let shown := (known.filter fun f => !(pagesOf own).any fun e => e.1 == f.1).map fun f => (f.1, f.2.2)
          .ok ⟨layer, pagesOf known, pagesOf own,
            (shown ++ opened).map fun f => (f.1, Contradictions.utf8Bytes f.2)⟩

/-- `snapshot` of the edited view -/
def snapshot (edited : List (Text × Bytes)) : List (Text × Bytes) :=
  edited.filter fun e => KNOWLEDGE_FOLDERS.any fun folder => inFolder folder e.1

/-! ## what a change is stored as -/

/-- `physical_path` -/
def targetOf (layer vpath : Text) : Except Text Text :=
  if layer = PUBLIC ∨ isLayerName layer = true then .ok (physicalPath layer vpath)
  else .error "layer name is invalid".toList

/-- `_layer_part`: the text stored in the layer, or the note why there is none -/
def layerPart (freshId day : Text) (strict : Bool) (layer : Text) (page base : KnowledgePage)
    (own : Option KnowledgePage) : Except Text (Text ⊕ Text) :=
  let kept := keysOf R (parseBody R PUBLIC page.body)
  let lost := (keysOf R (parseBody R PUBLIC base.body)).filter fun key => !kept.contains key
  if strict && !lost.isEmpty then .error "a layer write cannot change a public page".toList
  else
    let body := splitFromPublic R page.body base.body
    if body.isEmpty then
      .ok (.inr ("update to ".toList ++ page.path ++ " added nothing beyond the public page".toList))
    else
      let publicNames := (base.title :: base.aliases).map (resolutionKey R)
      let aliases := page.aliases.filter fun a => !publicNames.contains (resolutionKey R a)
      let sources := firsts ((own.map KnowledgePage.sources).getD [] ++
        page.sources.filter fun source => !base.sources.contains source)
      (renderPage R
        { page with
          body := body
          acl := aclOfLayer layer
          sources := sources
          pageId := (own.map KnowledgePage.pageId).getD freshId
          created := (own.map KnowledgePage.created).getD day
          aliases := if page.role = .entity then aliases else [] }).map .inl

/-- one round of the loop of `project`: its write and its note -/
def projectPage (fresh : Text → Text) (day : Text) (strict : Bool) (view : LayerView)
    (after : List (Text × Bytes)) (vpath : Text) :
    Except Text (Option (Text × Option Text) × Option Text) :=
  if view.before.lookup vpath = after.lookup vpath then .ok (none, none)
  else
    (targetOf view.layer vpath).bind fun target =>
      match after.lookup vpath with
      | none =>
        if (view.ownPages.lookup vpath).isSome then .ok (some (target, none), none)
        else if strict then .error "a layer write cannot delete a public page".toList
        else .ok (none, some ("delete of ".toList ++ vpath ++ " was not applied: ".toList ++ NARROWER))
      | some bytes =>
        match Contradictions.ofUtf8 bytes with
        | none => .error "invalid start byte".toList
        | some text =>
          (parsePage R vpath text).bind fun page =>
            if view.layer = PUBLIC then .ok (some (target, some text), none)
            else
              match view.publicPages.lookup vpath with
              | none => (withAudience R page (aclOfLayer view.layer)).map fun t => (some (target, some t), none)
              | some base =>
                (layerPart R (fresh vpath) day strict view.layer page base (view.ownPages.lookup vpath)).map fun
                  | .inl t => (some (target, some t), none)
                  | .inr note => (none, some note)

/-- the writes and the notes of all rounds -/
def projectPages (fresh : Text → Text) (day : Text) (strict : Bool) (view : LayerView)
    (after : List (Text × Bytes)) : List Text → Except Text (List (Text × Option Text) × List Text)
  | [] => .ok ([], [])
  | vpath :: vpaths =>
    (projectPage R fresh day strict view after vpath).bind fun found =>
      (projectPages fresh day strict view after vpaths).map fun rest =>
        (found.1.toList ++ rest.1, found.2.toList ++ rest.2)

/-! ## storing it -/

inductive Change where
  | created | updated | deleted
deriving DecidableEq

/-- one file written, or one taken away that must be there -/
def applyWrite (work : Worktree) : Text × Option Text → Except Text (Worktree × Change)
  | (target, none) =>
    if target ∈ work then .ok (work.erase target, .deleted)
    else .error ("No such file or directory: ".toList ++ target)
  | (target, some text) => .ok (work.insert target text, if target ∈ work then .updated else .created)

/-- the files after the writes, up to the first that fails -/
def applyWrites (work : Worktree) : List (Text × Option Text) → Worktree × Except Text (List (Text × Change))
  | [] => (work, .ok [])
  | w :: ws =>
    match applyWrite work w with
    | .error e => (work, .error e)
    | .ok (next, change) =>
      ((applyWrites next ws).1, (applyWrites next ws).2.map ((w.1, change) :: ·))

/-- `project`: the files of the worktree, and the changes with the notes -/
def project (fresh : Text → Text) (day : Text) (strict : Bool) (view : LayerView)
    (edited : List (Text × Bytes)) (work : Worktree) : Worktree × Except Text (List (Text × Change) × List Text) :=
  let after := snapshot edited
  let vpaths := sortedSet (view.before.map Prod.fst ++ after.map Prod.fst)
  match projectPages R fresh day strict view after vpaths with
  | .error e => (work, .error e)
  | .ok (writes, notes) =>
    ((applyWrites work writes).1, (applyWrites work writes).2.map fun changes => (changes, notes))

end

/-! ## storing different paths -/

theorem applyWrite_ok {work : Worktree} {w : Text × Option Text} (h : w.2 = none → w.1 ∈ work) :
    ∃ next change, applyWrite work w = .ok (next, change) ∧ next.lookup w.1 = w.2 ∧
      (change = .deleted ↔ w.2 = none) ∧ ∀ path, path ≠ w.1 → next.lookup path = work.lookup path := by
  obtain ⟨target, written⟩ := w
  cases written with
  | none =>
    refine ⟨work.erase target, .deleted, if_pos (h rfl), AList.lookup_erase target work, by simp, ?_⟩
    exact fun path hne => AList.lookup_erase_ne hne
  | some text =>
    refine ⟨work.insert target text, _, rfl, AList.lookup_insert work, ?_, ?_⟩
    · split
      · simp
      · simp
    · exact fun path hne => AList.lookup_insert_ne hne

/-- what the writes of a projection leave -/
structure Written (work out : Worktree) (ws : List (Text × Option Text)) (changes : List (Text × Change)) : Prop where
  targets : changes.map Prod.fst = ws.map Prod.fst
  lookup : ∀ w ∈ ws, out.lookup w.1 = w.2
  frame : ∀ path, path ∉ ws.map Prod.fst → out.lookup path = work.lookup path
  deleted : ∀ e ∈ changes, e.2 = .deleted ↔ (e.1, none) ∈ ws

theorem applyWrites_ok {ws : List (Text × Option Text)} {work : Worktree} (hnodup : (ws.map Prod.fst).Nodup)
    (hthere : ∀ w ∈ ws, w.2 = none → w.1 ∈ work) :
    ∃ changes, (applyWrites work ws).2 = .ok changes ∧ Written work (applyWrites work ws).1 ws changes := by
  induction ws generalizing work with
  | nil =>
    exact ⟨[], rfl, rfl, fun w hw => absurd hw List.not_mem_nil, fun _ _ => rfl,
      fun e he => absurd he List.not_mem_nil⟩
  | cons w ws ih =>
    obtain ⟨next, change, hstep, hlookup, hdeleted, hframe⟩ := applyWrite_ok (hthere w List.mem_cons_self)
    rw [List.map_cons, List.nodup_cons] at hnodup
    have hne : ∀ v ∈ ws, v.1 ≠ w.1 := fun v hv h => hnodup.1 (h ▸ List.mem_map_of_mem hv)
    have hnext : ∀ v ∈ ws, v.2 = none → v.1 ∈ next := by
      intro v hv hnone
      have hmem := hthere v (List.mem_cons_of_mem w hv) hnone
      rw [← AList.lookup_isSome, hframe v.1 (hne v hv), AList.lookup_isSome]
      exact hmem
    obtain ⟨changes, hrest, hwritten⟩ := ih hnodup.2 hnext
    rw [applyWrites, hstep]
    dsimp only
    refine ⟨(w.1, change) :: changes, by rw [hrest]; rfl, ?_, ?_, ?_, ?_⟩
    · rw [List.map_cons, List.map_cons, hwritten.targets]
    · intro v hv
      rcases List.mem_cons.mp hv with rfl | hv
      · rw [hwritten.frame v.1 hnodup.1, hlookup]
      · exact hwritten.lookup v hv
    · intro path hpath
      rw [List.map_cons, List.mem_cons, not_or] at hpath
      rw [hwritten.frame path hpath.2, hframe path hpath.1]
    · intro e he
      rcases List.mem_cons.mp he with rfl | he
      · rw [hdeleted, List.mem_cons]
        refine ⟨fun h => Or.inl (h ▸ rfl), fun h => ?_⟩
        rcases h with h | h
        · rw [← h]
        · exact absurd (List.mem_map_of_mem (f := Prod.fst) h) hnodup.1
      · rw [hwritten.deleted e he, List.mem_cons]
        refine ⟨Or.inr, fun h => ?_⟩
        rcases h with h | h
        · have hmem : e.1 ∈ ws.map Prod.fst := hwritten.targets ▸ List.mem_map_of_mem he
          rw [← h] at hnodup
          exact absurd hmem hnodup.1
        · exact h

/-! ## where the writes of a layer go -/

theorem isSpace_of_isLayerName {name : Text} (h : isLayerName name = true) :
    name ≠ [] ∧ ∀ c ∈ name, Text.isSpace c = false := by
  have hchar : ∀ c, isLower c || isDigit c || c == '-' → Text.isSpace c = false := by
    intro c hc
    simp only [isLower, isDigit, Bool.or_eq_true, Bool.and_eq_true, decide_eq_true_eq, beq_iff_eq] at hc
    have hrange : 45 ≤ c.toNat ∧ c.toNat ≤ 122 := by
      rcases hc with (⟨h1, h2⟩ | ⟨h1, h2⟩) | rfl
      · exact ⟨le_trans (by decide) h1, h2⟩
      · exact ⟨le_trans (by decide) h1, le_trans h2 (by decide)⟩
      · decide
    have hall : ∀ n ≤ 122, 45 ≤ n → Text.isSpace (Char.ofNat n) = false := by decide
    have hc := hall c.toNat hrange.2 hrange.1
    rwa [Char.ofNat_toNat] at hc
  rw [isLayerName, Bool.and_eq_true] at h
  cases name with
  | nil => exact nomatch h.1
  | cons c t =>
    have hm := h.1
    simp only [matchesName, Bool.and_eq_true, List.all_eq_true] at hm
    refine ⟨List.cons_ne_nil c t, fun d hd => ?_⟩
    rcases List.mem_cons.mp hd with rfl | hd
    · exact hchar d (by rw [hm.1.1]; rfl)
    · exact hchar d (hm.1.2 d hd)

theorem physicalPath_inj {layer v w : Text} (h : physicalPath layer v = physicalPath layer w) : v = w := by
  unfold physicalPath at h
  split at h
  · exact h
  · exact List.cons_inj_right '/' |>.mp (List.append_cancel_left h)

/-- what lies under the folder of a layer -/
def under (layer path : Text) : Bool := Text.startsWith (LAYER_ROOT ++ '/' :: layer ++ ['/']) path

theorem under_physicalPath {layer : Text} (h : isLayerName layer = true) (vpath : Text) :
    under layer (physicalPath layer vpath) = true := by
  have hcut : physicalPath layer vpath = (LAYER_ROOT ++ '/' :: layer ++ ['/']) ++ vpath := by
    rw [physicalPath, if_neg (isLayerName_ne_public h), List.append_assoc _ ['/']]
    rfl
  rw [under, hcut]
  exact startsWith_append _ _

section
variable {R : Runtime}

/-- the front matter of a text names one layer, to the index and to the page contract -/
def Declares (R : Runtime) (layer text : Text) : Prop :=
  ∃ metadata body, Corpus.splitFrontmatter R text = (metadata, body, false) ∧
    Corpus.aclLabels metadata = some [layer] ∧
    stringsOrNone (metadata.get "acl") "acl" = .ok (some [layer])

theorem declares_renderPage {layer text : Text} {p : KnowledgePage} (hname : isLayerName layer = true)
    (hacl : p.acl = some [layer]) (h : renderPage R p = .ok text) : Declares R layer text := by
  obtain ⟨entity, -, hsplit⟩ := splitFrontmatter_renderPage R h
  obtain ⟨hne, hchars⟩ := isSpace_of_isLayerName hname
  have hstrip : Text.strip layer = layer := Text.strip_eq_self_of_all hchars
  have hblank : Text.isBlank layer = false := by
    cases layer with
    | nil => exact absurd rfl hne
    | cons c t => exact Text.not_blank_cons (hchars c List.mem_cons_self) t
  have hget : (metadataOf R p entity).get "acl" = .list [.str layer] (R.showList [layer]) := by
    rw [metadataOf, hacl]
    rfl
  refine ⟨metadataOf R p entity, _, hsplit, ?_, ?_⟩
  · have hempty : layer.isEmpty = false := by rwa [List.isEmpty_eq_false_iff]
    rw [Corpus.aclLabels, hget]
    simp only [List.filterMap_cons, List.filterMap_nil, Yaml.asStr, List.map_cons, List.map_nil, hstrip,
      List.filter_cons, List.filter_nil, hempty, Bool.not_false, if_true, List.length_singleton]
    rfl
  · rw [hget, stringsOrNone, strings, asStrings, hblank]
    · simp only [asStrings, Option.map_some, List.map_cons, List.map_nil, hstrip, Bool.false_eq_true, if_false,
        List.nodup_singleton, if_true]
    · exact nofun

/-- a write of a layer at one virtual path -/
structure Stored (R : Runtime) (view : LayerView) (vpath : Text) (w : Text × Option Text) : Prop where
  target : w.1 = physicalPath view.layer vpath
  removed : w.2 = none → (view.ownPages.lookup vpath).isSome
  written : ∀ text, w.2 = some text → Declares R view.layer text

theorem stored_render {view : LayerView} {vpath text : Text} {p : KnowledgePage}
    (hname : isLayerName view.layer = true) (hacl : p.acl = aclOfLayer view.layer)
    (h : renderPage R p = .ok text) : Stored R view vpath (physicalPath view.layer vpath, some text) := by
  rw [aclOfLayer, if_neg (isLayerName_ne_public hname)] at hacl
  refine ⟨rfl, nofun, fun t ht => ?_⟩
  obtain rfl := Option.some.inj ht
  exact declares_renderPage hname hacl h

variable {fresh : Text → Text} {day : Text} {strict : Bool} {view : LayerView} {after : List (Text × Bytes)}

theorem layerPart_ok {freshId layer text : Text} {page base : KnowledgePage} {own : Option KnowledgePage}
    (h : layerPart R freshId day strict layer page base own = .ok (.inl text)) :
    ∃ p : KnowledgePage, p.acl = aclOfLayer layer ∧ renderPage R p = .ok text := by
  unfold layerPart at h
  dsimp only at h
  split at h
  · exact nomatch h
  · split at h
    · exact nomatch Except.ok.inj h
    · obtain ⟨t, ht, heq⟩ := Checks.map_eq_ok h
      obtain rfl := Sum.inl.inj heq
      exact ⟨_, rfl, ht⟩

/-- each of the branches stores in the layer, or not at all -/
theorem stored_projectPage (hname : isLayerName view.layer = true) {vpath : Text}
    {found : Option (Text × Option Text) × Option Text}
    (h : projectPage R fresh day strict view after vpath = .ok found) :
    ∀ w ∈ found.1, Stored R view vpath w := by
  have htarget : targetOf view.layer vpath = .ok (physicalPath view.layer vpath) := if_pos (Or.inr hname)
  unfold projectPage at h
  split at h
  · obtain rfl := Except.ok.inj h
    exact nofun
  · rw [htarget] at h
    change (match after.lookup vpath with
      | none => _
      | some bytes => _) = Except.ok found at h
    split at h
    · split at h
      · next hown =>
        obtain rfl := Except.ok.inj h
        intro w hw
        obtain rfl := Option.some.inj hw
        exact ⟨rfl, fun _ => hown, nofun⟩
      · split at h
        · exact nomatch h
        · obtain rfl := Except.ok.inj h
          exact nofun
    · split at h
      · exact nomatch h
      · next text _ =>
        cases hpage : parsePage R vpath text with
        | error e =>
          rw [hpage] at h
          exact nomatch h
        | ok page =>
          rw [hpage] at h
          change (if view.layer = PUBLIC then _ else _) = Except.ok found at h
          rw [if_neg (isLayerName_ne_public hname)] at h
          split at h
          · obtain ⟨t, ht, rfl⟩ := Checks.map_eq_ok h
            intro w hw
            obtain rfl := Option.some.inj hw
            exact stored_render hname rfl ht
          · obtain ⟨part, hpart, rfl⟩ := Checks.map_eq_ok h
            cases part with
            | inr note => exact nofun
            | inl t =>
              intro w hw
              obtain rfl := Option.some.inj hw
              obtain ⟨p, hacl, hrender⟩ := layerPart_ok hpart
              exact stored_render hname hacl hrender

/-- the writes of a projection: one at most for each path -/
theorem stored_projectPages (hname : isLayerName view.layer = true) {vpaths : List Text}
    {found : List (Text × Option Text) × List Text}
    (h : projectPages R fresh day strict view after vpaths = .ok found) (hnodup : vpaths.Nodup) :
    (∀ w ∈ found.1, ∃ vpath ∈ vpaths, Stored R view vpath w) ∧ (found.1.map Prod.fst).Nodup := by
  induction vpaths generalizing found with
  | nil =>
    obtain rfl := Except.ok.inj h
    exact ⟨fun w hw => absurd hw List.not_mem_nil, List.nodup_nil⟩
  | cons vpath vpaths ih =>
    rw [projectPages] at h
    cases hpage : projectPage R fresh day strict view after vpath with
    | error e =>
      rw [hpage] at h
      exact nomatch h
    | ok one =>
      rw [hpage] at h
      obtain ⟨rest, hrest, rfl⟩ := Checks.map_eq_ok h
      rw [List.nodup_cons] at hnodup
      obtain ⟨hstored, hdistinct⟩ := ih hrest hnodup.2
      have hone := stored_projectPage hname hpage
      constructor
      · intro w hw
        rcases List.mem_append.mp hw with hw | hw
        · exact ⟨vpath, List.mem_cons_self, hone w (Option.mem_toList.mp hw)⟩
        · obtain ⟨v, hv, hs⟩ := hstored w hw
          exact ⟨v, List.mem_cons_of_mem vpath hv, hs⟩
      · obtain ⟨write, note⟩ := one
        cases write with
        | none => exact hdistinct
        | some w =>
          rw [Option.toList_some, List.singleton_append, List.map_cons, List.nodup_cons]
          refine ⟨fun hmem => ?_, hdistinct⟩
          obtain ⟨u, hu, heq⟩ := List.mem_map.mp hmem
          obtain ⟨v, hv, hs⟩ := hstored u hu
          have hpath := (hone w rfl).target
          rw [← heq, hs.target] at hpath
          exact hnodup.1 (physicalPath_inj hpath ▸ hv)

/-! ## the pages of the layer are there -/

theorem mem_layerFiles {tree : Worktree} {layer folder : Text} {f : Text × Text}
    (h : f ∈ layerFiles tree layer folder) : physicalPath layer f.1 ∈ tree := by
  rw [layerFiles, List.mem_insertionSort, List.mem_filterMap] at h
  obtain ⟨e, he, hf⟩ := h
  obtain ⟨vpath, hvirtual, hfolder⟩ := Option.bind_eq_some_iff.mp hf
  split at hfolder
  · obtain rfl := Option.some.inj hfolder
    unfold virtualIn at hvirtual
    split at hvirtual
    · next owner v hsplit =>
      split at hvirtual
      · next heq =>
        obtain rfl := Option.some.inj hvirtual
        rw [← heq, physicalPath_splitPath hsplit]
        exact AList.mem_keys.mpr (List.mem_map_of_mem he)
      · exact nomatch hvirtual
    · exact nomatch hvirtual
  · exact nomatch hfolder

theorem map_fst_parseFiles {files : List (Text × Text)} {pages : List (Text × KnowledgePage × Text)}
    (h : parseFiles R files = .ok pages) : pages.map Prod.fst = files.map Prod.fst := by
  induction files generalizing pages with
  | nil =>
    obtain rfl := Except.ok.inj h
    rfl
  | cons file files ih =>
    rw [parseFiles] at h
    split at h
    · exact nomatch h
    · obtain ⟨rest, hrest, rfl⟩ := Checks.map_eq_ok h
      rw [List.map_cons, List.map_cons, ih hrest]

theorem mem_of_knowledgePages {tree : Worktree} {layer vpath : Text} {pages : List (Text × KnowledgePage × Text)}
    (h : knowledgePages R tree layer = .ok pages) (hown : ((pagesOf pages).lookup vpath).isSome) :
    physicalPath layer vpath ∈ tree := by
  have hmem : vpath ∈ pages.map Prod.fst := by
    obtain ⟨e, he, heq⟩ := List.lookup_isSome_iff.mp hown
    obtain ⟨f, hf, rfl⟩ := List.mem_map.mp he
    exact (beq_iff_eq.mp heq) ▸ List.mem_map_of_mem hf
  rw [map_fst_parseFiles h] at hmem
  obtain ⟨file, hfile, rfl⟩ := List.mem_map.mp hmem
  obtain ⟨folder, -, hfolder⟩ := List.mem_flatMap.mp hfile
  exact mem_layerFiles hfolder

theorem buildView_ok {tree : Worktree} {layer : Text} (hname : isLayerName layer = true)
    (h : buildView R tree layer = .ok view) : view.layer = layer ∧
      ∀ vpath, (view.ownPages.lookup vpath).isSome → physicalPath layer vpath ∈ tree := by
  unfold buildView at h
  split at h
  · exact nomatch h
  · rw [if_neg (isLayerName_ne_public hname)] at h
    split at h
    · exact nomatch h
    · next own hown =>
      split at h
      · exact nomatch h
      · obtain rfl := Except.ok.inj h
        exact ⟨rfl, fun vpath hv => mem_of_knowledgePages hown hv⟩

/-! ## a projection -/

/-- the changes stay in one layer, and what is written declares it -/
structure Confined (R : Runtime) (layer : Text) (work out : Worktree) (changes : List (Text × Change)) : Prop where
  within : ∀ e ∈ changes, under layer e.1 = true
  elsewhere : ∀ path, under layer path = false → out.lookup path = work.lookup path
  unchanged : ∀ path, path ∉ changes.map Prod.fst → out.lookup path = work.lookup path
  deleted : ∀ e ∈ changes, e.2 = .deleted → out.lookup e.1 = none
  audience : ∀ e ∈ changes, e.2 ≠ .deleted → ∃ text, out.lookup e.1 = some text ∧ Declares R layer text

/-- a projection into a layer is refused and leaves the worktree as it was, or changes that layer only -/
theorem project_confined {tree work : Worktree} {layer : Text} (hname : isLayerName layer = true)
    (hview : buildView R tree layer = .ok view) (hkept : ∀ path ∈ tree, path ∈ work)
    (edited : List (Text × Bytes)) :
    (∃ e, (project R fresh day strict view edited work).2 = .error e ∧
      (project R fresh day strict view edited work).1 = work) ∨
    ∃ changes notes, (project R fresh day strict view edited work).2 = .ok (changes, notes) ∧
      Confined R layer work (project R fresh day strict view edited work).1 changes := by
  obtain ⟨rfl, hown⟩ := buildView_ok hname hview
  unfold project
  dsimp only
  split
  · next e _ => exact Or.inl ⟨e, rfl, rfl⟩
  · next writes notes hpages =>
    obtain ⟨hstored, hnodup⟩ := stored_projectPages hname hpages (nodup_sortedSet _)
    have hthere : ∀ w ∈ writes, w.2 = none → w.1 ∈ work := by
      intro w hw hnone
      obtain ⟨vpath, -, hs⟩ := hstored w hw
      exact hs.target ▸ hkept _ (hown vpath (hs.removed hnone))
    obtain ⟨changes, hresult, hwritten⟩ := applyWrites_ok hnodup hthere
    have hwithin : ∀ path ∈ writes.map Prod.fst, under view.layer path = true := by
      intro path hpath
      obtain ⟨w, hw, rfl⟩ := List.mem_map.mp hpath
      obtain ⟨vpath, -, hs⟩ := hstored w hw
      exact hs.target ▸ under_physicalPath hname vpath
    refine Or.inr ⟨changes, notes, by rw [hresult]; rfl, ?_, ?_, ?_, ?_, ?_⟩
    · intro e he
      exact hwithin e.1 (hwritten.targets ▸ List.mem_map_of_mem he)
    · intro path hpath
      refine hwritten.frame path fun hmem => ?_
      rw [hwithin path hmem] at hpath
      exact nomatch hpath
    · intro path hpath
      exact hwritten.frame path (hwritten.targets ▸ hpath)
    · intro e he hdel
      exact hwritten.lookup _ ((hwritten.deleted e he).mp hdel)
    · intro e he hdel
      have hmem : e.1 ∈ writes.map Prod.fst := hwritten.targets ▸ List.mem_map_of_mem he
      obtain ⟨⟨target, written⟩, hw, heq⟩ := List.mem_map.mp hmem
      obtain rfl : target = e.1 := heq
      cases written with
      | none => exact absurd ((hwritten.deleted e he).mpr hw) hdel
      | some text =>
        obtain ⟨vpath, -, hs⟩ := hstored _ hw
        exact ⟨text, hwritten.lookup _ hw, hs.written text rfl⟩

end

/-! ## a layer with one page -/

def DEALS : Text := "deals".toList

def betaPage : KnowledgePage :=
  { path := "wiki/notes/Beta.md".toList
    pageId := "page_1".toList
    role := .note
    title := "Beta".toList
    status := "seed".toList
    created := "2026-01-01".toList
    updated := "2026-01-01".toList
    acl := some [DEALS]
    sources := []
    body := "# Beta\n\nA fact.".toList
    entityType := none
    aliases := [] }

def betaText (acl : Option (List Text)) : Text :=
  withFrontMatter ascii (metadataOf ascii { betaPage with acl := acl } [])
    ('\n' :: betaPage.body ++ ['\n'])

def dealsTree : Worktree := (∅ : Worktree).insert "layers/deals/wiki/notes/Beta.md".toList (betaText (some [DEALS]))

def dealsView : LayerView :=
  ⟨DEALS, [], [(betaPage.path, betaPage)], [(betaPage.path, Contradictions.utf8Bytes (betaText none))]⟩

theorem parsePage_beta : parsePage ascii betaPage.path (betaText (some [DEALS])) = .ok betaPage := by
  have hparse : (parsePage ascii betaPage.path (betaText (some [DEALS]))).toOption = some betaPage := by
    decide +kernel
  cases hpage : parsePage ascii betaPage.path (betaText (some [DEALS])) with
  | error e =>
    rw [hpage] at hparse
    exact nomatch hparse
  | ok page =>
    rw [hpage] at hparse
    rw [Option.some.inj hparse]

theorem buildView_deals : buildView ascii dealsTree DEALS = .ok dealsView := by
  have hknown : KNOWLEDGE_FOLDERS.flatMap (layerFiles dealsTree PUBLIC) = [] := by decide +kernel
  have hfiles : KNOWLEDGE_FOLDERS.flatMap (layerFiles dealsTree DEALS) =
      [(betaPage.path, betaText (some [DEALS]))] := by
    decide +kernel
  have hlines : Text.universalNewlines (betaText (some [DEALS])) = betaText (some [DEALS]) := by decide +kernel
  have hopen : (withAudience ascii betaPage none).toOption = some (betaText none) := by decide +kernel
  have hown : knowledgePages ascii dealsTree DEALS =
      .ok [(betaPage.path, betaPage, betaText (some [DEALS]))] := by
    rw [knowledgePages, hfiles, parseFiles, hlines, parsePage_beta]
    rfl
  rw [buildView, knowledgePages, hknown]
  dsimp only [parseFiles]
  rw [if_neg (by decide), hown]
  dsimp only [openPages, pagesOf, List.map_cons, List.map_nil, List.lookup_nil]
  cases hshown : withAudience ascii betaPage none with
  | error e =>
    rw [hshown] at hopen
    exact nomatch hopen
  | ok text =>
    rw [hshown] at hopen
    obtain rfl := Option.some.inj hopen
    rfl

/-- its page deleted in the view -/
theorem project_deals : (∃ e, (project ascii id "2026-02-01".toList true dealsView [] dealsTree).2 = .error e ∧
      (project ascii id "2026-02-01".toList true dealsView [] dealsTree).1 = dealsTree) ∨
    ∃ changes notes,
      (project ascii id "2026-02-01".toList true dealsView [] dealsTree).2 = .ok (changes, notes) ∧
      Confined ascii DEALS dealsTree (project ascii id "2026-02-01".toList true dealsView [] dealsTree).1
        changes :=
  project_confined (by decide) buildView_deals (fun _ h => h) []

end Layered
