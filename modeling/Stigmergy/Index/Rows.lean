import Stigmergy.Index.Webhook

/-!
# The rows of a tree

A rebuild reads the pages of a tree in any order.  The row it writes for a path is a function of the
tree.

* `resolveLinks_congr`   links depend on the virtual paths of the page's scope only;
* `inbound_congr`, `dateIn_congr`   the other derived fields do not depend on the order of the rows;
* `rebuiltRow`           the row of a path, from the tree;
* `lookup_rebuild`       it is what a rebuild leaves in the index.
-/

set_option linter.unusedSectionVars false

namespace Corpus

section
variable (R : Runtime)

/-! ## links -/

theorem mem_byStem {paths : List Text} {layer name vpath : Text} : vpath ∈ byStem R paths layer name ↔
    (∃ path ∈ paths, Layers.splitPath path = some (layer, vpath)) ∧ R.lower (stem vpath) = name := by
  unfold byStem
  rw [List.mem_filterMap]
  constructor
  · rintro ⟨path, hpath, h⟩
    split at h
    · rename_i l v hsplit
      split at h
      · rename_i hcond
        obtain rfl := Option.some.inj h
        obtain ⟨rfl, hname⟩ := hcond
        exact ⟨⟨path, hpath, hsplit⟩, hname⟩
      · exact nomatch h
    · exact nomatch h
  · rintro ⟨⟨path, hpath, hsplit⟩, hname⟩
    refine ⟨path, hpath, ?_⟩
    rw [hsplit]
    exact if_pos ⟨rfl, hname⟩

theorem mem_targets {paths : List Text} {own name vpath : Text} : vpath ∈ targets R paths own name ↔
    (∃ layer ∈ scope own, ∃ path ∈ paths, Layers.splitPath path = some (layer, vpath)) ∧
      R.lower (stem vpath) = name := by
  unfold targets
  rw [List.mem_dedup, List.mem_flatMap]
  constructor
  · rintro ⟨layer, hlayer, h⟩
    obtain ⟨hpath, hname⟩ := (mem_byStem R).mp h
    exact ⟨⟨layer, hlayer, hpath⟩, hname⟩
  · rintro ⟨⟨layer, hlayer, hpath⟩, hname⟩
    exact ⟨layer, hlayer, (mem_byStem R).mpr ⟨hpath, hname⟩⟩

theorem reached_perm {ps qs : List Text} {own name : Text}
    (h : (targets R ps own name).Perm (targets R qs own name)) :
    reached R ps own name = reached R qs own name := by
  unfold reached
  generalize targets R ps own name = l at h ⊢
  generalize targets R qs own name = m at h ⊢
  match l with
  | [] => rw [List.nil_perm.mp h]
  | [a] => rw [List.singleton_perm.mp h]
  | a :: b :: l =>
    have hlen := h.length_eq
    match m with
    | [] => exact absurd hlen (by simp)
    | [c] => exact absurd hlen (by simp)
    | c :: d :: m => rfl

/-- links depend on the virtual paths of the page's own layer and the public one -/
theorem resolveLinks_congr {ps qs : List Text} {own : Text}
    (h : ∀ layer ∈ scope own, ∀ vpath, (∃ path ∈ ps, Layers.splitPath path = some (layer, vpath)) ↔
      ∃ path ∈ qs, Layers.splitPath path = some (layer, vpath)) (names : List Text) :
    resolveLinks R ps own names = resolveLinks R qs own names := by
  have hreached : reached R ps own = reached R qs own := by
    funext name
    have hnodup : ∀ paths, (targets R paths own name).Nodup := fun paths => List.nodup_dedup _
    have hperm : (targets R ps own name).Perm (targets R qs own name) := by
      refine (List.perm_ext_iff_of_nodup (hnodup ps) (hnodup qs)).mpr fun v => ?_
      rw [mem_targets, mem_targets]
      constructor
      · rintro ⟨⟨layer, hlayer, hpath⟩, hname⟩
        exact ⟨⟨layer, hlayer, (h layer hlayer v).mp hpath⟩, hname⟩
      · rintro ⟨⟨layer, hlayer, hpath⟩, hname⟩
        exact ⟨⟨layer, hlayer, (h layer hlayer v).mpr hpath⟩, hname⟩
    exact reached_perm R hperm
  unfold resolveLinks
  rw [hreached]

theorem resolveLinks_congr_mem {ps qs : List Text} (h : ∀ path, path ∈ ps ↔ path ∈ qs) (own : Text)
    (names : List Text) : resolveLinks R ps own names = resolveLinks R qs own names := by
  refine resolveLinks_congr R (fun layer _ vpath => ?_) names
  constructor
  · rintro ⟨path, hpath, hsplit⟩
    exact ⟨path, (h path).mp hpath, hsplit⟩
  · rintro ⟨path, hpath, hsplit⟩
    exact ⟨path, (h path).mpr hpath, hsplit⟩

end

/-! ## links to a page, dates of a source -/

theorem mem_inbound {rows : List PageRow} {target vpath : Text} : vpath ∈ inbound rows target ↔
    ∃ r ∈ rows, target ∈ r.links ∧ r.vpath = vpath := by
  unfold inbound
  rw [List.mem_dedup, List.mem_map]
  constructor
  · rintro ⟨r, hr, hv⟩
    obtain ⟨hmem, hlink⟩ := List.mem_filter.mp hr
    exact ⟨r, hmem, List.contains_iff_mem.mp hlink, hv⟩
  · rintro ⟨r, hmem, hlink, hv⟩
    exact ⟨r, List.mem_filter.mpr ⟨hmem, List.contains_iff_mem.mpr hlink⟩, hv⟩

theorem inbound_congr {rows rows' : List PageRow} {target : Text}
    (h : ∀ vpath, (∃ r ∈ rows, target ∈ r.links ∧ r.vpath = vpath) ↔
      ∃ r ∈ rows', target ∈ r.links ∧ r.vpath = vpath) :
    (inbound rows target).length = (inbound rows' target).length := by
  have hnodup : ∀ rows, (inbound rows target).Nodup := fun rows => List.nodup_dedup _
  refine List.Perm.length_eq ((List.perm_ext_iff_of_nodup (hnodup rows) (hnodup rows')).mpr fun v => ?_)
  rw [mem_inbound, mem_inbound, h v]

/-- the row of a dated source -/
def DatedAt (r : PageRow) (layer vpath day : Text) : Prop :=
  r.type = .source ∧ r.sourceDate = day ∧ day ≠ [] ∧ layerOf r.path = layer ∧ r.vpath = vpath

/-- rows of different pages, each at its virtual path -/
structure Placed (rows : List PageRow) : Prop where
  nodup : (rows.map PageRow.path).Nodup
  vpath : ∀ r ∈ rows, Layers.splitPath r.path = some (layerOf r.path, r.vpath)

theorem splitPath_injective {p q : Text} {l v : Text} (hp : Layers.splitPath p = some (l, v))
    (hq : Layers.splitPath q = some (l, v)) : p = q := by
  rw [← Layers.physicalPath_splitPath hp, ← Layers.physicalPath_splitPath hq]

theorem Placed.unique {rows : List PageRow} (h : Placed rows) {r s : PageRow} (hr : r ∈ rows)
    (hs : s ∈ rows) (hl : layerOf r.path = layerOf s.path) (hv : r.vpath = s.vpath) : r = s := by
  have hrs := h.vpath s hs
  rw [← hl, ← hv] at hrs
  exact List.inj_on_of_nodup_map h.nodup hr hs (splitPath_injective (h.vpath r hr) hrs)

theorem dateIn_eq_some {rows : List PageRow} (h : Placed rows) {layer vpath day : Text} :
    dateIn rows layer vpath = some day ↔ ∃ r ∈ rows, DatedAt r layer vpath day := by
  have htest : ∀ r : PageRow, (r.type == .source && !r.sourceDate.isEmpty && r.vpath == vpath &&
      layerOf r.path == layer) = true ↔ DatedAt r layer vpath r.sourceDate := by
    intro r
    simp only [Bool.and_eq_true, beq_iff_eq, Bool.not_eq_true', List.isEmpty_eq_false_iff]
    unfold DatedAt
    constructor
    · rintro ⟨⟨⟨ht, hd⟩, hv⟩, hl⟩
      exact ⟨ht, rfl, hd, hl, hv⟩
    · rintro ⟨ht, -, hd, hl, hv⟩
      exact ⟨⟨⟨ht, hd⟩, hv⟩, hl⟩
  unfold dateIn
  constructor
  · intro hd
    obtain ⟨r, hr, hday⟩ := Option.map_eq_some_iff.mp hd
    have hsome := List.find?_some hr
    have hdated := (htest r).mp hsome
    rw [hday] at hdated
    exact ⟨r, List.mem_of_find?_eq_some hr, hdated⟩
  · rintro ⟨r, hr, hdated⟩
    obtain ⟨ht, hday, hne, hl, hv⟩ := hdated
    cases hf : rows.find? fun r => r.type == .source && !r.sourceDate.isEmpty && r.vpath == vpath &&
        layerOf r.path == layer with
    | none =>
      have hnone := List.find?_eq_none.mp hf r hr
      exact absurd ((htest r).mpr ⟨ht, rfl, hday ▸ hne, hl, hv⟩) hnone
    | some s =>
      have hsome := List.find?_some hf
      obtain ⟨-, -, -, hls, hvs⟩ := (htest s).mp hsome
      have hrs := h.unique (List.mem_of_find?_eq_some hf) hr (hls.trans hl.symm) (hvs.trans hv.symm)
      rw [hrs, Option.map_some, hday]

theorem dateIn_congr {rows rows' : List PageRow} (h : Placed rows) (h' : Placed rows')
    {layer vpath : Text}
    (hmem : ∀ day, (∃ r ∈ rows, DatedAt r layer vpath day) ↔ ∃ r ∈ rows', DatedAt r layer vpath day) :
    dateIn rows layer vpath = dateIn rows' layer vpath :=
  Option.ext fun day => by rw [dateIn_eq_some h, dateIn_eq_some h', hmem day]

theorem Placed.filter {rows : List PageRow} (h : Placed rows) (p : PageRow → Bool) :
    Placed (rows.filter p) :=
  ⟨h.nodup.sublist (List.filter_sublist.map _), fun r hr => h.vpath r (List.mem_of_mem_filter hr)⟩

/-! ## the row of a path -/

section
variable (R : Runtime)

/-- the row of a page as `page_row` makes it -/
def baseRow (t : Worktree) (path : Text) : Option PageRow :=
  if isIndexablePage R path then
    (t.lookup path).bind fun text => (pageRow R path (zoneOf path) text).toOption
  else none

def pathsOf (t : Worktree) : List Text := t.keys.filter (isIndexablePage R)

def baseRows (t : Worktree) : List PageRow := t.keys.filterMap (baseRow R t)

def linkedRow (t : Worktree) (r : PageRow) : PageRow :=
  { r with links := resolveLinks R (pathsOf R t) r.path r.links }

/-- the dates of the sources of a tree -/
def datesOf (t : Worktree) : Text → Text → Option Text := dateIn (baseRows R t)

/-- the row of a path in a rebuilt index -/
def rebuiltRow (t : Worktree) (path : Text) : Option PageRow :=
  (baseRow R t path).map fun r =>
    { r with
      links := resolveLinks R (pathsOf R t) path r.links
      inlinks := (inbound ((baseRows R t).map (linkedRow R t)) r.vpath).length
      sourceDates :=
        if r.type = .source then r.sourceDates else citedDates (datesOf R t) path r.sources }

theorem baseRow_eq_some {t : Worktree} {path : Text} {r : PageRow} : baseRow R t path = some r ↔
    isIndexablePage R path = true ∧ ∃ text, t.lookup path = some text ∧
      pageRow R path (zoneOf path) text = .ok r := by
  unfold baseRow
  by_cases hz : isIndexablePage R path = true
  · rw [if_pos hz]
    constructor
    · intro h
      obtain ⟨text, ht, hr⟩ := Option.bind_eq_some_iff.mp h
      cases hrow : pageRow R path (zoneOf path) text with
      | error e =>
        rw [hrow] at hr
        exact nomatch hr
      | ok s =>
        rw [hrow] at hr
        obtain rfl : s = r := Option.some.inj hr
        exact ⟨hz, text, ht, hrow⟩
    · rintro ⟨-, text, ht, hrow⟩
      rw [ht, Option.bind_some, hrow]
      rfl
  · rw [if_neg hz]
    exact ⟨nofun, fun h => absurd h.1 hz⟩

theorem rowOf_baseRow {t : Worktree} {path : Text} {r : PageRow} (h : baseRow R t path = some r) :
    ∃ text, t.lookup path = some text ∧ RowOf R path text r := by
  obtain ⟨-, text, ht, hrow⟩ := (baseRow_eq_some R).mp h
  exact ⟨text, ht, rowOf_pageRow R hrow⟩

theorem path_baseRow {t : Worktree} {path : Text} {r : PageRow} (h : baseRow R t path = some r) :
    r.path = path := by
  obtain ⟨text, -, hrow⟩ := rowOf_baseRow R h
  exact hrow.path

theorem mem_baseRows {t : Worktree} {r : PageRow} :
    r ∈ baseRows R t ↔ baseRow R t r.path = some r := by
  unfold baseRows
  rw [List.mem_filterMap]
  constructor
  · rintro ⟨path, -, h⟩
    rwa [path_baseRow R h]
  · intro h
    obtain ⟨text, ht, -⟩ := rowOf_baseRow R h
    exact ⟨r.path, Table.mem_keys_iff.mpr ⟨text, ht⟩, h⟩

/-- the rows of some paths, each at its place -/
theorem placed_filterMap {t : Worktree} {paths : List Text} (hnd : paths.Nodup) :
    Placed (paths.filterMap (baseRow R t)) := by
  constructor
  · have hsub : ((paths.filterMap (baseRow R t)).map PageRow.path).Sublist paths := by
      induction paths with
      | nil => exact List.Sublist.refl _
      | cons path paths ih =>
        have hrest := ih (List.nodup_cons.mp hnd).2
        cases hb : baseRow R t path with
        | none =>
          rw [List.filterMap_cons_none hb]
          exact hrest.cons path
        | some r =>
          rw [List.filterMap_cons_some hb, List.map_cons, path_baseRow R hb]
          exact hrest.cons_cons path
    exact hnd.sublist hsub
  · intro r hr
    obtain ⟨path, -, h⟩ := List.mem_filterMap.mp hr
    obtain ⟨text, -, hrow⟩ := rowOf_baseRow R h
    rw [hrow.path]
    exact hrow.vpath

theorem placed_baseRows (t : Worktree) : Placed (baseRows R t) := placed_filterMap R t.keys_nodup

/-- every page of the tree that can be indexed is accepted -/
def Accepted (t : Worktree) : Prop :=
  ∀ path, isIndexablePage R path = true → t.lookup path ≠ none → ∃ r, baseRow R t path = some r

theorem mem_pageRows {pages : List (Text × Text)} {rows : List PageRow}
    (h : pageRows R pages = .ok rows) :
    (∀ r ∈ rows, ∃ p ∈ pages, pageRow R p.1 (zoneOf p.1) p.2 = .ok r) ∧
      ∀ p ∈ pages, ∃ r ∈ rows, pageRow R p.1 (zoneOf p.1) p.2 = .ok r := by
  have hall := pageRows_ok R h
  clear h
  induction hall with
  | nil => exact ⟨fun r hr => absurd hr List.not_mem_nil, fun p hp => absurd hp List.not_mem_nil⟩
  | @cons p r pages rows hr _ ih =>
    constructor
    · intro s hs
      rcases List.mem_cons.mp hs with rfl | hs
      · exact ⟨p, List.mem_cons_self, hr⟩
      · obtain ⟨q, hq, hrow⟩ := ih.1 s hs
        exact ⟨q, List.mem_cons_of_mem p hq, hrow⟩
    · intro q hq
      rcases List.mem_cons.mp hq with rfl | hq
      · exact ⟨r, List.mem_cons_self, hr⟩
      · obtain ⟨s, hs, hrow⟩ := ih.2 q hq
        exact ⟨s, List.mem_cons_of_mem r hs, hrow⟩

/-- what a rebuild makes its rows from -/
theorem loadPageTexts_spec {t : Worktree} {rows : List PageRow}
    (h : loadPageTexts R (Webhook.pagesOf t) = .ok rows) : Accepted R t ∧ ∃ base,
      (∀ r, r ∈ base ↔ r ∈ baseRows R t) ∧ Placed base ∧
      base.Pairwise (fun r s => r.path ≤ s.path) ∧
      rows = attachSourceDates (fun _ _ => none)
        (withInlinks (withLinks R (base.map PageRow.path) base)) := by
  unfold loadPageTexts at h
  cases hrows : pageRows R ((Webhook.pagesOf t).filter fun p => isIndexablePage R p.1) with
  | error e =>
    rw [hrows] at h
    exact nomatch h
  | ok rs =>
    rw [hrows] at h
    obtain rfl := Except.ok.inj h
    obtain ⟨hleft, hright⟩ := mem_pageRows R hrows
    have hmem : ∀ r, r ∈ rs ↔ r ∈ baseRows R t := by
      intro r
      rw [mem_baseRows]
      constructor
      · intro hr
        obtain ⟨p, hp, hrow⟩ := hleft r hr
        obtain ⟨hmem, hz⟩ := List.mem_filter.mp hp
        rw [(rowOf_pageRow R hrow).path]
        exact (baseRow_eq_some R).mpr ⟨hz, p.2, Webhook.mem_pagesOf.mp hmem, hrow⟩
      · intro hr
        obtain ⟨hz, text, ht, hrow⟩ := (baseRow_eq_some R).mp hr
        have hp : (r.path, text) ∈ (Webhook.pagesOf t).filter fun p => isIndexablePage R p.1 :=
          List.mem_filter.mpr ⟨Webhook.mem_pagesOf.mpr ht, hz⟩
        obtain ⟨s, hs, hrow'⟩ := hright _ hp
        obtain rfl : s = r := Except.ok.inj (hrow'.symm.trans hrow)
        exact hs
    have hperm := List.perm_insertionSort (fun r s : PageRow => r.path ≤ s.path) rs
    have hnodup : (rs.map PageRow.path).Nodup := by
      rw [map_path_pageRows R hrows]
      refine List.Nodup.sublist (List.filter_sublist.map Prod.fst) ?_
      have hkeys : (Webhook.pagesOf t).map Prod.fst = t.keys := by
        unfold Webhook.pagesOf
        rw [List.map_map]
        rfl
      rw [hkeys]
      exact t.keys_nodup
    refine ⟨?_, _, fun r => ?_, ⟨?_, ?_⟩, ?_, rfl⟩
    · intro path hz hne
      obtain ⟨text, ht⟩ := Option.ne_none_iff_exists'.mp hne
      have hp : (path, text) ∈ (Webhook.pagesOf t).filter fun p => isIndexablePage R p.1 :=
        List.mem_filter.mpr ⟨Webhook.mem_pagesOf.mpr ht, hz⟩
      obtain ⟨s, -, hrow⟩ := hright _ hp
      exact ⟨s, (baseRow_eq_some R).mpr ⟨hz, text, ht, hrow⟩⟩
    · rw [hperm.mem_iff, hmem]
    · exact (hperm.map PageRow.path).nodup_iff.mpr hnodup
    · intro r hr
      exact (placed_baseRows R t).vpath r ((hmem r).mp (hperm.mem_iff.mp hr))
    · exact List.pairwise_insertionSort _ rs

theorem mem_pathsOf {t : Worktree} {path : Text} :
    path ∈ pathsOf R t ↔ isIndexablePage R path = true ∧ t.lookup path ≠ none := by
  unfold pathsOf
  rw [List.mem_filter, Table.mem_keys_iff, ← Option.ne_none_iff_exists', and_comm]

/-- the paths of the rows of an accepted tree -/
theorem mem_map_path {t : Worktree} (ht : Accepted R t) {base : List PageRow}
    (hbase : ∀ r, r ∈ base ↔ r ∈ baseRows R t) (path : Text) :
    path ∈ base.map PageRow.path ↔ path ∈ pathsOf R t := by
  rw [List.mem_map, mem_pathsOf]
  constructor
  · rintro ⟨r, hr, rfl⟩
    obtain ⟨hz, text, hlook, -⟩ := (baseRow_eq_some R).mp ((mem_baseRows R).mp ((hbase r).mp hr))
    exact ⟨hz, by rw [hlook]; exact nofun⟩
  · rintro ⟨hz, hne⟩
    obtain ⟨r, hr⟩ := ht path hz hne
    have hpath := path_baseRow R hr
    refine ⟨r, (hbase r).mpr ((mem_baseRows R).mpr ?_), hpath⟩
    rw [hpath]
    exact hr

/-- the row a rebuild writes, from its base row -/
def derivedRow (t : Worktree) (r : PageRow) : PageRow :=
  { r with
    links := resolveLinks R (pathsOf R t) r.path r.links
    inlinks := (inbound ((baseRows R t).map (linkedRow R t)) r.vpath).length
    sourceDates :=
      if r.type = .source then r.sourceDates else citedDates (datesOf R t) r.path r.sources }

theorem rebuiltRow_eq (t : Worktree) (path : Text) :
    rebuiltRow R t path = (baseRow R t path).map (derivedRow R t) := by
  unfold rebuiltRow
  cases hb : baseRow R t path with
  | none => rfl
  | some r =>
    rw [Option.map_some, Option.map_some, derivedRow, path_baseRow R hb]

/-- the dates of rows do not change when links and counts are filled in -/
theorem dateIn_linked (paths : List Text) (rows : List PageRow) :
    dateIn (withInlinks (withLinks R paths rows)) = dateIn rows := by
  funext layer vpath
  unfold dateIn withInlinks withLinks
  rw [List.map_map, List.find?_map, Option.map_map]
  rfl

theorem mem_linked {t : Worktree} (ht : Accepted R t) {base : List PageRow}
    (hbase : ∀ r, r ∈ base ↔ r ∈ baseRows R t) :
    withLinks R (base.map PageRow.path) base = base.map (linkedRow R t) := by
  unfold withLinks
  refine List.map_congr_left fun r _ => ?_
  rw [linkedRow, resolveLinks_congr_mem R (mem_map_path R ht hbase)]

theorem loadPageTexts_eq {t : Worktree} {rows : List PageRow}
    (h : loadPageTexts R (Webhook.pagesOf t) = .ok rows) : Accepted R t ∧ ∃ base,
      (∀ r, r ∈ base ↔ r ∈ baseRows R t) ∧ Placed base ∧
      base.Pairwise (fun r s => r.path ≤ s.path) ∧ rows = base.map (derivedRow R t) := by
  obtain ⟨ht, base, hbase, hplaced, hsorted, hrows⟩ := loadPageTexts_spec R h
  refine ⟨ht, base, hbase, hplaced, hsorted, ?_⟩
  have hdates : dateIn base = datesOf R t := by
    funext layer vpath
    refine dateIn_congr hplaced (placed_baseRows R t) fun day => ?_
    constructor
    · rintro ⟨r, hr, hd⟩
      exact ⟨r, (hbase r).mp hr, hd⟩
    · rintro ⟨r, hr, hd⟩
      exact ⟨r, (hbase r).mpr hr, hd⟩
  have hinbound : ∀ target, (inbound (base.map (linkedRow R t)) target).length =
      (inbound ((baseRows R t).map (linkedRow R t)) target).length := by
    intro target
    refine inbound_congr fun vpath => ?_
    simp only [List.mem_map, exists_exists_and_eq_and, hbase]
  rw [hrows, attachSourceDates]
  dsimp only
  rw [dateIn_linked, hdates, mem_linked R ht hbase, withInlinks, List.map_map, List.map_map]
  refine List.map_congr_left fun r _ => ?_
  simp only [Function.comp_apply, hinbound, Option.or_none]
  unfold linkedRow derivedRow
  split
  · rfl
  · rfl

/-- the index a rebuild leaves, path by path -/
theorem lookup_rebuild {t : Worktree} {rows : List PageRow}
    (h : loadPageTexts R (Webhook.pagesOf t) = .ok rows) (path : Text) :
    (Table.insertAll PageRow.path rows ∅).lookup path = rebuiltRow R t path := by
  obtain ⟨-, base, hbase, hplaced, -, rfl⟩ := loadPageTexts_eq R h
  have hpaths : (base.map (derivedRow R t)).map PageRow.path = base.map PageRow.path := by
    rw [List.map_map]
    rfl
  rw [rebuiltRow_eq]
  cases hb : baseRow R t path with
  | none =>
    rw [Table.lookup_insertAll_of_notMem, AList.lookup_empty]
    · rfl
    · rw [hpaths]
      intro hmem
      obtain ⟨r, hr, rfl⟩ := List.mem_map.mp hmem
      rw [(mem_baseRows R).mp ((hbase r).mp hr)] at hb
      exact nomatch hb
  | some r =>
    have hpath := path_baseRow R hb
    have hr : r ∈ base := (hbase r).mpr ((mem_baseRows R).mpr (by rw [hpath]; exact hb))
    have hlookup := Table.lookup_insertAll PageRow.path (by rw [hpaths]; exact hplaced.nodup)
      (List.mem_map_of_mem (f := derivedRow R t) hr) ∅
    rw [Option.map_some, ← hlookup]
    show _ = (Table.insertAll PageRow.path _ ∅).lookup r.path
    rw [hpath]

end

end Corpus
