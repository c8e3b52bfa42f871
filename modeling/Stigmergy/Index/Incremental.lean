import Stigmergy.Index.Rows
import Stigmergy.Kernel.Ascii
import Stigmergy.Knowledge.Lint
import Stigmergy.Knowledge.Nibbles

/-!
# A push against a rebuild

Both make the rows of the new tree.  The push reads links from bodies where the rebuild reads them from
whole texts, leaves the dates of the pages it does not touch, and takes a date from the index where a
changed source has none.

* `lookup_changed`       the rows a push puts in, before links are refreshed;
* `lookup_applyPages`    the rows it leaves;
* `Tracks`               the three readings agree;
* `processPush_eq_rebuild_iff`   the push leaves the rows of a rebuild exactly then.
-/

set_option linter.unusedSectionVars false

namespace Webhook

open Corpus

section
variable (R : Runtime)

/-! ## tables of rows -/

theorem lookup_upsertPages_of_notMem {rows : List PageRow} {path : Text} (pages : Pages)
    (h : path ∉ rows.map PageRow.path) : (upsertPages rows pages).lookup path = pages.lookup path := by
  unfold upsertPages
  induction rows generalizing pages with
  | nil => rfl
  | cons r rows ih =>
    rw [List.map_cons, List.mem_cons, not_or] at h
    rw [List.foldl_cons, ih _ h.2, Table.lookup_insert_eq, if_neg h.1]

theorem lookup_upsertPages {rows : List PageRow} (hnd : (rows.map PageRow.path).Nodup) {r : PageRow}
    (hr : r ∈ rows) (pages : Pages) : (upsertPages rows pages).lookup r.path =
      some { r with inlinks := ((pages.lookup r.path).map PageRow.inlinks).getD r.inlinks } := by
  induction rows generalizing pages with
  | nil => exact absurd hr List.not_mem_nil
  | cons s rows ih =>
    rw [List.map_cons, List.nodup_cons] at hnd
    show (upsertPages rows (pages.insert s.path _)).lookup r.path = _
    rcases List.mem_cons.mp hr with rfl | hr
    · rw [lookup_upsertPages_of_notMem _ hnd.1, AList.lookup_insert]
    · have hne : r.path ≠ s.path := fun e => hnd.1 (e ▸ List.mem_map_of_mem hr)
      rw [ih hnd.2 hr, AList.lookup_insert_ne hne]

theorem lookup_refreshLinkGraph (pages : Pages) (path : Text) :
    (refreshLinkGraph R pages).lookup path = (pages.lookup path).map fun r =>
      { r with
        links := resolveLinks R pages.keys path (linkTargets R r.body)
        inlinks := (inbound (Table.vals (Table.mapVals (fun path r =>
          { r with links := resolveLinks R pages.keys path (linkTargets R r.body) }) pages))
            r.vpath).length } := by
  unfold refreshLinkGraph
  rw [Table.lookup_mapVals, Table.lookup_mapVals, Option.map_map]
  rfl

theorem citedDates_congr {dates dates' : Text → Text → Option Text} {path : Text} {sources : List Text}
    (h : ∀ source ∈ sources, ∀ layer, dates layer source = dates' layer source) :
    citedDates dates path sources = citedDates dates' path sources := by
  unfold citedDates
  refine sortedSet_congr fun day => ?_
  simp only [List.mem_flatMap, List.mem_filterMap]
  constructor
  · rintro ⟨source, hs, layer, hl, hd⟩
    exact ⟨source, hs, layer, hl, (h source hs layer) ▸ hd⟩
  · rintro ⟨source, hs, layer, hl, hd⟩
    exact ⟨source, hs, layer, hl, (h source hs layer).symm ▸ hd⟩

/-! ## one push between two trees -/

section
variable {old new : Worktree} {p : Payload}

/-- the date of a source in the new tree, or in the old one when its page is still there -/
def laterDates (old new : Worktree) (layer vpath : Text) : Option Text :=
  (datesOf R new layer vpath).or
    (dateIn ((baseRows R old).filter fun r => (new.lookup r.path).isSome) layer vpath)

theorem baseRow_untouched (hp : Pushed old p.commits new) {path : Text}
    (hu : path ∉ toUpsertPaths R p) (hd : path ∉ toDelete R p) :
    baseRow R new path = baseRow R old path := by
  unfold baseRow
  by_cases hz : isIndexablePage R path = true
  · rw [if_pos hz, if_pos hz]
    have hstatus := status_of_pushed hp path
    cases hs : (changedPathsFromPush p).lookup path with
    | none =>
      rw [hs] at hstatus
      have hsame : new.lookup path = old.lookup path := hstatus
      rw [hsame]
    | some status =>
      cases status with
      | removed => exact absurd ((mem_toDelete R).mpr ⟨hz, hs⟩) hd
      | added => exact absurd ((mem_toUpsertPaths R).mpr ⟨hz, .added, hs, nofun⟩) hu
      | modified => exact absurd ((mem_toUpsertPaths R).mpr ⟨hz, .modified, hs, nofun⟩) hu
  · rw [if_neg hz, if_neg hz]

theorem lookup_deleted (hp : Pushed old p.commits new) {path : Text} (hd : path ∈ toDelete R p) :
    new.lookup path = none := by
  have hstatus := status_of_pushed hp path
  rw [((mem_toDelete R).mp hd).2] at hstatus
  exact hstatus

theorem lookup_upserted (hp : Pushed old p.commits new) {path : Text} (hu : path ∈ toUpsertPaths R p) :
    isIndexablePage R path = true ∧ new.lookup path ≠ none := by
  obtain ⟨hz, status, hs, hne⟩ := (mem_toUpsertPaths R).mp hu
  have hstatus := status_of_pushed hp path
  rw [hs] at hstatus
  cases status with
  | removed => exact absurd rfl hne
  | added => exact ⟨hz, hstatus⟩
  | modified => exact ⟨hz, hstatus⟩

theorem not_upserted_of_deleted {path : Text} (hd : path ∈ toDelete R p) : path ∉ toUpsertPaths R p := by
  intro hu
  obtain ⟨-, status, hs, hne⟩ := (mem_toUpsertPaths R).mp hu
  exact hne (Option.some.inj (hs.symm.trans ((mem_toDelete R).mp hd).2))

/-- the pages the push adds or modifies are fetched and accepted -/
theorem fetchRows_eq {paths : List Text} (h : ∀ path ∈ paths, ∃ r, baseRow R new path = some r) :
    fetchRows R new.lookup paths = .ok (paths.filterMap (baseRow R new)) := by
  induction paths with
  | nil => rfl
  | cons path paths ih =>
    obtain ⟨r, hr⟩ := h path List.mem_cons_self
    obtain ⟨-, text, ht, hrow⟩ := (baseRow_eq_some R).mp hr
    rw [fetchRows, ht]
    dsimp only
    rw [hrow, ih fun q hq => h q (List.mem_cons_of_mem path hq), List.filterMap_cons_some hr]
    rfl

variable (new p) in
/-- the rows of the pages the push adds or modifies, as they are in the new tree -/
def upsertedRows : List PageRow := (toUpsertPaths R p).filterMap (baseRow R new)

theorem placed_upsertedRows : Placed (upsertedRows R new p) := placed_filterMap R (nodup_sortedSet _)

theorem mem_upsertedRows {r : PageRow} :
    r ∈ upsertedRows R new p ↔ r.path ∈ toUpsertPaths R p ∧ baseRow R new r.path = some r := by
  unfold upsertedRows
  rw [List.mem_filterMap]
  constructor
  · rintro ⟨path, hpath, hr⟩
    rw [path_baseRow R hr]
    exact ⟨hpath, hr⟩
  · rintro ⟨hpath, hr⟩
    exact ⟨r.path, hpath, hr⟩

/-- the rows of the index of a tree, but for the fields that are derived -/
structure Holds (old : Worktree) (pages : Pages) : Prop where
  lookup : ∀ path, pages.lookup path = rebuiltRow R old path

theorem Holds.mem_vals {pages : Pages} (h : Holds R old pages) {r : PageRow} :
    r ∈ Table.vals pages ↔ ∃ b ∈ baseRows R old, r = derivedRow R old b := by
  rw [Table.mem_vals]
  constructor
  · rintro ⟨path, hr⟩
    rw [h.lookup, rebuiltRow_eq] at hr
    obtain ⟨b, hb, hbr⟩ := Option.map_eq_some_iff.mp hr
    refine ⟨b, (mem_baseRows R).mpr ?_, hbr.symm⟩
    rw [path_baseRow R hb]
    exact hb
  · rintro ⟨b, hb, rfl⟩
    refine ⟨b.path, ?_⟩
    rw [h.lookup, rebuiltRow_eq, (mem_baseRows R).mp hb]
    rfl

theorem Holds.placed {pages : Pages} (h : Holds R old pages) : Placed (Table.vals pages) := by
  constructor
  · have hkeys : (Table.vals pages).map PageRow.path = pages.keys := by
      unfold Table.vals
      show _ = pages.entries.map Sigma.fst
      rw [List.map_map]
      refine List.map_congr_left fun e he => ?_
      have hlook : pages.lookup e.1 = some e.2 := AList.mem_lookup_iff.mpr he
      rw [h.lookup, rebuiltRow_eq] at hlook
      obtain ⟨b, hb, hbe⟩ := Option.map_eq_some_iff.mp hlook
      show e.2.path = e.1
      rw [← hbe, ← path_baseRow R hb]
      rfl
    rw [hkeys]
    exact pages.keys_nodup
  · intro r hr
    obtain ⟨b, hb, rfl⟩ := (h.mem_vals R).mp hr
    exact (placed_baseRows R old).vpath b hb

/-- the dates a push takes from the index and the pages it fetches -/
theorem pushedDates_eq (hp : Pushed old p.commits new) {pages : Pages} (hpages : Holds R old pages)
    (layer vpath : Text) : (dateIn (upsertedRows R new p) layer vpath).or
      (dateIn ((Table.vals pages).filter fun r => !(toDelete R p).contains r.path) layer vpath) =
      laterDates R old new layer vpath := by
  have hstored : dateIn ((Table.vals pages).filter fun r => !(toDelete R p).contains r.path) layer vpath =
      dateIn ((baseRows R old).filter fun r => (new.lookup r.path).isSome) layer vpath := by
    refine dateIn_congr ((hpages.placed R).filter _) ((placed_baseRows R old).filter _) fun day => ?_
    have hkeep : ∀ b ∈ baseRows R old,
        ((!(toDelete R p).contains b.path) = true ↔ (new.lookup b.path).isSome = true) := by
      intro b hb
      obtain ⟨hz, text, ht, -⟩ := (baseRow_eq_some R).mp ((mem_baseRows R).mp hb)
      rw [Bool.not_eq_true', ← Bool.not_eq_true, List.contains_iff_mem, Option.isSome_iff_ne_none]
      constructor
      · intro hd
        by_cases hu : b.path ∈ toUpsertPaths R p
        · exact (lookup_upserted R hp hu).2
        · have hsame := baseRow_untouched R hp hu hd
          rw [(mem_baseRows R).mp hb] at hsame
          obtain ⟨-, text', ht', -⟩ := (baseRow_eq_some R).mp hsame
          rw [ht']
          exact nofun
      · exact fun hne hd => hne (lookup_deleted R hp hd)
    constructor
    · rintro ⟨r, hr, hdated⟩
      obtain ⟨hmem, hdel⟩ := List.mem_filter.mp hr
      obtain ⟨b, hb, rfl⟩ := (hpages.mem_vals R).mp hmem
      exact ⟨b, List.mem_filter.mpr ⟨hb, (hkeep b hb).mp hdel⟩, hdated⟩
    · rintro ⟨b, hb, hdated⟩
      obtain ⟨hmem, hin⟩ := List.mem_filter.mp hb
      exact ⟨derivedRow R old b,
        List.mem_filter.mpr ⟨(hpages.mem_vals R).mpr ⟨b, hmem, rfl⟩, (hkeep b hmem).mpr hin⟩, hdated⟩
  rw [hstored, laterDates]
  cases hA : datesOf R new layer vpath with
  | some day =>
    obtain ⟨r, hr, hdated⟩ := (dateIn_eq_some (placed_baseRows R new)).mp hA
    by_cases hu : r.path ∈ toUpsertPaths R p
    · have hin : dateIn (upsertedRows R new p) layer vpath = some day :=
        (dateIn_eq_some (placed_upsertedRows R)).mpr
          ⟨r, (mem_upsertedRows R).mpr ⟨hu, (mem_baseRows R).mp hr⟩, hdated⟩
      rw [hin, Option.some_or]
    · -- the source is not touched: the index holds its date, and no page that is fetched is at its place
      have hnone : dateIn (upsertedRows R new p) layer vpath = none := by
        refine Option.eq_none_iff_forall_ne_some.mpr fun day' hday' => ?_
        obtain ⟨s, hs, hds⟩ := (dateIn_eq_some (placed_upsertedRows R)).mp hday'
        obtain ⟨hsu, hsb⟩ := (mem_upsertedRows R).mp hs
        have hsame := (placed_baseRows R new).unique ((mem_baseRows R).mpr hsb) hr
          (hds.2.2.2.1.trans hdated.2.2.2.1.symm) (hds.2.2.2.2.trans hdated.2.2.2.2.symm)
        rw [hsame] at hsu
        exact hu hsu
      have hbase := (mem_baseRows R).mp hr
      obtain ⟨-, text, ht, -⟩ := (baseRow_eq_some R).mp hbase
      have hd : r.path ∉ toDelete R p := fun hd => by
        rw [lookup_deleted R hp hd] at ht
        exact nomatch ht
      have hold : r ∈ baseRows R old :=
        (mem_baseRows R).mpr ((baseRow_untouched R hp hu hd).symm.trans hbase)
      have hin : dateIn ((baseRows R old).filter fun r => (new.lookup r.path).isSome) layer vpath =
          some day := by
        refine (dateIn_eq_some ((placed_baseRows R old).filter _)).mpr
          ⟨r, List.mem_filter.mpr ⟨hold, ?_⟩, hdated⟩
        rw [ht]
        rfl
      rw [hnone, hin, Option.none_or, Option.some_or]
  | none =>
    have hnone : dateIn (upsertedRows R new p) layer vpath = none := by
      refine Option.eq_none_iff_forall_ne_some.mpr fun day hday => ?_
      obtain ⟨s, hs, hds⟩ := (dateIn_eq_some (placed_upsertedRows R)).mp hday
      have hin := (dateIn_eq_some (placed_baseRows R new)).mpr
        ⟨s, (mem_baseRows R).mpr ((mem_upsertedRows R).mp hs).2, hds⟩
      rw [datesOf, hin] at hA
      exact nomatch hA
    rw [hnone]

/-- the dates of a page before links are refreshed -/
def pushedDates (old new : Worktree) (p : Payload) (path : Text) : Text → Text → Option Text :=
  if path ∈ toUpsertPaths R p then laterDates R old new else datesOf R old

/-- the rows a push puts in or leaves, but for their links and counts -/
theorem lookup_changed (hnew : Accepted R new) (hp : Pushed old p.commits new) {pages : Pages}
    (hpages : Holds R old pages) : ∃ rows, prepareRows R new.lookup pages p = .ok rows ∧
      ∀ path, ∃ links inlinks,
        (upsertPages rows (Table.eraseAll (toDelete R p) pages)).lookup path =
          (baseRow R new path).map fun r =>
            { r with
              links := links
              inlinks := inlinks
              sourceDates :=
                if r.type = .source then r.sourceDates
                else citedDates (pushedDates R old new p path) path r.sources } := by
  have hfetch : fetchRows R new.lookup (toUpsertPaths R p) = .ok (upsertedRows R new p) :=
    fetchRows_eq R fun path hpath => by
      obtain ⟨hz, hne⟩ := lookup_upserted R hp hpath
      exact hnew path hz hne
  refine ⟨_, by rw [prepareRows, hfetch]; rfl, fun path => ?_⟩
  set Q := sortedSet ((pages.keys.filter fun path => !(toDelete R p).contains path) ++
    (upsertedRows R new p).map PageRow.path) with hQ
  have hresolved : resolveOutboundLinks R pages (toDelete R p) (upsertedRows R new p) =
      withLinks R Q (upsertedRows R new p) := rfl
  dsimp only
  rw [hresolved]
  set rows := attachSourceDates (storeSourceDates pages
    ((withLinks R Q (upsertedRows R new p)).flatMap PageRow.sources) (toDelete R p))
    (withLinks R Q (upsertedRows R new p)) with hrows
  have hpaths : rows.map PageRow.path = (upsertedRows R new p).map PageRow.path := by
    rw [hrows, map_path_attachSourceDates, map_path_withLinks]
  have hnd : (rows.map PageRow.path).Nodup := by
    rw [hpaths]
    exact (placed_upsertedRows R).nodup
  by_cases hu : path ∈ toUpsertPaths R p
  · obtain ⟨hz, hne⟩ := lookup_upserted R hp hu
    obtain ⟨r, hr⟩ := hnew path hz hne
    have hpath := path_baseRow R hr
    have hmem : r ∈ upsertedRows R new p := (mem_upsertedRows R).mpr (by rw [hpath]; exact ⟨hu, hr⟩)
    -- the dates the row is given
    have hdates : citedDates (fun layer vpath => (dateIn (withLinks R Q (upsertedRows R new p)) layer
        vpath).or (storeSourceDates pages ((withLinks R Q (upsertedRows R new p)).flatMap
          PageRow.sources) (toDelete R p) layer vpath)) r.path r.sources =
        citedDates (laterDates R old new) r.path r.sources := by
      refine citedDates_congr fun source hsource layer => ?_
      have hlinked : dateIn (withLinks R Q (upsertedRows R new p)) = dateIn (upsertedRows R new p) := by
        funext layer vpath
        unfold dateIn withLinks
        rw [List.find?_map, Option.map_map]
        rfl
      have hasked : ((withLinks R Q (upsertedRows R new p)).flatMap PageRow.sources).contains source =
          true := by
        refine List.contains_iff_mem.mpr (List.mem_flatMap.mpr ⟨_, List.mem_map_of_mem hmem, hsource⟩)
      rw [hlinked, storeSourceDates, if_pos hasked]
      exact pushedDates_eq R hp hpages layer source
    obtain ⟨s, hs, hspath, hfields⟩ : ∃ s ∈ rows, s.path = path ∧ s =
        { r with
          links := resolveLinks R Q r.path r.links
          sourceDates := if r.type = .source then r.sourceDates
            else citedDates (laterDates R old new) path r.sources } := by
      refine ⟨_, List.mem_map_of_mem (List.mem_map_of_mem hmem), ?_, ?_⟩
      · dsimp only
        split <;> exact hpath
      · dsimp only
        rw [hdates, hpath]
        split <;> rfl
    have hlookup := lookup_upsertPages hnd hs (Table.eraseAll (toDelete R p) pages)
    rw [hspath] at hlookup
    subst hfields
    rw [hlookup, pushedDates, if_pos hu]
    refine ⟨resolveLinks R Q r.path r.links,
      (((Table.eraseAll (toDelete R p) pages).lookup path).map PageRow.inlinks).getD r.inlinks, ?_⟩
    subst hpath
    rw [hr]
    rfl
  · rw [lookup_upsertPages_of_notMem, Table.lookup_eraseAll]
    · by_cases hd : path ∈ toDelete R p
      · refine ⟨[], 0, ?_⟩
        have hnone : baseRow R new path = none := by
          unfold baseRow
          rw [lookup_deleted R hp hd]
          split <;> rfl
        rw [if_pos hd, hnone]
        rfl
      · rw [if_neg hd, hpages.lookup, rebuiltRow_eq, ← baseRow_untouched R hp hu hd]
        cases hr : baseRow R new path with
        | none => exact ⟨[], 0, rfl⟩
        | some r =>
          refine ⟨resolveLinks R (pathsOf R old) r.path r.links,
            (inbound ((baseRows R old).map (linkedRow R old)) r.vpath).length, ?_⟩
          rw [Option.map_some, Option.map_some, pushedDates, if_neg hu, ← path_baseRow R hr]
          rfl
    · rw [hpaths]
      intro hmem
      obtain ⟨r, hr, rfl⟩ := List.mem_map.mp hmem
      exact hu ((mem_upsertedRows R).mp hr).1

/-- the link graph a push leaves reads the bodies of the new tree -/
def bodyLinkedRow (t : Worktree) (r : PageRow) : PageRow :=
  { r with links := resolveLinks R (pathsOf R t) r.path (linkTargets R r.body) }

/-- the rows after a push that changes some page -/
theorem lookup_applyPages (hnew : Accepted R new) (hp : Pushed old p.commits new) {pages : Pages}
    (hpages : Holds R old pages) (hzone : inZonePaths R p ≠ []) : ∃ rows,
      prepareRows R new.lookup pages p = .ok rows ∧ ∀ path,
        (applyPages R p rows pages).lookup path = (baseRow R new path).map fun r =>
          { r with
            links := resolveLinks R (pathsOf R new) path (linkTargets R r.body)
            inlinks := (inbound ((baseRows R new).map (bodyLinkedRow R new)) r.vpath).length
            sourceDates :=
              if r.type = .source then r.sourceDates
              else citedDates (pushedDates R old new p path) path r.sources } := by
  obtain ⟨rows, hrows, hchanged⟩ := lookup_changed R hnew hp hpages
  refine ⟨rows, hrows, fun path => ?_⟩
  have hsome : ((toDelete R p).isEmpty && (toUpsertPaths R p).isEmpty) = false := by
    obtain ⟨q, hq⟩ := List.exists_mem_of_ne_nil _ hzone
    obtain ⟨hz, status, hs⟩ := (mem_inZonePaths R).mp hq
    rw [Bool.and_eq_false_iff, List.isEmpty_eq_false_iff, List.isEmpty_eq_false_iff]
    by_cases hrem : status = .removed
    · exact Or.inl (List.ne_nil_of_mem ((mem_toDelete R).mpr ⟨hz, by rw [hs, hrem]⟩))
    · exact Or.inr (List.ne_nil_of_mem ((mem_toUpsertPaths R).mpr ⟨hz, status, hs, hrem⟩))
  unfold applyPages
  dsimp only
  rw [hsome, if_neg Bool.false_ne_true, lookup_refreshLinkGraph]
  set changed := upsertPages rows (Table.eraseAll (toDelete R p) pages) with hc
  have hkeys : ∀ q, q ∈ changed.keys ↔ q ∈ pathsOf R new := by
    intro q
    obtain ⟨links, inlinks, hq⟩ := hchanged q
    rw [Table.mem_keys_iff, mem_pathsOf, hq]
    constructor
    · rintro ⟨r, hr⟩
      obtain ⟨b, hb, -⟩ := Option.map_eq_some_iff.mp hr
      obtain ⟨hz, text, ht, -⟩ := (baseRow_eq_some R).mp hb
      exact ⟨hz, by rw [ht]; exact nofun⟩
    · rintro ⟨hz, hne⟩
      obtain ⟨b, hb⟩ := hnew q hz hne
      exact ⟨_, by rw [hb]; rfl⟩
  have hlinks : ∀ own names, resolveLinks R changed.keys own names =
      resolveLinks R (pathsOf R new) own names := resolveLinks_congr_mem R hkeys
  simp only [hlinks]
  have hcount : ∀ target, (inbound (Table.vals (Table.mapVals (fun (path : Text) (r : PageRow) =>
      { r with links := resolveLinks R (pathsOf R new) path (linkTargets R r.body) }) changed))
        target).length = (inbound ((baseRows R new).map (bodyLinkedRow R new)) target).length := by
    intro target
    refine inbound_congr fun vpath => ?_
    constructor
    · rintro ⟨r, hr, hlink, hv⟩
      obtain ⟨q, hq⟩ := Table.mem_vals.mp hr
      obtain ⟨links, inlinks, hlook⟩ := hchanged q
      rw [Table.lookup_mapVals, hlook, Option.map_map] at hq
      obtain ⟨b, hb, rfl⟩ := Option.map_eq_some_iff.mp hq
      have hpath := path_baseRow R hb
      refine ⟨bodyLinkedRow R new b, List.mem_map_of_mem ((mem_baseRows R).mpr ?_), ?_, hv⟩
      · rw [hpath]
        exact hb
      · unfold bodyLinkedRow
        rw [hpath]
        exact hlink
    · rintro ⟨r, hr, hlink, hv⟩
      obtain ⟨b, hb, rfl⟩ := List.mem_map.mp hr
      obtain ⟨links, inlinks, hlook⟩ := hchanged b.path
      obtain ⟨r, hr, hrl, hrv⟩ : ∃ r, (Table.mapVals (fun (path : Text) (r : PageRow) =>
          { r with links := resolveLinks R (pathsOf R new) path (linkTargets R r.body) })
            changed).lookup b.path = some r ∧
          r.links = (bodyLinkedRow R new b).links ∧ r.vpath = b.vpath := by
        rw [Table.lookup_mapVals, hlook, (mem_baseRows R).mp hb]
        exact ⟨_, rfl, rfl, rfl⟩
      exact ⟨r, Table.mem_vals.mpr ⟨b.path, hr⟩, by rw [hrl]; exact hlink, hrv.trans hv⟩
  obtain ⟨links, inlinks, hlook⟩ := hchanged path
  rw [hlook, Option.map_map]
  refine Option.map_congr fun r _ => ?_
  simp only [Function.comp_apply, hcount]

/-! ## when the two agree -/

/-- what a push has to find for its rows to be those of a rebuild -/
structure Tracks (old new : Worktree) (p : Payload) : Prop where
  /-- the body of a page names the pages its whole text names -/
  links : ∀ r ∈ baseRows R new, resolveLinks R (pathsOf R new) r.path (linkTargets R r.body) =
    resolveLinks R (pathsOf R new) r.path r.links
  /-- the sources a page cites have the dates the push takes for them: those of the old tree for a page
  it does not touch, and for one it touches also those of sources that have lost their date -/
  dates : ∀ r ∈ baseRows R new, r.type ≠ .source →
    citedDates (pushedDates R old new p r.path) r.path r.sources =
      citedDates (datesOf R new) r.path r.sources

/-- a page of the tree, with what the push leaves in its row -/
def pushedRow (old new : Worktree) (p : Payload) (r : PageRow) : PageRow :=
  { r with
    links := resolveLinks R (pathsOf R new) r.path (linkTargets R r.body)
    inlinks := (inbound ((baseRows R new).map (bodyLinkedRow R new)) r.vpath).length
    sourceDates :=
      if r.type = .source then r.sourceDates
      else citedDates (pushedDates R old new p r.path) r.path r.sources }

theorem pushedRow_eq_derivedRow_iff : (∀ r ∈ baseRows R new, pushedRow R old new p r = derivedRow R new r) ↔
    Tracks R old new p := by
  constructor
  · intro h
    refine ⟨fun r hr => congrArg PageRow.links (h r hr), fun r hr ht => ?_⟩
    have hdates : (if r.type = .source then r.sourceDates else _) =
        if r.type = .source then r.sourceDates else _ := congrArg PageRow.sourceDates (h r hr)
    rwa [if_neg ht, if_neg ht] at hdates
  · intro h r hr
    have hrows : (baseRows R new).map (bodyLinkedRow R new) = (baseRows R new).map (linkedRow R new) := by
      refine List.map_congr_left fun s hs => ?_
      rw [bodyLinkedRow, linkedRow, h.links s hs]
    unfold pushedRow derivedRow
    rw [hrows, h.links r hr]
    by_cases ht : r.type = .source
    · rw [if_pos ht, if_pos ht]
    · rw [if_neg ht, if_neg ht, h.dates r hr ht]

/-- a push of no page leaves the rows of the tree -/
theorem rebuiltRow_of_untouched (hp : Pushed old p.commits new) (hzone : inZonePaths R p = []) (path : Text) :
    rebuiltRow R old path = rebuiltRow R new path := by
  have hchanges : ∀ q, q ∉ inZonePaths R p := fun q => by rw [hzone]; exact List.not_mem_nil
  have hbase : ∀ q, baseRow R new q = baseRow R old q := by
    intro q
    refine baseRow_untouched R hp (fun hu => ?_) fun hd => ?_
    · obtain ⟨hz, status, hs, -⟩ := (mem_toUpsertPaths R).mp hu
      exact hchanges q ((mem_inZonePaths R).mpr ⟨hz, status, hs⟩)
    · obtain ⟨hz, hs⟩ := (mem_toDelete R).mp hd
      exact hchanges q ((mem_inZonePaths R).mpr ⟨hz, _, hs⟩)
  have hpaths : ∀ q, q ∈ pathsOf R old ↔ q ∈ pathsOf R new := by
    intro q
    rw [mem_pathsOf, mem_pathsOf]
    refine and_congr_right fun hz => ?_
    have hstatus := status_of_pushed hp q
    cases hs : (changedPathsFromPush p).lookup q with
    | none =>
      rw [hs] at hstatus
      have hsame : new.lookup q = old.lookup q := hstatus
      rw [hsame]
    | some status => exact absurd ((mem_inZonePaths R).mpr ⟨hz, status, hs⟩) (hchanges q)
  have hrows : ∀ r, r ∈ baseRows R old ↔ r ∈ baseRows R new := by
    intro r
    rw [mem_baseRows, mem_baseRows, hbase]
  have hlinks : ∀ own names, resolveLinks R (pathsOf R old) own names =
      resolveLinks R (pathsOf R new) own names := resolveLinks_congr_mem R hpaths
  have hcount : ∀ target, (inbound ((baseRows R old).map (linkedRow R old)) target).length =
      (inbound ((baseRows R new).map (linkedRow R new)) target).length := by
    intro target
    refine inbound_congr fun vpath => ?_
    simp only [List.mem_map, exists_exists_and_eq_and, hrows, linkedRow, hlinks]
  have hdates : datesOf R old = datesOf R new := by
    funext layer vpath
    exact dateIn_congr (placed_baseRows R old) (placed_baseRows R new) fun day => by
      simp only [hrows]
  unfold rebuiltRow
  simp only [hbase, hlinks, hcount, hdates]

theorem verdict_go {fileCap : ℕ} {h : Health} (hgo : verdict R fileCap h p = .go) :
    h.dirty = false ∧ p.before = some h.indexedCommitSha := by
  unfold verdict at hgo
  split at hgo
  · exact nomatch hgo
  · split at hgo
    · exact nomatch hgo
    · split at hgo
      · exact nomatch hgo
      · rename_i hdirty hbefore
        exact ⟨Bool.eq_false_iff.mpr hdirty, by simpa using hbefore⟩

/-- the pages a push that goes leaves -/
theorem pages_processPush (now : Time) (deliveryId : Text) {fileCap : ℕ} {ix : Index}
    {rows : List PageRow} (hgo : verdict R fileCap ix.health p = .go)
    (hrows : prepareRows R new.lookup ix.pages p = .ok rows) :
    ∃ ix', processPush R now fileCap new.lookup deliveryId p ix = .ok ix' ∧
      ix'.pages = applyPages R p rows ix.pages := by
  obtain ⟨hdirty, hbefore⟩ := verdict_go R hgo
  refine ⟨applyPush R now deliveryId p rows ix, ?_, ?_⟩
  · unfold processPush
    rw [hgo, hrows]
    rfl
  · unfold applyPush
    rw [hdirty, hbefore, Bool.false_or, bne_self_eq_false, if_neg Bool.false_ne_true,
      recordDelivery_pages]

/-- a linear push within the cap leaves the rows of a rebuild when the three readings agree -/
theorem processPush_eq_rebuild_iff (now : Time) (deliveryId : Text) {fileCap : ℕ} {ix : Index}
    {rows₀ rows₁ : List PageRow} (hold : loadPageTexts R (pagesOf old) = .ok rows₀)
    (hnew : loadPageTexts R (pagesOf new) = .ok rows₁) (hp : Pushed old p.commits new)
    (hix : ix.pages = Table.insertAll PageRow.path rows₀ ∅)
    (hgo : verdict R fileCap ix.health p = .go) :
    ∃ ix', processPush R now fileCap new.lookup deliveryId p ix = .ok ix' ∧
      ((∀ path, ix'.pages.lookup path = (Table.insertAll PageRow.path rows₁ ∅).lookup path) ↔
        inZonePaths R p = [] ∨ Tracks R old new p) := by
  have hpages : Holds R old ix.pages := ⟨fun path => by rw [hix]; exact lookup_rebuild R hold path⟩
  have haccepted := (loadPageTexts_eq R hnew).1
  by_cases hzone : inZonePaths R p = []
  · obtain ⟨rows, hrows, -⟩ := lookup_changed R haccepted hp hpages
    obtain ⟨ix', hrun, hpages'⟩ := pages_processPush R now deliveryId hgo hrows
    refine ⟨ix', hrun, iff_of_true (fun path => ?_) (Or.inl hzone)⟩
    have hnone : toDelete R p = [] ∧ rows = [] := by
      have hup : toUpsertPaths R p = [] := by unfold toUpsertPaths; rw [hzone]; rfl
      refine ⟨by unfold toDelete; rw [hzone]; rfl, ?_⟩
      have hmap := map_path_prepareRows R hrows
      rw [hup] at hmap
      exact List.map_eq_nil_iff.mp hmap
    have hsame : ix'.pages.lookup path = ix.pages.lookup path := by
      have hup : toUpsertPaths R p = [] := by unfold toUpsertPaths; rw [hzone]; rfl
      rw [hpages']
      unfold applyPages
      rw [hnone.1, hnone.2, hup]
      rfl
    rw [hsame, hpages.lookup, lookup_rebuild R hnew, rebuiltRow_of_untouched R hp hzone]
  · obtain ⟨rows, hrows, hlook⟩ := lookup_applyPages R haccepted hp hpages hzone
    obtain ⟨ix', hrun, hpages'⟩ := pages_processPush R now deliveryId hgo hrows
    refine ⟨ix', hrun, ?_⟩
    have hpushed : ∀ path, ix'.pages.lookup path = (baseRow R new path).map (pushedRow R old new p) := by
      intro path
      rw [hpages', hlook]
      refine Option.map_congr fun r hr => ?_
      rw [pushedRow, path_baseRow R hr]
    rw [or_iff_right hzone, ← pushedRow_eq_derivedRow_iff]
    constructor
    · intro h r hr
      have hpath := h r.path
      rw [hpushed, lookup_rebuild R hnew, rebuiltRow_eq, (mem_baseRows R).mp hr] at hpath
      exact Option.some.inj hpath
    · intro h path
      rw [hpushed, lookup_rebuild R hnew, rebuiltRow_eq]
      refine Option.map_congr fun r hr => h r ((mem_baseRows R).mpr ?_)
      rw [path_baseRow R hr]
      exact hr

end

end

/-! ## a link outside the body -/

def firstNote : Text := "wiki/notes/First.md".toList
def secondNote : Text := "wiki/notes/Second.md".toList

/-- the first note links to the second from its front matter, or does not -/
def notesTree (extra : List String) (body : String) : Worktree :=
  ((∅ : Worktree).insert firstNote (Ascii.note "First" extra "Hello.")).insert secondNote
    (Ascii.note "Second" [] body)

/-- the push that takes one tree to another -/
def pushOf (old new : Worktree) : Payload :=
  { after := ['b'], headCommitId := ['b'], before := some ['a'], commits := [difference old new],
    size := none }

theorem pushed_pushOf (old new : Worktree) : Pushed old (pushOf old new).commits new :=
  .cons (lists_difference old new) (.nil new)

/-- the index a rebuild of a tree leaves -/
def indexOf (t : Worktree) : Index :=
  { pages := Table.insertAll PageRow.path (((loadPageTexts ascii (pagesOf t)).toOption).getD []) ∅
    health :=
      { repositoryHeadSha := ['a'], indexedCommitSha := ['a'], dirty := false, dirtySince := none,
        lastIncrementalAt := none, lastFullRebuildAt := some 0, indexedRows := 0, updatedAt := 0,
        version := 0 }
    deliveries := [] }

def leftRow (old new : Worktree) (path : Text) : Option PageRow :=
  (processPush ascii 0 50 new.lookup [] (pushOf old new) (indexOf old)).toOption.bind fun ix =>
    ix.pages.lookup path

/-- both trees are clean, and the link of the page that is not touched is gone after the push -/
theorem not_processPush_eq_rebuild :
    let old := notesTree ["see: x [[Second]]"] "Hello."
    let new := notesTree ["see: x [[Second]]"] "Hello again."
    Lint.check ascii nibbles old [] = [] ∧ Lint.check ascii nibbles new [] = [] ∧
      (loadPageTexts ascii (pagesOf old)).isOk = true ∧ (loadPageTexts ascii (pagesOf new)).isOk = true ∧
      Pushed old (pushOf old new).commits new ∧
      verdict ascii 50 (indexOf old).health (pushOf old new) = .go ∧
      (leftRow old new firstNote).map PageRow.links = some [] ∧
      ((indexOf new).pages.lookup firstNote).map PageRow.links = some [secondNote] := by
  refine ⟨by decide +kernel, by decide +kernel, by decide +kernel, by decide +kernel,
    pushed_pushOf _ _, by decide +kernel, by decide +kernel, by decide +kernel⟩

/-- the same trees without it -/
theorem processPush_eq_rebuild_plain :
    let old := notesTree [] "Hello [[First]]."
    let new := notesTree [] "Hello again."
    ∃ rows₁ ix', loadPageTexts ascii (pagesOf new) = .ok rows₁ ∧
      processPush ascii 0 50 new.lookup [] (pushOf old new) (indexOf old) = .ok ix' ∧
      ∀ path, ix'.pages.lookup path = (Table.insertAll PageRow.path rows₁ ∅).lookup path := by
  intro old new
  have hok : (loadPageTexts ascii (pagesOf old)).isOk = true := by decide +kernel
  have hok' : (loadPageTexts ascii (pagesOf new)).isOk = true := by decide +kernel
  have hgo : verdict ascii 50 (indexOf old).health (pushOf old new) = .go := by decide +kernel
  have htracks : Tracks ascii old new (pushOf old new) := ⟨by decide +kernel, by decide +kernel⟩
  cases hold : loadPageTexts ascii (pagesOf old) with
  | error e =>
    rw [hold] at hok
    exact nomatch hok
  | ok rows₀ =>
    cases hnew : loadPageTexts ascii (pagesOf new) with
    | error e =>
      rw [hnew] at hok'
      exact nomatch hok'
    | ok rows₁ =>
      have hix : (indexOf old).pages = Table.insertAll PageRow.path rows₀ ∅ := by
        unfold indexOf
        rw [hold]
        rfl
      obtain ⟨ix', hrun, hiff⟩ := processPush_eq_rebuild_iff ascii 0 [] hold
        hnew (pushed_pushOf old new) hix hgo
      exact ⟨rows₁, ix', rfl, hrun, hiff.mpr (Or.inr htracks)⟩

end Webhook
