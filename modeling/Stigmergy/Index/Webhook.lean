import Stigmergy.Lib.Table
import Stigmergy.Index.Corpus

/-!
# Pushes applied to the index

`index/health.py` and `process_push` of `server/webhook.py`: a push is applied to the rows in one
transaction, or leaves the index marked dirty for the next rebuild.

* `changedPathsFromPush`   the last status the listed commits give each path;
* `verdict`      what the health row says about a push before any work is done;
* `prepareRows`  the rows of the pages the push adds or modifies;
* `applyPush`    the transaction, which looks at the health row once more;
* `processPush`  the three after one another;
* `rebuildIndex` the transaction of a full rebuild;
* `Pushed`       what the payload says of the trees (`status_of_pushed`).
-/

set_option linter.unusedSectionVars false

namespace Webhook

open Corpus

inductive Change where
  | added | modified | removed
deriving DecidableEq, Repr

/-- the paths a payload lists for one commit -/
structure PushCommit where
  added : List Text
  modified : List Text
  removed : List Text
deriving DecidableEq

structure Payload where
  after : Text
  headCommitId : Text
  before : Option Text
  commits : List PushCommit
  /-- absent, not a natural number, or a number -/
  size : Option (Option ℕ)

/-- `payload.get("after") or head_commit.id or ""` -/
def Payload.sha (p : Payload) : Text := if p.after.isEmpty then p.headCommitId else p.after

abbrev Changes := AList fun _ : Text => Change

def mark (status : Change) (paths : List Text) (changes : Changes) : Changes :=
  paths.foldl (fun m path => m.insert path status) changes

def markCommit (changes : Changes) (c : PushCommit) : Changes :=
  mark .removed c.removed (mark .modified c.modified (mark .added c.added changes))

def changedPathsFromPush (p : Payload) : Changes := p.commits.foldl markCommit ∅

/-- `push_commit_list_complete` -/
def pushCommitListComplete (p : Payload) : Bool :=
  match p.size with
  | none => true
  | some none => false
  | some (some n) => n ≤ p.commits.length

/-! ## health -/

structure Health where
  repositoryHeadSha : Text
  indexedCommitSha : Text
  dirty : Bool
  dirtySince : Option Time
  lastIncrementalAt : Option Time
  lastFullRebuildAt : Option Time
  indexedRows : ℕ
  updatedAt : Time
  /-- `xmin`: every update of the row changes it -/
  version : ℕ
deriving DecidableEq

def markDirty (now : Time) (sha : Text) (h : Health) : Health :=
  { h with
    repositoryHeadSha := sha
    dirtySince := if h.dirty then h.dirtySince else some now
    dirty := true
    updatedAt := now
    version := h.version + 1 }

def recordIncremental (now : Time) (sha : Text) (indexedRows : ℕ) (h : Health) : Health :=
  { h with
    repositoryHeadSha := sha
    indexedCommitSha := sha
    lastIncrementalAt := some now
    indexedRows := indexedRows
    updatedAt := now
    version := h.version + 1 }

def recordFullRebuild (now : Time) (sha : Text) (indexedRows : ℕ) (h : Health) : Health :=
  { h with
    repositoryHeadSha := sha
    indexedCommitSha := sha
    dirty := false
    dirtySince := none
    lastFullRebuildAt := some now
    indexedRows := indexedRows
    updatedAt := now
    version := h.version + 1 }

abbrev Pages := AList fun _ : Text => PageRow

structure Index where
  pages : Pages
  health : Health
  /-- `webhook_deliveries` -/
  deliveries : List (Text × Time)

/-- a day in the unit of `Time` -/
def day : Time := 86400000000

def WEBHOOK_DELIVERY_RETENTION_DAYS : ℕ := 30

/-- `delivery_already_applied` -/
def deliveryAlreadyApplied (ix : Index) (deliveryId : Text) : Bool :=
  !deliveryId.isEmpty && ix.deliveries.any fun d => d.1 == deliveryId

/-- `record_delivery` -/
def recordDelivery (now : Time) (deliveryId : Text) (ix : Index) : Index :=
  if deliveryId.isEmpty then ix
  else
    let ds := if ix.deliveries.any fun d => d.1 == deliveryId then ix.deliveries
      else (deliveryId, now) :: ix.deliveries
    { ix with deliveries :=
        ds.filter fun d => now ≤ d.2 + WEBHOOK_DELIVERY_RETENTION_DAYS * day }

theorem recordDelivery_pages (now : Time) (deliveryId : Text) (ix : Index) :
    (recordDelivery now deliveryId ix).pages = ix.pages := by
  unfold recordDelivery
  split <;> rfl

theorem recordDelivery_health (now : Time) (deliveryId : Text) (ix : Index) :
    (recordDelivery now deliveryId ix).health = ix.health := by
  unfold recordDelivery
  split <;> rfl

/-! ## one push -/

inductive Verdict where
  | alreadyCurrent
  | deferred (reason : Text)
  | go
deriving DecidableEq

section
variable (R : Runtime)

/-- the keys `in_zone_changes` keeps -/
def inZonePaths (p : Payload) : List Text := (changedPathsFromPush p).keys.filter (isIndexablePage R)

def toDelete (p : Payload) : List Text :=
  sortedSet ((inZonePaths R p).filter fun path => (changedPathsFromPush p).lookup path == some .removed)

def toUpsertPaths (p : Payload) : List Text :=
  sortedSet ((inZonePaths R p).filter fun path => (changedPathsFromPush p).lookup path != some .removed)

/-- the part of `process_push` before its first read of the pages -/
def verdict (fileCap : ℕ) (h : Health) (p : Payload) : Verdict :=
  if !p.sha.isEmpty && p.sha == h.indexedCommitSha then .alreadyCurrent
  else if h.dirty then .deferred "index_dirty".toList
  else if p.before != some h.indexedCommitSha then .deferred "non_linear_push".toList
  else if !pushCommitListComplete p then .deferred "truncated_push".toList
  else if fileCap < (inZonePaths R p).length then .deferred "overflow".toList
  else .go

/-- the rows of the fetched pages, or the error that stops the push -/
def fetchRows (fetch : Text → Option Text) : List Text → Except Text (List PageRow)
  | [] => .ok []
  | path :: paths =>
    match fetch path with
    | none => .error "HTTPError".toList
    | some text =>
      match pageRow R path (zoneOf path) text with
      | .error e => .error e
      | .ok r => (fetchRows fetch paths).map (r :: ·)

/-- `store.source_dates` of the indexed pages -/
def storeSourceDates (pages : Pages) (vpaths exclude : List Text) (layer vpath : Text) : Option Text :=
  if vpaths.contains vpath then
    dateIn ((Table.vals pages).filter fun r => !exclude.contains r.path) layer vpath
  else none

/-- `_resolve_outbound_links`: against the indexed paths, without the deleted and with the new ones -/
def resolveOutboundLinks (pages : Pages) (deleted : List Text) (rows : List PageRow) : List PageRow :=
  withLinks R (sortedSet ((pages.keys.filter fun path => !deleted.contains path) ++
    rows.map PageRow.path)) rows

/-- the rows a push puts in, from what the index holds while they are made -/
def prepareRows (fetch : Text → Option Text) (pages : Pages) (p : Payload) :
    Except Text (List PageRow) :=
  (fetchRows R fetch (toUpsertPaths R p)).map fun rows =>
    let rows := resolveOutboundLinks R pages (toDelete R p) rows
    attachSourceDates
      (storeSourceDates pages (rows.flatMap PageRow.sources) (toDelete R p)) rows

/-- `upsert_pages`: a page that is there keeps its `inlinks` -/
def upsertPages (rows : List PageRow) (pages : Pages) : Pages :=
  rows.foldl (fun t r => t.insert r.path
    { r with inlinks := ((t.lookup r.path).map PageRow.inlinks).getD r.inlinks }) pages

/-- `_refresh_link_graph` -/
def refreshLinkGraph (pages : Pages) : Pages :=
  let linked := Table.mapVals
    (fun path r => { r with links := resolveLinks R pages.keys path (linkTargets R r.body) }) pages
  Table.mapVals (fun _ r => { r with inlinks := (inbound (Table.vals linked) r.vpath).length }) linked

/-- the pages after a push whose health row is as the push expects -/
def applyPages (p : Payload) (rows : List PageRow) (pages : Pages) : Pages :=
  let changed := upsertPages rows (Table.eraseAll (toDelete R p) pages)
  if (toDelete R p).isEmpty && (toUpsertPaths R p).isEmpty then changed
  else refreshLinkGraph R changed

/-- the transaction of `process_push` -/
def applyPush (now : Time) (deliveryId : Text) (p : Payload) (rows : List PageRow) (ix : Index) :
    Index :=
  if ix.health.dirty || p.before != some ix.health.indexedCommitSha then
    recordDelivery now deliveryId { ix with health := markDirty now p.sha ix.health }
  else
    let pages := applyPages R p rows ix.pages
    recordDelivery now deliveryId
      { ix with
        pages := pages
        health := recordIncremental now p.sha pages.keys.length ix.health }

/-- `_defer` -/
def defer (now : Time) (deliveryId : Text) (p : Payload) (ix : Index) : Index :=
  recordDelivery now deliveryId { ix with health := markDirty now p.sha ix.health }

/-- `process_push` with nothing else running -/
def processPush (now : Time) (fileCap : ℕ) (fetch : Text → Option Text) (deliveryId : Text)
    (p : Payload) (ix : Index) : Except Text Index :=
  match verdict R fileCap ix.health p with
  | .alreadyCurrent => .ok (recordDelivery now deliveryId ix)
  | .deferred _ => .ok (defer now deliveryId p ix)
  | .go => (prepareRows R fetch ix.pages p).map fun rows => applyPush R now deliveryId p rows ix

/-- the transaction of `rebuild`, on a health row as it was at the start -/
def rebuildIndex (now : Time) (sha : Text) (rows : List PageRow) (ix : Index) : Index :=
  { ix with
    pages := Table.insertAll PageRow.path rows ∅
    health := recordFullRebuild now sha rows.length ix.health }

end

/-! ## what a payload says of the trees -/

/-- the commit turns one tree into the other, and lists the difference -/
structure Lists (old new : Worktree) (c : PushCommit) : Prop where
  added : ∀ path, path ∈ c.added ↔ old.lookup path = none ∧ new.lookup path ≠ none
  removed : ∀ path, path ∈ c.removed ↔ old.lookup path ≠ none ∧ new.lookup path = none
  modified : ∀ path, path ∈ c.modified → old.lookup path ≠ none ∧ new.lookup path ≠ none
  unlisted : ∀ path, path ∉ c.added → path ∉ c.modified → path ∉ c.removed →
    new.lookup path = old.lookup path

/-- the difference of two trees, listed -/
def difference (old new : Worktree) : PushCommit where
  added := new.keys.filter fun path => (old.lookup path).isNone
  modified := new.keys.filter fun path => (old.lookup path).isSome && old.lookup path != new.lookup path
  removed := old.keys.filter fun path => (new.lookup path).isNone

theorem lists_difference (old new : Worktree) : Lists old new (difference old new) := by
  have hkeys : ∀ (t : Worktree) path, path ∈ t.keys ↔ t.lookup path ≠ none := by
    intro t path
    rw [Table.mem_keys_iff, ← Option.ne_none_iff_exists']
  refine ⟨fun path => ?_, fun path => ?_, fun path h => ?_, fun path ha hm hr => ?_⟩
  · unfold difference
    rw [List.mem_filter, hkeys, Option.isNone_iff_eq_none, and_comm]
  · unfold difference
    rw [List.mem_filter, hkeys, Option.isNone_iff_eq_none]
  · unfold difference at h
    rw [List.mem_filter, hkeys, Bool.and_eq_true, Option.isSome_iff_ne_none] at h
    exact ⟨h.2.1, h.1⟩
  · unfold difference at ha hm hr
    rw [List.mem_filter, hkeys] at ha hm hr
    cases hn : new.lookup path with
    | none =>
      cases ho : old.lookup path with
      | none => rfl
      | some u => simp [hn, ho] at hr
    | some t =>
      cases ho : old.lookup path with
      | none => simp [hn, ho] at ha
      | some u =>
        by_cases hut : u = t
        · rw [hut]
        · simp [hn, ho, hut] at hm

/-- the commits lead from one tree to the other, one after the other -/
inductive Pushed : Worktree → List PushCommit → Worktree → Prop where
  | nil (t : Worktree) : Pushed t [] t
  | cons {t u v : Worktree} {c : PushCommit} {cs : List PushCommit} :
      Lists t u c → Pushed u cs v → Pushed t (c :: cs) v

/-- what the status of a path says of the trees -/
def StatusSays (old new : Worktree) (path : Text) : Option Change → Prop
  | none => new.lookup path = old.lookup path
  | some .removed => new.lookup path = none
  | some _ => new.lookup path ≠ none

theorem lookup_mark (status : Change) (paths : List Text) (m : Changes) (path : Text) :
    (mark status paths m).lookup path = if path ∈ paths then some status else m.lookup path := by
  unfold mark
  induction paths generalizing m with
  | nil => rw [List.foldl_nil, if_neg List.not_mem_nil]
  | cons q paths ih =>
    rw [List.foldl_cons, ih, Table.lookup_insert_eq]
    by_cases h : path ∈ paths
    · rw [if_pos h, if_pos (List.mem_cons_of_mem q h)]
    · rw [if_neg h]
      by_cases hq : path = q
      · rw [if_pos hq, if_pos (by rw [hq]; exact List.mem_cons_self)]
      · rw [if_neg hq, if_neg (by simp [h, hq])]

theorem lookup_markCommit (m : Changes) (c : PushCommit) (path : Text) :
    (markCommit m c).lookup path =
      if path ∈ c.removed then some .removed
      else if path ∈ c.modified then some .modified
      else if path ∈ c.added then some .added
      else m.lookup path := by
  unfold markCommit
  rw [lookup_mark, lookup_mark, lookup_mark]

theorem statusSays_markCommit {start old new : Worktree} {m : Changes} {c : PushCommit}
    (hc : Lists old new c) {path : Text} (hm : StatusSays start old path (m.lookup path)) :
    StatusSays start new path ((markCommit m c).lookup path) := by
  rw [lookup_markCommit]
  by_cases hr : path ∈ c.removed
  · rw [if_pos hr]
    exact ((hc.removed path).mp hr).2
  · rw [if_neg hr]
    by_cases hmod : path ∈ c.modified
    · rw [if_pos hmod]
      exact (hc.modified path hmod).2
    · rw [if_neg hmod]
      by_cases ha : path ∈ c.added
      · rw [if_pos ha]
        exact ((hc.added path).mp ha).2
      · rw [if_neg ha]
        have hsame := hc.unlisted path ha hmod hr
        cases hl : m.lookup path with
        | none =>
          rw [hl] at hm
          exact hsame.trans hm
        | some status =>
          rw [hl] at hm
          cases status with
          | removed => exact hsame.trans hm
          | added =>
            show new.lookup path ≠ none
            rw [hsame]
            exact hm
          | modified =>
            show new.lookup path ≠ none
            rw [hsame]
            exact hm

/-- the last status of a path says where the push left it -/
theorem status_of_pushed {old new : Worktree} {p : Payload} (h : Pushed old p.commits new) (path : Text) :
    StatusSays old new path ((changedPathsFromPush p).lookup path) := by
  have hrun : ∀ (cs : List PushCommit) (start t : Worktree) (m : Changes), Pushed t cs new →
      StatusSays start t path (m.lookup path) →
      StatusSays start new path ((cs.foldl markCommit m).lookup path) := by
    intro cs
    induction cs with
    | nil =>
      intro start t m hp hm
      cases hp
      exact hm
    | cons c cs ih =>
      intro start t m hp hm
      cases hp with
      | cons hc hcs => exact ih start _ _ hcs (statusSays_markCommit hc hm)
  exact hrun p.commits old old ∅ h (by rw [AList.lookup_empty]; rfl)

/-! ## the paths of the index -/

/-- the paths that have a row -/
def Indexed (pages : Pages) (path : Text) : Prop := ∃ r, pages.lookup path = some r

section
variable (R : Runtime)

theorem mem_inZonePaths {p : Payload} {path : Text} : path ∈ inZonePaths R p ↔
    isIndexablePage R path = true ∧ ∃ status, (changedPathsFromPush p).lookup path = some status := by
  unfold inZonePaths
  rw [List.mem_filter, Table.mem_keys_iff, and_comm]

theorem mem_toDelete {p : Payload} {path : Text} : path ∈ toDelete R p ↔
    isIndexablePage R path = true ∧ (changedPathsFromPush p).lookup path = some .removed := by
  unfold toDelete
  rw [mem_sortedSet, List.mem_filter, mem_inZonePaths, beq_iff_eq]
  constructor
  · rintro ⟨⟨hz, -⟩, hs⟩
    exact ⟨hz, hs⟩
  · rintro ⟨hz, hs⟩
    exact ⟨⟨hz, .removed, hs⟩, hs⟩

theorem mem_toUpsertPaths {p : Payload} {path : Text} : path ∈ toUpsertPaths R p ↔
    isIndexablePage R path = true ∧
      ∃ status, (changedPathsFromPush p).lookup path = some status ∧ status ≠ .removed := by
  unfold toUpsertPaths
  rw [mem_sortedSet, List.mem_filter, mem_inZonePaths, bne_iff_ne]
  constructor
  · rintro ⟨⟨hz, status, hs⟩, hne⟩
    exact ⟨hz, status, hs, fun e => hne (by rw [hs, e])⟩
  · rintro ⟨hz, status, hs, hne⟩
    exact ⟨⟨hz, status, hs⟩, fun e => hne (Option.some.inj (hs.symm.trans e))⟩

theorem map_path_fetchRows {fetch : Text → Option Text} {paths : List Text} {rows : List PageRow}
    (h : fetchRows R fetch paths = .ok rows) : rows.map PageRow.path = paths := by
  induction paths generalizing rows with
  | nil =>
    obtain rfl := Except.ok.inj h
    rfl
  | cons path paths ih =>
    unfold fetchRows at h
    split at h
    · exact nomatch h
    · split at h
      · exact nomatch h
      · rename_i r hr
        cases hps : fetchRows R fetch paths with
        | error e =>
          rw [hps] at h
          exact nomatch h
        | ok rs =>
          rw [hps] at h
          obtain rfl := Except.ok.inj h
          rw [List.map_cons, ih hps, (rowOf_pageRow R hr).path]

theorem map_path_prepareRows {fetch : Text → Option Text} {pages : Pages} {p : Payload}
    {rows : List PageRow} (h : prepareRows R fetch pages p = .ok rows) :
    rows.map PageRow.path = toUpsertPaths R p := by
  unfold prepareRows at h
  cases hrows : fetchRows R fetch (toUpsertPaths R p) with
  | error e =>
    rw [hrows] at h
    exact nomatch h
  | ok rs =>
    rw [hrows] at h
    obtain rfl := Except.ok.inj h
    rw [map_path_attachSourceDates]
    unfold resolveOutboundLinks
    rw [map_path_withLinks, map_path_fetchRows R hrows]

theorem indexed_upsertPages (rows : List PageRow) (pages : Pages) (path : Text) :
    Indexed (upsertPages rows pages) path ↔ path ∈ rows.map PageRow.path ∨ Indexed pages path := by
  unfold upsertPages
  induction rows generalizing pages with
  | nil => simp
  | cons r rows ih =>
    rw [List.foldl_cons, ih, List.map_cons, List.mem_cons]
    unfold Indexed
    rw [Table.lookup_insert_eq]
    by_cases h : path = r.path
    · simp [h]
    · simp [h]

theorem indexed_refreshLinkGraph (pages : Pages) (path : Text) :
    Indexed (refreshLinkGraph R pages) path ↔ Indexed pages path := by
  unfold Indexed refreshLinkGraph
  simp only [Table.lookup_mapVals]
  cases pages.lookup path with
  | none => simp
  | some r => simp

/-- the paths after a push -/
theorem indexed_applyPages {p : Payload} {rows : List PageRow} {pages : Pages}
    (hrows : rows.map PageRow.path = toUpsertPaths R p) (path : Text) :
    Indexed (applyPages R p rows pages) path ↔
      path ∈ toUpsertPaths R p ∨ (path ∉ toDelete R p ∧ Indexed pages path) := by
  have hchanged : Indexed (upsertPages rows (Table.eraseAll (toDelete R p) pages)) path ↔
      path ∈ toUpsertPaths R p ∨ (path ∉ toDelete R p ∧ Indexed pages path) := by
    rw [indexed_upsertPages, hrows]
    unfold Indexed
    rw [Table.lookup_eraseAll]
    by_cases h : path ∈ toDelete R p
    · simp [h]
    · simp [h]
  unfold applyPages
  simp only
  split
  · exact hchanged
  · rw [indexed_refreshLinkGraph]
    exact hchanged

/-- the indexable paths of a tree -/
def Indexable (t : Worktree) (path : Text) : Prop :=
  isIndexablePage R path = true ∧ t.lookup path ≠ none

/-- a push that leads from the indexed tree to another takes the paths along -/
theorem indexed_applyPages_of_pushed {old new : Worktree} {p : Payload} {rows : List PageRow}
    {pages : Pages} (hp : Pushed old p.commits new)
    (hrows : rows.map PageRow.path = toUpsertPaths R p)
    (hpages : ∀ path, Indexed pages path ↔ Indexable R old path) (path : Text) :
    Indexed (applyPages R p rows pages) path ↔ Indexable R new path := by
  rw [indexed_applyPages R hrows, hpages, mem_toUpsertPaths, mem_toDelete]
  unfold Indexable
  have hstatus := status_of_pushed hp path
  by_cases hz : isIndexablePage R path = true
  · cases hs : (changedPathsFromPush p).lookup path with
    | none =>
      rw [hs] at hstatus
      have hsame : new.lookup path = old.lookup path := hstatus
      simp [hz, hsame]
    | some status =>
      rw [hs] at hstatus
      cases status with
      | removed =>
        have hnone : new.lookup path = none := hstatus
        simp [hz, hnone]
      | added =>
        have hsome : new.lookup path ≠ none := hstatus
        simp [hz, hsome]
      | modified =>
        have hsome : new.lookup path ≠ none := hstatus
        simp [hz, hsome]
  · simp [hz]

/-- the pages of a tree as a rebuild reads them -/
def pagesOf (t : Worktree) : List (Text × Text) := t.entries.map fun e => (e.1, e.2)

theorem mem_pagesOf {t : Worktree} {path text : Text} :
    (path, text) ∈ pagesOf t ↔ t.lookup path = some text := by
  unfold pagesOf
  rw [List.mem_map]
  constructor
  · rintro ⟨⟨q, u⟩, he, h⟩
    obtain ⟨rfl, rfl⟩ := Prod.mk.inj h
    exact AList.mem_lookup_iff.mpr he
  · intro h
    exact ⟨⟨path, text⟩, AList.mem_lookup_iff.mp h, rfl⟩

theorem mem_path_loadPageTexts {t : Worktree} {rows : List PageRow}
    (h : loadPageTexts R (pagesOf t) = .ok rows) (path : Text) :
    path ∈ rows.map PageRow.path ↔ Indexable R t path := by
  rw [(perm_path_loadPageTexts R h).mem_iff, List.mem_map]
  unfold Indexable
  constructor
  · rintro ⟨⟨q, u⟩, hq, rfl⟩
    rw [List.mem_filter, mem_pagesOf] at hq
    exact ⟨hq.2, by rw [hq.1]; exact nofun⟩
  · rintro ⟨hz, hne⟩
    obtain ⟨text, ht⟩ := Option.ne_none_iff_exists'.mp hne
    exact ⟨(path, text), List.mem_filter.mpr ⟨mem_pagesOf.mpr ht, hz⟩, rfl⟩

theorem indexed_insertAll (rows : List PageRow) (path : Text) :
    Indexed (Table.insertAll PageRow.path rows ∅) path ↔ path ∈ rows.map PageRow.path := by
  have hall : ∀ (rows : List PageRow) (t : Pages),
      Indexed (Table.insertAll PageRow.path rows t) path ↔
        path ∈ rows.map PageRow.path ∨ Indexed t path := by
    intro rows
    induction rows with
    | nil => intro t; simp [Table.insertAll]
    | cons r rows ih =>
      intro t
      show Indexed (Table.insertAll PageRow.path rows (t.insert r.path r)) path ↔ _
      rw [ih, List.map_cons, List.mem_cons]
      unfold Indexed
      rw [Table.lookup_insert_eq]
      by_cases h : path = r.path
      · simp [h]
      · simp [h]
  rw [hall]
  unfold Indexed
  rw [AList.lookup_empty]
  simp

end

end Webhook
