import Mathlib.Data.List.Dedup
import Stigmergy.Lib.Checks
import Stigmergy.Lib.Keyset
import Stigmergy.Index.Corpus
import Stigmergy.Kernel.Ascii
import Stigmergy.Knowledge.Pages
import Stigmergy.Server.Cursor

/-!
# Listing pages

`_list_pages` of `server/service.py` over the query of `list_pages` in `index/search.py`: every page of
the index a reader may see and that matches the filters, fused by virtual path, a batch per call.

* `ranked`            the fused pages with their sort keys, before any cursor; `mem_ranked`;
* `listPages`         one call: the checks on its arguments, the query, the next cursor;
* `listPages_next`    what a call returns, by the pages that come after its cursor;
* `followed`          the pages visited when every `next` is sent back;
* `exact_iff`         every matching page is visited once, in order, exactly when no page that ends a
                      batch has a sort key and a path too long for a cursor;
* `not_exact`         fifty-one notes with a title of 250 letters are not.

The order and the case mapping of the database, the digest a cursor is bound to and the resolution of
an entity's name are parameters.  Of a row shown only its virtual path is kept.
-/

set_option linter.unusedSectionVars false

namespace Listing

open Corpus

/-- how the database compares text, and `lower` -/
structure Collation where
  lt : Text → Text → Bool
  strict : Keyset.StrictTotal lt
  lower : Text → Text

/-- the rows of the index, each filed in a layer -/
structure Catalog where
  rows : List PageRow
  filed : ∀ r ∈ rows, (Layers.layerOfAcl r.acl).isSome = true

inductive ListSort where
  | recent | oldest | title
deriving DecidableEq

/-- the arguments of a call besides the cursor -/
structure Filters where
  type : Option Text
  entityType : Option Text
  layer : Option Text
  since : Option Text
  untilDay : Option Text
  linksTo : Option Text
  sort : Text

/-- the arguments of the query -/
structure Query where
  pageType : Option Text
  entityType : Option Text
  layer : Option Text
  linksTo : Option Text
  since : Option Text
  untilDay : Option Text
  sort : ListSort

structure Response where
  total : ℕ
  count : ℕ
  pages : List Text
  next : Option Text

/-! ## The query -/

section
variable (C : Collation) (catalog : Catalog) (audiences : Option (List Text)) (q : Query)

/-- `acl IS NULL OR acl && audiences` -/
def isVisible (r : PageRow) : Bool :=
  match audiences, r.acl with
  | none, _ | _, none => true
  | some labels, some acl => acl.any labels.contains

def visibleRows : List PageRow := catalog.rows.filter (isVisible audiences)

/-- the rows the query groups: with `links_to`, those of pages a visible row of which links there -/
def queryRows : List PageRow :=
  match q.linksTo with
  | none => visibleRows catalog audiences
  | some target =>
    let linking := ((visibleRows catalog audiences).filter fun r => r.links.contains target).map
      fun r => r.vpath
    (visibleRows catalog audiences).filter fun r => linking.contains r.vpath

/-- `min` or `max` by a comparison -/
def extreme (better : Text → Text → Bool) (ds : List Text) : Option Text :=
  ds.foldl (fun best d => match best with
    | none => some d
    | some b => if better d b then some d else some b) none

def datesOf (group : List PageRow) : List Text := group.flatMap fun r => r.sourceDates

/-- the first row by `(acl IS NOT NULL), path` -/
def leader (group : List PageRow) : Option PageRow :=
  group.foldl (fun best r => match best with
    | none => some r
    | some b =>
      if (b.acl.isSome && r.acl.isNone) || (b.acl.isSome == r.acl.isSome && C.lt r.path b.path)
      then some r else some b) none

def titleOf (group : List PageRow) : Text := ((leader C group).map fun r => r.title).getD []

def entityTypeOf (group : List PageRow) : Option Text :=
  (leader C (group.filter fun r => !r.entityType.isEmpty)).map fun r => r.entityType

/-- `LIST_SORTS` -/
def sortKey (group : List PageRow) : Text :=
  match q.sort with
  | .recent => (extreme (fun d b => C.lt b d) (datesOf group)).getD []
  | .oldest => (extreme C.lt (datesOf group)).getD "9999-12-31".toList
  | .title => C.lower (titleOf C group)

/-- `HAVING` and the conditions on the fused page -/
def selects (group : List PageRow) : Bool :=
  (q.pageType.all fun t => group.any fun r => r.type.name == t) &&
  (q.layer.all fun l => group.any fun r => r.acl == Layers.aclOfLayer l) &&
  (q.linksTo.all fun target => group.any fun r => r.links.contains target) &&
  (!(q.since.isSome || q.untilDay.isSome) || group.any fun r => r.sourceDates.any fun d =>
    !C.lt d (q.since.getD "0000-01-01".toList) && !C.lt (q.untilDay.getD "9999-12-31".toList) d) &&
  (q.entityType.all fun t => entityTypeOf C group == some t)

def groupOf (rows : List PageRow) (vpath : Text) : List PageRow := rows.filter fun r => r.vpath == vpath

/-- one row for each fused page: its sort key and its virtual path -/
def ranked : List (Text × Text) :=
  let rows := queryRows catalog audiences q
  ((rows.map fun r => r.vpath).dedup.filter fun vpath => selects C q (groupOf rows vpath)).map
    fun vpath => (sortKey C q (groupOf rows vpath), vpath)

/-- `ORDER BY sort_key, vpath ASC`, which is also what a cursor's page comes before -/
def before (a b : Text × Text) : Bool :=
  (match q.sort with
    | .recent => C.lt b.1 a.1
    | .oldest | .title => C.lt a.1 b.1) || (a.1 == b.1 && C.lt a.2 b.2)

/-- `search.list_pages`: the pages after the keyset, and how many match in all -/
def found (after : Option (Text × Text)) (limit : ℕ) : List (Text × Text) × ℕ :=
  let pages := ranked C catalog audiences q
  let rest := match after with
    | none => pages
    | some a => pages.filter (before C q a)
  ((Keyset.ordered (before C q) rest).take limit, pages.length)

/-- the virtual paths of `listing_records` -/
def recorded (vpath : Text) : Bool :=
  (visibleRows catalog audiences).any fun r =>
    r.vpath == vpath && (Layers.layerOfAcl r.acl).isSome

end

/-! ## One call -/

def MAX_ARG_CHARS : ℕ := 8192

def LIST_TYPES : List Text :=
  ["note".toList, "concept".toList, "entity".toList, "project".toList, "source".toList]

def checkArgLength (name : Text) (value : Option Text) : Except Text Unit :=
  match value with
  | none => .ok ()
  | some v =>
    if MAX_ARG_CHARS < v.length then
      .error (name ++ " too long (max 8192 characters)".toList)
    else .ok ()

/-- what a call reads besides the index: the reader's layers, the digest of the arguments and the
entity a name resolves to -/
structure Service where
  readable : List Text
  listingKey : Filters → Text
  listingKey_hex : ∀ f, (listingKey f).length = 16 ∧ ∀ c ∈ listingKey f, isHex c = true
  resolveEntity : Text → Option Text
  decodeText : List ℕ → Option Text

section
variable (R : Runtime) (C : Collation) (catalog : Catalog) (audiences : Option (List Text))
variable (service : Service) (size : ℕ)

/-- `", ".join(…)` -/
def joined (names : List Text) : Text := (", ".toList).intercalate names

/-- `value or None` -/
def nonEmpty (value : Option Text) : Option Text := value.filter fun v => !v.isEmpty

/-- `_list_day` -/
def listDay (name : Text) (value : Option Text) : Except Text (Option Text) :=
  match nonEmpty value with
  | none => .ok none
  | some v =>
    let invalid := name ++ " must be an ISO date (YYYY-MM-DD)".toList
    if v.length ≠ 10 then .error invalid
    else match R.isoDate v with
      | none => .error invalid
      | some day => .ok (some day)

def sortNamed (name : Text) : Option ListSort :=
  if name = "recent".toList then some .recent
  else if name = "oldest".toList then some .oldest
  else if name = "title".toList then some .title
  else none

/-- `_virtual` -/
def virtual (path : Text) : Text := ((Layers.splitPath path).map fun located => located.2).getD path

/-- `_list_target` -/
def listTarget (reference : Text) : Option Text :=
  if Text.endsWith ".md".toList (R.casefold (Text.strip reference)) then
    some (virtual (Text.strip reference))
  else service.resolveEntity reference

/-- the lengths of the arguments, in the order they are checked -/
def checkLengths (f : Filters) (cursor : Option Text) : Except Text Unit :=
  (checkArgLength "type".toList f.type).bind fun _ =>
  (checkArgLength "entity_type".toList f.entityType).bind fun _ =>
  (checkArgLength "layer".toList f.layer).bind fun _ =>
  (checkArgLength "since".toList f.since).bind fun _ =>
  (checkArgLength "until".toList f.untilDay).bind fun _ =>
  (checkArgLength "links_to".toList f.linksTo).bind fun _ =>
  (checkArgLength "sort".toList (some f.sort)).bind fun _ =>
  checkArgLength "cursor".toList cursor

/-- `page_type` of `_list_pages` -/
def pageTypeOf (f : Filters) : Except Text (Option Text) :=
  let pageType := nonEmpty f.type
  if pageType.any fun t => !LIST_TYPES.contains t then
    .error ("type must be one of ".toList ++ joined LIST_TYPES)
  else match nonEmpty f.entityType with
    | none => .ok pageType
    | some e =>
      if !Pages.ENTITY_TYPES.contains e then
        .error ("entity_type must be one of ".toList ++ joined Pages.ENTITY_TYPES)
      else if pageType.any fun t => t != "entity".toList then
        .error "entity_type applies to entity pages only".toList
      else .ok (some "entity".toList)

/-- the checks on the filters; `links_to` is still the reference -/
def checkFilters (f : Filters) : Except Text Query :=
  (pageTypeOf f).bind fun pageType =>
  if (nonEmpty f.layer).any fun l => !service.readable.contains l then
    .error ("layer must be one of the layers you may read: ".toList ++ joined service.readable)
  else
    (listDay R "since".toList f.since).bind fun since =>
    (listDay R "until".toList f.untilDay).bind fun untilDay =>
    if since.any fun s => untilDay.any fun u => u < s then
      .error "since must not be after until".toList
    else match sortNamed f.sort with
      | none => .error "sort must be one of recent, oldest, title".toList
      | some sort => .ok
        { pageType := pageType, entityType := nonEmpty f.entityType, layer := nonEmpty f.layer,
          linksTo := nonEmpty f.linksTo, since := since, untilDay := untilDay, sort := sort }

/-- the query once `links_to` is resolved; nothing for a name that is unknown or hidden -/
def resolved (q : Query) : Option Query :=
  match q.linksTo with
  | none => some q
  | some reference => (listTarget R service reference).map fun target =>
      { q with linksTo := some target }

/-- the response of a query, after a keyset -/
def answer (q : Query) (listing : Text) (after : Option (Text × Text)) : Response :=
  let found := found C catalog audiences q after (size + 1)
  let shown := found.1.take size
  let pages := (shown.map fun page => page.2).filter (recorded catalog audiences)
  { total := found.2
    count := pages.length
    pages := pages
    next := if size < found.1.length then
        shown.getLast?.map fun last => Cursor.encodeCursor listing last.1 last.2
      else none }

/-- the keyset of a cursor -/
def keyset (listing : Text) (cursor : Option Text) : Except Text (Option (Text × Text)) :=
  match nonEmpty cursor with
  | none => .ok none
  | some c => (Cursor.decodeCursor service.decodeText c listing).map some

/-- `_list_pages` with batches of `size`, which is `LIST_PAGE_SIZE` there -/
def listPages (f : Filters) (cursor : Option Text) : Except Text Response :=
  (checkLengths f cursor).bind fun _ =>
  (checkFilters R service f).bind fun q =>
  (keyset service (service.listingKey f) cursor).bind fun after =>
  match resolved R service q with
  | none => .ok { total := 0, count := 0, pages := [], next := none }
  | some q => .ok (answer C catalog audiences size q (service.listingKey f) after)

/-- the pages visited when every `next` is sent back; nothing when a call is refused -/
def followed (f : Filters) : ℕ → Option Text → Option (List Text)
  | 0, _ => none
  | n + 1, cursor =>
    match listPages R C catalog audiences service size f cursor with
    | .error _ => none
    | .ok response => match response.next with
      | none => some response.pages
      | some c => (followed f n (some c)).map (response.pages ++ ·)

/-! ## What a listing is to visit -/

/-- the rows of a page the reader may see -/
def visibleGroup (vpath : Text) : List PageRow := groupOf (visibleRows catalog audiences) vpath

/-- a visible page that matches the filters -/
def Matches (q : Query) (vpath : Text) : Prop :=
  visibleGroup catalog audiences vpath ≠ [] ∧
    selects C q (visibleGroup catalog audiences vpath) = true

/-- the declared order -/
def Precedes (q : Query) (v w : Text) : Prop :=
  before C q (sortKey C q (visibleGroup catalog audiences v), v)
    (sortKey C q (visibleGroup catalog audiences w), w) = true

/-- every matching page is visited once, in the declared order, and the listing ends -/
def Exact (f : Filters) (q : Option Query) : Prop :=
  ∃ n visited, followed R C catalog audiences service size f n none = some visited ∧
    visited.Nodup ∧ match q with
      | none => visited = []
      | some q => (∀ v, v ∈ visited ↔ Matches C catalog audiences q v) ∧
          visited.Pairwise (Precedes C catalog audiences q)

/-- the pages of a listing with their sort keys, in the declared order -/
def listing (q : Option Query) : List (Text × Text) :=
  match q with
  | none => []
  | some q => Keyset.ordered (before C q) (ranked C catalog audiences q)

/-- a cursor to this page is short enough -/
def fits (page : Text × Text) : Bool :=
  decide ((Json.escaped page.1).length + (Json.escaped page.2).length ≤ 1492)

/-! ## The query and what it is to give -/

theorem strict_before (q : Query) : Keyset.StrictTotal (before C q) := by
  -- by the sort key one way or the other, then by path
  have hlex : ∀ better : Text → Text → Bool, Keyset.StrictTotal better →
      Keyset.StrictTotal fun a b : Text × Text => better a.1 b.1 || (a.1 == b.1 && C.lt a.2 b.2) := by
    intro better h
    refine ⟨fun a => ?_, fun a b c hab hbc => ?_, fun a b => ?_⟩
    · show (better a.1 a.1 || (a.1 == a.1 && C.lt a.2 a.2)) = false
      rw [h.irrefl, C.strict.irrefl, Bool.and_false]
      rfl
    · rw [Bool.or_eq_true, Bool.and_eq_true, beq_iff_eq] at hab hbc ⊢
      rcases hab with hab | ⟨hab, hab'⟩
      · rcases hbc with hbc | ⟨hbc, -⟩
        · exact Or.inl (h.trans _ _ _ hab hbc)
        · rw [← hbc]
          exact Or.inl hab
      · rcases hbc with hbc | ⟨hbc, hbc'⟩
        · rw [hab]
          exact Or.inl hbc
        · exact Or.inr ⟨hab.trans hbc, C.strict.trans _ _ _ hab' hbc'⟩
    · obtain ⟨k, v⟩ := a
      obtain ⟨k', v'⟩ := b
      rcases h.total k k' with hlt | rfl | hlt
      · exact Or.inl (Bool.or_eq_true_iff.mpr (Or.inl hlt))
      · rcases C.strict.total v v' with hlt | rfl | hlt
        · refine Or.inl (Bool.or_eq_true_iff.mpr (Or.inr ?_))
          rw [Bool.and_eq_true, beq_iff_eq]
          exact ⟨rfl, hlt⟩
        · exact Or.inr (Or.inl rfl)
        · refine Or.inr (Or.inr (Bool.or_eq_true_iff.mpr (Or.inr ?_)))
          rw [Bool.and_eq_true, beq_iff_eq]
          exact ⟨rfl, hlt⟩
      · exact Or.inr (Or.inr (Bool.or_eq_true_iff.mpr (Or.inl hlt)))
  have hdesc : Keyset.StrictTotal fun a b => C.lt b a := by
    refine ⟨C.strict.irrefl, fun a b c hab hbc => C.strict.trans _ _ _ hbc hab, fun a b => ?_⟩
    rcases C.strict.total b a with h | h | h
    · exact Or.inl h
    · exact Or.inr (Or.inl h.symm)
    · exact Or.inr (Or.inr h)
  cases hsort : q.sort with
  | recent =>
    have h := hlex (fun a b => C.lt b a) hdesc
    have heq : before C q = fun a b => C.lt b.1 a.1 || (a.1 == b.1 && C.lt a.2 b.2) := by
      funext a b
      unfold before
      rw [hsort]
    rw [heq]
    exact h
  | oldest | title =>
    have h := hlex C.lt C.strict
    have heq : before C q = fun a b => C.lt a.1 b.1 || (a.1 == b.1 && C.lt a.2 b.2) := by
      funext a b
      unfold before
      rw [hsort]
    rw [heq]
    exact h

theorem mem_groupOf {rows : List PageRow} {vpath : Text} {r : PageRow} :
    r ∈ groupOf rows vpath ↔ r ∈ rows ∧ r.vpath = vpath := by
  unfold groupOf
  rw [List.mem_filter, beq_iff_eq]

/-- a page of the query has all its visible rows, one of which links to the target -/
theorem groupOf_queryRows (q : Query) (vpath : Text) :
    groupOf (queryRows catalog audiences q) vpath =
      if q.linksTo.all fun target =>
          (visibleGroup catalog audiences vpath).any fun r => r.links.contains target then
        visibleGroup catalog audiences vpath
      else [] := by
  unfold queryRows
  cases hlinks : q.linksTo with
  | none => rfl
  | some target =>
    dsimp only
    set visible := visibleRows catalog audiences with hvisible
    set linking := (visible.filter fun r => r.links.contains target).map fun r => r.vpath
    have hiff : linking.contains vpath =
        (some target).all fun target =>
          (visibleGroup catalog audiences vpath).any fun r => r.links.contains target := by
      rw [Option.all_some, Bool.eq_iff_iff, List.contains_iff_mem, List.mem_map, List.any_eq_true]
      constructor
      · rintro ⟨r, hr, rfl⟩
        obtain ⟨hr, hlink⟩ := List.mem_filter.mp hr
        exact ⟨r, mem_groupOf.mpr ⟨hr, rfl⟩, hlink⟩
      · rintro ⟨r, hr, hlink⟩
        have hrow := mem_groupOf.mp hr
        exact ⟨r, List.mem_filter.mpr ⟨hrow.1, hlink⟩, hrow.2⟩
    unfold groupOf
    rw [List.filter_filter]
    by_cases hin : linking.contains vpath = true
    · rw [if_pos (hiff ▸ hin)]
      unfold visibleGroup groupOf
      refine List.filter_congr fun r _ => ?_
      by_cases hv : r.vpath = vpath
      · rw [hv, hin, Bool.and_true]
      · rw [beq_false_of_ne hv, Bool.false_and]
    · rw [if_neg (hiff ▸ hin)]
      refine List.filter_eq_nil_iff.mpr fun r _ hboth => ?_
      rw [Bool.and_eq_true, beq_iff_eq] at hboth
      rw [hboth.1] at hboth
      exact hin hboth.2

theorem mem_ranked {q : Query} {key vpath : Text} :
    (key, vpath) ∈ ranked C catalog audiences q ↔
      Matches C catalog audiences q vpath ∧
        key = sortKey C q (visibleGroup catalog audiences vpath) := by
  have hgroup : ∀ v, groupOf (queryRows catalog audiences q) v ≠ [] →
      groupOf (queryRows catalog audiences q) v = visibleGroup catalog audiences v := by
    intro v hne
    rw [groupOf_queryRows] at hne ⊢
    split
    · rfl
    · rename_i hlinks
      rw [if_neg hlinks] at hne
      exact absurd rfl hne
  have hmem : ∀ v, v ∈ (queryRows catalog audiences q).map (fun r => r.vpath) ↔
      groupOf (queryRows catalog audiences q) v ≠ [] := by
    intro v
    rw [List.mem_map]
    constructor
    · rintro ⟨r, hr, hv⟩
      exact List.ne_nil_of_mem (mem_groupOf.mpr ⟨hr, hv⟩)
    · intro hne
      obtain ⟨r, hr⟩ := List.exists_mem_of_ne_nil _ hne
      exact ⟨r, mem_groupOf.mp hr⟩
  unfold ranked
  dsimp only
  rw [List.mem_map]
  constructor
  · rintro ⟨v, hv, heq⟩
    obtain ⟨rfl, rfl⟩ := Prod.mk.inj heq
    obtain ⟨hv, hselects⟩ := List.mem_filter.mp hv
    have hne := (hmem v).mp (List.mem_dedup.mp hv)
    have hsame := hgroup v hne
    rw [hsame] at hne hselects ⊢
    exact ⟨⟨hne, hselects⟩, rfl⟩
  · rintro ⟨⟨hne, hselects⟩, rfl⟩
    have hlinks : (q.linksTo.all fun target =>
        (visibleGroup catalog audiences vpath).any fun r => r.links.contains target) = true := by
      unfold selects at hselects
      rw [Bool.and_eq_true, Bool.and_eq_true, Bool.and_eq_true] at hselects
      exact hselects.1.1.2
    have hsame := groupOf_queryRows catalog audiences q vpath
    rw [if_pos hlinks] at hsame
    refine ⟨vpath, List.mem_filter.mpr ⟨List.mem_dedup.mpr ((hmem vpath).mpr ?_), ?_⟩, ?_⟩
    · rw [hsame]
      exact hne
    · rw [hsame]
      exact hselects
    · rw [hsame]

theorem nodup_ranked (q : Query) : (ranked C catalog audiences q).Nodup := by
  unfold ranked
  refine List.Nodup.map (fun v w heq => (Prod.mk.inj heq).2) ?_
  exact (List.nodup_dedup _).filter _

/-! ## One call, by the pages that are left -/

theorem found_none (q : Query) (limit : ℕ) : (found C catalog audiences q none limit).1 =
    (listing C catalog audiences (some q)).take limit := rfl

theorem found_after {q : Query} {xs ys : List (Text × Text)} {page : Text × Text}
    (h : listing C catalog audiences (some q) = xs ++ page :: ys) (limit : ℕ) :
    (found C catalog audiences q (some page) limit).1 = ys.take limit := by
  have hstrict := strict_before C q
  have hnd := nodup_ranked C catalog audiences q
  have hpair := Keyset.pairwise_ordered hstrict hnd
  have hlisting : Keyset.ordered (before C q) (ranked C catalog audiences q) = xs ++ page :: ys := h
  show (Keyset.ordered (before C q) ((ranked C catalog audiences q).filter (before C q page))).take
    limit = _
  rw [Keyset.ordered_filter hstrict hnd, hlisting]
  rw [hlisting] at hpair
  rw [Keyset.filter_after hstrict hpair]

theorem recorded_of_mem {q : Query} {page : Text × Text}
    (h : page ∈ listing C catalog audiences (some q)) : recorded catalog audiences page.2 = true := by
  have hmatches := ((mem_ranked C catalog audiences).mp (Keyset.mem_ordered.mp h)).1
  obtain ⟨r, hr⟩ := List.exists_mem_of_ne_nil _ hmatches.1
  obtain ⟨hrow, hvpath⟩ := mem_groupOf.mp hr
  refine List.any_eq_true.mpr ⟨r, hrow, ?_⟩
  rw [Bool.and_eq_true, beq_iff_eq]
  exact ⟨hvpath, catalog.filed r (List.mem_filter.mp hrow).1⟩

/-- the response when `rest` is what is left of the listing -/
def responseFor (listingKey : Text) (total : ℕ) (rest : List (Text × Text)) : Response where
  total := total
  count := (rest.take size).length
  pages := (rest.take size).map fun page => page.2
  next := if rest.length ≤ size then none
    else rest[size - 1]?.map fun last => Cursor.encodeCursor listingKey last.1 last.2

theorem answer_eq {q : Query} {after : Option (Text × Text)} {rest : List (Text × Text)}
    (listingKey : Text) (hsize : 0 < size)
    (hfound : (found C catalog audiences q after (size + 1)).1 = rest.take (size + 1))
    (hrest : ∀ page ∈ rest, page ∈ listing C catalog audiences (some q)) :
    answer C catalog audiences size q listingKey after =
      responseFor size listingKey (ranked C catalog audiences q).length rest := by
  have hshown : (rest.take (size + 1)).take size = rest.take size := by
    rw [List.take_take, Nat.min_eq_left (Nat.le_succ size)]
  have hpages : ((rest.take size).map fun page => page.2).filter (recorded catalog audiences) =
      (rest.take size).map fun page => page.2 := by
    refine List.filter_eq_self.mpr fun v hv => ?_
    obtain ⟨page, hpage, rfl⟩ := List.mem_map.mp hv
    exact recorded_of_mem C catalog audiences (hrest page (List.mem_of_mem_take hpage))
  unfold answer responseFor
  dsimp only
  have hlength : (rest.take (size + 1)).length = min (size + 1) rest.length := List.length_take
  rw [hfound, hshown, hpages, List.length_map]
  congr 1
  by_cases hlast : rest.length ≤ size
  · rw [if_neg (by omega), if_pos hlast]
  · rw [if_pos (by omega), if_neg hlast]
    congr 1
    rw [List.getLast?_eq_getElem?, List.length_take, Nat.min_eq_left (by omega),
      List.getElem?_take_of_lt (by omega)]

theorem escaped_hex {t : Text} (h : ∀ c ∈ t, isHex c = true) : Json.escaped t = t := by
  induction t with
  | nil => rfl
  | cons c t ih =>
    have hc := h c List.mem_cons_self
    have hplain : ∀ n < 128, isHex (Char.ofNat n) = true → Json.escape (Char.ofNat n) = [Char.ofNat n] := by
      decide
    have hlt : c.toNat < 128 := by
      unfold isHex at hc
      rw [Bool.or_eq_true, Bool.and_eq_true, Bool.and_eq_true, decide_eq_true_iff, decide_eq_true_iff,
        decide_eq_true_iff, decide_eq_true_iff] at hc
      rcases hc with ⟨-, hc⟩ | ⟨-, hc⟩
      · exact Nat.lt_of_le_of_lt hc (by decide)
      · exact Nat.lt_of_le_of_lt hc (by decide)
    have hescape := hplain c.toNat hlt
    rw [Char.ofNat_toNat] at hescape
    unfold Json.escaped at ih ⊢
    rw [List.flatMap_cons, hescape hc, ih fun d hd => h d (List.mem_cons_of_mem c hd)]
    rfl

theorem fits_iff (f : Filters) (page : Text × Text) : fits page = true ↔
    (Cursor.encodeCursor (service.listingKey f) page.1 page.2).length ≤ Cursor.MAX_CURSOR_CHARS := by
  obtain ⟨hlength, hhex⟩ := service.listingKey_hex f
  rw [Cursor.encodeCursor_fits, escaped_hex hhex, hlength]
  unfold fits
  rw [decide_eq_true_iff]
  omega

theorem keyset_encode (f : Filters) (page : Text × Text) :
    keyset service (service.listingKey f)
      (some (Cursor.encodeCursor (service.listingKey f) page.1 page.2)) =
      if fits page then .ok (some page) else .error Cursor.invalidCursor := by
  have hne : nonEmpty (some (Cursor.encodeCursor (service.listingKey f) page.1 page.2)) =
      some (Cursor.encodeCursor (service.listingKey f) page.1 page.2) := by
    unfold nonEmpty
    rw [Option.filter_some, if_pos]
    cases hcursor : Cursor.encodeCursor (service.listingKey f) page.1 page.2 with
    | nil =>
      have hlength := congrArg List.length hcursor
      unfold Cursor.encodeCursor at hlength
      rw [Base64.length_encode, List.length_map, Cursor.length_cursorJson, List.length_nil] at hlength
      omega
    | cons c t => rfl
  unfold keyset
  rw [hne]
  dsimp only
  rw [Cursor.decodeCursor_encodeCursor]
  by_cases hfits : fits page = true
  · rw [if_pos ((fits_iff service f page).mp hfits), if_pos hfits]
    rfl
  · rw [if_neg (fun hle => hfits ((fits_iff service f page).mpr hle)), if_neg hfits]
    rfl

theorem checkLengths_cursor {f : Filters} (h : checkLengths f none = .ok ()) (c : Text) :
    checkLengths f (some c) = checkArgLength "cursor".toList (some c) := by
  unfold checkLengths at h ⊢
  obtain ⟨_, htype, h⟩ := Checks.bind_eq_ok.mp h
  obtain ⟨_, hentity, h⟩ := Checks.bind_eq_ok.mp h
  obtain ⟨_, hlayer, h⟩ := Checks.bind_eq_ok.mp h
  obtain ⟨_, hsince, h⟩ := Checks.bind_eq_ok.mp h
  obtain ⟨_, huntil, h⟩ := Checks.bind_eq_ok.mp h
  obtain ⟨_, hlinks, h⟩ := Checks.bind_eq_ok.mp h
  obtain ⟨_, hsort, -⟩ := Checks.bind_eq_ok.mp h
  rw [htype, hentity, hlayer, hsince, huntil, hlinks, hsort]
  rfl

section
variable {f : Filters} {q : Query} (hlengths : checkLengths f none = .ok ())
  (hfilters : checkFilters R service f = .ok q)
include hlengths hfilters

theorem listPages_eq {cursor : Option Text} {after : Option (Text × Text)} (hsize : 0 < size)
    {q' : Query} (hq : resolved R service q = some q') {rest : List (Text × Text)}
    (hcursor : checkLengths f cursor = .ok ())
    (hafter : keyset service (service.listingKey f) cursor = .ok after)
    (hfound : (found C catalog audiences q' after (size + 1)).1 = rest.take (size + 1))
    (hrest : ∀ page ∈ rest, page ∈ listing C catalog audiences (some q')) :
    listPages R C catalog audiences service size f cursor =
      .ok (responseFor size (service.listingKey f) (ranked C catalog audiences q').length rest) := by
  have hanswer := answer_eq C catalog audiences size (service.listingKey f) hsize hfound hrest
  unfold listPages
  rw [hcursor, hfilters, hafter]
  dsimp only [Except.bind]
  rw [hq]
  exact congrArg Except.ok hanswer

/-- a cursor of a page of the listing, short enough -/
theorem listPages_next (hsize : 0 < size) {q' : Query} (hq : resolved R service q = some q')
    {xs ys : List (Text × Text)} {page : Text × Text}
    (h : listing C catalog audiences (some q') = xs ++ page :: ys) (hfits : fits page = true) :
    listPages R C catalog audiences service size f
        (some (Cursor.encodeCursor (service.listingKey f) page.1 page.2)) =
      .ok (responseFor size (service.listingKey f) (ranked C catalog audiences q').length ys) := by
  refine listPages_eq R C catalog audiences service size hlengths hfilters hsize hq ?_ ?_
    (found_after C catalog audiences h _) fun page' hpage' => ?_
  · rw [checkLengths_cursor hlengths]
    have hle := (fits_iff service f page).mp hfits
    unfold checkArgLength MAX_ARG_CHARS
    unfold Cursor.MAX_CURSOR_CHARS at hle
    dsimp only
    rw [if_neg (by omega)]
  · rw [keyset_encode, if_pos hfits]
  · rw [h]
    exact List.mem_append_right xs (List.mem_cons_of_mem page hpage')

/-- one that is too long is refused -/
theorem listPages_refused {page : Text × Text} (hfits : ¬fits page = true) :
    ∃ e, listPages R C catalog audiences service size f
      (some (Cursor.encodeCursor (service.listingKey f) page.1 page.2)) = .error e := by
  unfold listPages
  rw [checkLengths_cursor hlengths, hfilters, keyset_encode, if_neg hfits]
  cases checkArgLength "cursor".toList
      (some (Cursor.encodeCursor (service.listingKey f) page.1 page.2)) with
  | error e => exact ⟨e, rfl⟩
  | ok _ => exact ⟨Cursor.invalidCursor, rfl⟩

/-- the calls that follow one another are the batches of what is left -/
theorem followed_eq (hsize : 0 < size) {q' : Query} (hq : resolved R service q = some q') (n : ℕ)
    {cursor : Option Text} {xs rest : List (Text × Text)}
    (h : listing C catalog audiences (some q') = xs ++ rest)
    (hcall : listPages R C catalog audiences service size f cursor =
      .ok (responseFor size (service.listingKey f) (ranked C catalog audiences q').length rest)) :
    followed R C catalog audiences service size f n cursor =
      (Keyset.walk size fits n rest).map fun pages => pages.map fun page => page.2 := by
  induction n generalizing cursor xs rest with
  | zero => rfl
  | succ n ih =>
    rw [followed, hcall, Keyset.walk]
    dsimp only [responseFor]
    by_cases hlast : rest.length ≤ size
    · rw [if_pos hlast, if_pos hlast, List.take_of_length_le hlast]
      rfl
    · rw [if_neg hlast, if_neg hlast]
      have hlt : size - 1 < rest.length := by omega
      rw [List.getElem?_eq_getElem hlt]
      dsimp only [Option.map_some]
      -- the page that ends the batch splits what is left
      have hsplit : rest = rest.take (size - 1) ++ rest[size - 1] :: rest.drop size := by
        have hdrop := List.drop_eq_getElem_cons hlt
        rw [Nat.sub_add_cancel hsize] at hdrop
        rw [← hdrop, List.take_append_drop]
      have hlisting : listing C catalog audiences (some q') =
          (xs ++ rest.take (size - 1)) ++ rest[size - 1] :: rest.drop size := by
        rw [List.append_assoc, ← hsplit, h]
      by_cases hfits : fits rest[size - 1] = true
      · rw [if_pos hfits]
        have hnext := listPages_next R C catalog audiences service size hlengths hfilters hsize hq
          hlisting hfits
        have hsuffix : listing C catalog audiences (some q') = (xs ++ rest.take size) ++ rest.drop size := by
          rw [List.append_assoc, List.take_append_drop, h]
        rw [ih hsuffix hnext, Option.map_map, Option.map_map]
        congr 1
        funext pages
        exact (List.map_append).symm
      · rw [if_neg hfits]
        obtain ⟨e, he⟩ := listPages_refused R C catalog audiences service size hlengths hfilters hfits
        cases n with
        | zero => rfl
        | succ n =>
          rw [followed, he]
          rfl

/-- the first call leaves the whole listing -/
theorem listPages_first (hsize : 0 < size) {q' : Query} (hq : resolved R service q = some q') :
    listPages R C catalog audiences service size f none =
      .ok (responseFor size (service.listingKey f) (ranked C catalog audiences q').length
        (listing C catalog audiences (some q'))) :=
  listPages_eq R C catalog audiences service size hlengths hfilters hsize hq hlengths rfl
    (found_none C catalog audiences q' _) fun _ hpage => hpage

theorem allFit_of_followed (hsize : 0 < size) {q' : Query} (hq : resolved R service q = some q') {n : ℕ}
    {visited : List Text}
    (h : followed R C catalog audiences service size f n none = some visited) :
    Keyset.AllFit size fits (listing C catalog audiences (some q')) := by
  have hcall := listPages_first R C catalog audiences service size hlengths hfilters hsize hq
  rw [followed_eq R C catalog audiences service size hlengths hfilters hsize hq n
    (List.nil_append _).symm hcall] at h
  obtain ⟨pages, hwalk, -⟩ := Option.map_eq_some_iff.mp h
  exact (Keyset.walk_eq_some hsize hwalk).2

/-- **Listing pages.**  Every matching page is visited once, in the declared order, exactly when no
page that ends a batch is too long for a cursor. -/
theorem exact_iff (hsize : 0 < size) :
    Exact R C catalog audiences service size f (resolved R service q) ↔
      Keyset.AllFit size fits (listing C catalog audiences (resolved R service q)) := by
  cases hq : resolved R service q with
  | none =>
    have hcall : listPages R C catalog audiences service size f none =
        .ok { total := 0, count := 0, pages := [], next := none } := by
      unfold listPages
      rw [hlengths, hfilters]
      dsimp only [Except.bind, keyset, nonEmpty, Option.filter_none]
      rw [hq]
    refine ⟨fun _ i page hi => absurd hi (Nat.not_lt_zero _), fun _ => ?_⟩
    refine ⟨1, [], ?_, List.nodup_nil, rfl⟩
    rw [followed, hcall]
  | some q' =>
    have hcall := listPages_first R C catalog audiences service size hlengths hfilters hsize hq
    constructor
    · rintro ⟨n, visited, hvisited, -⟩
      exact allFit_of_followed R C catalog audiences service size hlengths hfilters hsize hq hvisited
    · intro hall
      obtain ⟨n, hn⟩ := (Keyset.exists_walk_iff hsize).mpr hall
      have hkey : ∀ page ∈ listing C catalog audiences (some q'),
          Matches C catalog audiences q' page.2 ∧
            page.1 = sortKey C q' (visibleGroup catalog audiences page.2) := fun page hpage =>
        (mem_ranked C catalog audiences).mp (Keyset.mem_ordered.mp hpage)
      have hpair := Keyset.pairwise_ordered (strict_before C q') (nodup_ranked C catalog audiences q')
      refine ⟨n, (listing C catalog audiences (some q')).map fun page => page.2, ?_, ?_,
        fun v => ?_, ?_⟩
      · rw [followed_eq R C catalog audiences service size hlengths hfilters hsize hq n
          (List.nil_append _).symm hcall, hn]
        rfl
      · refine List.Nodup.map_on (fun page hpage page' hpage' heq => ?_)
          ((Keyset.perm_ordered _).nodup_iff.mpr (nodup_ranked C catalog audiences q'))
        rw [Prod.ext_iff, (hkey page hpage).2, (hkey page' hpage').2, heq]
        exact ⟨rfl, rfl⟩
      · rw [List.mem_map]
        constructor
        · rintro ⟨page, hpage, rfl⟩
          exact (hkey page hpage).1
        · intro hmatches
          exact ⟨(_, v), Keyset.mem_ordered.mpr ((mem_ranked C catalog audiences).mpr ⟨hmatches, rfl⟩),
            rfl⟩
      · rw [List.pairwise_map]
        refine hpair.imp_of_mem fun {page page'} hpage hpage' hbefore => ?_
        show before C q' (_, page.2) (_, page'.2) = true
        rw [← (hkey page hpage).2, ← (hkey page' hpage').2]
        exact hbefore

end

end

/-! ## Two catalogs -/

/-- text by code points -/
def codePoints : Text → Text → Bool
  | _, [] => false
  | [], _ :: _ => true
  | c :: s, d :: t => decide (c.toNat < d.toNat) || (c == d && codePoints s t)

theorem strict_codePoints : Keyset.StrictTotal codePoints := by
  refine ⟨fun s => ?_, fun s => ?_, fun s => ?_⟩
  · induction s with
    | nil => rfl
    | cons c s ih => rw [codePoints, ih, Bool.and_false, Bool.or_false, decide_eq_false (Nat.lt_irrefl _)]
  · induction s with
    | nil =>
      intro t u hst htu
      cases u with
      | nil => cases t <;> exact nomatch htu
      | cons => rfl
    | cons c s ih =>
      intro t u hst htu
      cases t with
      | nil => exact nomatch hst
      | cons d t =>
        cases u with
        | nil => exact nomatch htu
        | cons e u =>
          rw [codePoints, Bool.or_eq_true, Bool.and_eq_true, decide_eq_true_iff, beq_iff_eq]
            at hst htu ⊢
          rcases hst with hst | ⟨rfl, hst⟩
          · rcases htu with htu | ⟨rfl, -⟩
            · exact Or.inl (Nat.lt_trans hst htu)
            · exact Or.inl hst
          · rcases htu with htu | ⟨rfl, htu⟩
            · exact Or.inl htu
            · exact Or.inr ⟨rfl, ih t u hst htu⟩
  · induction s with
    | nil =>
      intro t
      cases t with
      | nil => exact Or.inr (Or.inl rfl)
      | cons => exact Or.inl rfl
    | cons c s ih =>
      intro t
      cases t with
      | nil => exact Or.inr (Or.inr rfl)
      | cons d t =>
        rw [codePoints, codePoints, Bool.or_eq_true, Bool.and_eq_true, decide_eq_true_iff, beq_iff_eq,
          Bool.or_eq_true, Bool.and_eq_true, decide_eq_true_iff, beq_iff_eq]
        rcases Nat.lt_trichotomy c.toNat d.toNat with hlt | heq | hgt
        · exact Or.inl (Or.inl hlt)
        · obtain rfl := Char.toNat_inj.mp heq
          rcases ih t with h | rfl | h
          · exact Or.inl (Or.inr ⟨rfl, h⟩)
          · exact Or.inr (Or.inl rfl)
          · exact Or.inr (Or.inr (Or.inr ⟨rfl, h⟩))
        · exact Or.inr (Or.inr (Or.inl hgt))

def byCodePoint : Collation where
  lt := codePoints
  strict := strict_codePoints
  lower := fun t => t.map Ascii.lowerChar

def plainService : Service where
  readable := [Layers.PUBLIC]
  listingKey := fun _ => List.replicate 16 '0'
  listingKey_hex := fun _ => ⟨rfl, by decide⟩
  resolveEntity := fun _ => none
  decodeText := fun _ => none

def byTitle : Filters where
  type := none
  entityType := none
  layer := none
  since := none
  untilDay := none
  linksTo := none
  sort := "title".toList

def byTitleQuery : Query where
  pageType := none
  entityType := none
  layer := none
  linksTo := none
  since := none
  untilDay := none
  sort := .title

def noteRow (number : ℕ) (title : Text) : PageRow where
  path := "wiki/notes/".toList ++ (Nat.toDigits 10 (10 + number) ++ ".md".toList)
  vpath := "wiki/notes/".toList ++ (Nat.toDigits 10 (10 + number) ++ ".md".toList)
  zone := "wiki".toList
  pageId := Nat.toDigits 10 number
  title := title
  body := "Text.".toList
  type := .note
  status := "seed".toList
  entityType := []
  aliases := []
  updated := []
  acl := none
  inlinks := 0
  contentHash := []
  links := []
  sources := []
  sourceDate := []
  sourceDates := []

/-- notes under one title -/
def notes (count : ℕ) (title : Text) : Catalog where
  rows := (List.range count).map fun number => noteRow number title
  filed := by
    intro r hr
    obtain ⟨number, -, rfl⟩ := List.mem_map.mp hr
    rfl

theorem exact_notes : Exact ascii byCodePoint (notes 3 "Note".toList) none plainService 2 byTitle
    (some byTitleQuery) := by
  refine (exact_iff ascii byCodePoint (notes 3 "Note".toList) none plainService 2
    (f := byTitle) (q := byTitleQuery) rfl rfl (by decide)).mpr fun i page _ hpage => ?_
  have hall : ∀ page ∈ listing byCodePoint (notes 3 "Note".toList) none (some byTitleQuery),
      fits page = true := by decide +kernel
  exact hall page (List.mem_of_getElem? hpage)

theorem titleOf_cons (C : Collation) {t : Text} (l : List PageRow) :
    ∀ b : PageRow, b.title = t → (∀ r ∈ l, r.title = t) → titleOf C (b :: l) = t := by
  induction l with
  | nil => exact fun b hb _ => hb
  | cons c l ih =>
    intro b hb hl
    have htail : ∀ r ∈ l, r.title = t := fun r hr => hl r (List.mem_cons_of_mem c hr)
    by_cases hless : ((b.acl.isSome && c.acl.isNone) ||
        (b.acl.isSome == c.acl.isSome && C.lt c.path b.path)) = true
    · have heq : leader C (b :: c :: l) = leader C (c :: l) := by
        show List.foldl _ (if _ then some c else some b) l = _
        rw [if_pos hless]
        rfl
      have hc := ih c (hl c List.mem_cons_self) htail
      unfold titleOf at hc ⊢
      rw [heq]
      exact hc
    · have heq : leader C (b :: c :: l) = leader C (b :: l) := by
        show List.foldl _ (if _ then some c else some b) l = _
        rw [if_neg hless]
        rfl
      have hb := ih b hb htail
      unfold titleOf at hb ⊢
      rw [heq]
      exact hb

section
variable {count : ℕ} {title : Text}

theorem mem_visibleGroup_notes {number : ℕ} (h : number < count) :
    noteRow number title ∈ visibleGroup (notes count title) none (noteRow number title).vpath :=
  mem_groupOf.mpr ⟨List.mem_filter.mpr
    ⟨List.mem_map.mpr ⟨number, List.mem_range.mpr h, rfl⟩, rfl⟩, rfl⟩

theorem mem_listing_notes {number : ℕ} (h : number < count) :
    (noteRow number title).vpath ∈
      (listing byCodePoint (notes count title) none (some byTitleQuery)).map fun page => page.2 :=
  List.mem_map.mpr ⟨(_, _), Keyset.mem_ordered.mpr ((mem_ranked byCodePoint (notes count title) none).mpr
    ⟨⟨List.ne_nil_of_mem (mem_visibleGroup_notes h), rfl⟩, rfl⟩), rfl⟩

theorem key_notes {page : Text × Text}
    (h : page ∈ listing byCodePoint (notes count title) none (some byTitleQuery)) :
    page.1 = byCodePoint.lower title := by
  obtain ⟨⟨hne, -⟩, hkey⟩ := (mem_ranked byCodePoint (notes count title) none).mp (Keyset.mem_ordered.mp h)
  have htitle : ∀ r ∈ visibleGroup (notes count title) none page.2, r.title = title := by
    intro r hr
    obtain ⟨number, -, rfl⟩ := List.mem_map.mp (List.mem_filter.mp (mem_groupOf.mp hr).1).1
    rfl
  rw [hkey]
  show byCodePoint.lower (titleOf byCodePoint (visibleGroup (notes count title) none page.2)) = _
  cases hgroup : visibleGroup (notes count title) none page.2 with
  | nil => exact absurd hgroup hne
  | cons b l =>
    rw [hgroup] at htitle
    rw [titleOf_cons byCodePoint l b (htitle b List.mem_cons_self)
      fun r hr => htitle r (List.mem_cons_of_mem b hr)]

end

/-- titles of two hundred and fifty letters of six characters each in JSON -/
theorem not_exact : ¬Exact ascii byCodePoint (notes 51 (List.replicate 250 'я')) none plainService
    50 byTitle (some byTitleQuery) := by
  rintro ⟨n, visited, hvisited, -⟩
  have hall := allFit_of_followed ascii byCodePoint (notes 51 (List.replicate 250 'я')) none
    plainService 50 (f := byTitle) (q := byTitleQuery) rfl rfl (by decide) rfl hvisited
  have hdigits : ((List.range 51).map fun number => Nat.toDigits 10 (10 + number)).Nodup := by
    decide +kernel
  have hnd : ((List.range 51).map fun number => (noteRow number (List.replicate 250 'я')).vpath).Nodup := by
    have hpaths := hdigits.map fun d e (heq : "wiki/notes/".toList ++ (d ++ ".md".toList) =
      "wiki/notes/".toList ++ (e ++ ".md".toList)) => List.append_cancel_right (List.append_cancel_left heq)
    rw [List.map_map] at hpaths
    exact hpaths
  have hlength := (List.subperm_of_subset hnd fun v hv => by
    obtain ⟨number, hnumber, rfl⟩ := List.mem_map.mp hv
    exact mem_listing_notes (List.mem_range.mp hnumber)).length_le
  rw [List.length_map, List.length_map, List.length_range] at hlength
  have hpage := List.getElem?_eq_getElem (Nat.lt_of_lt_of_le (by decide : 49 < 51) hlength)
  have hfits := hall 0 _ hlength hpage
  have hescaped : (Json.escaped (byCodePoint.lower (List.replicate 250 'я'))).length = 1500 := by
    decide +kernel
  unfold fits at hfits
  rw [key_notes (List.mem_of_getElem? hpage), decide_eq_true_iff, hescaped] at hfits
  omega

end Listing
