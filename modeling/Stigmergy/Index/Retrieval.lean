import Mathlib.Algebra.Order.BigOperators.GroupWithZero.List
import Mathlib.Algebra.Order.Field.Rat
import Mathlib.Data.Prod.Lex
import Mathlib.Tactic.Linarith
import Mathlib.Tactic.NormNum
import Stigmergy.Lib.Ranking
import Stigmergy.Lib.StableSort
import Stigmergy.Index.Fragments
import Stigmergy.Kernel.Ascii
import Stigmergy.Kernel.Body
import Stigmergy.Server.Listing

/-!
# Searching the index

`search_arms` of `index/search.py` with `index/rank.py`: the pages found by their words, by their vectors, by the
entities they link and by the links of the best of these, fused and ranked, all for one reader.

* `searchArms`           one search; `fragmentWindow`, what `read_page` shows of a fragment;
* `Index`                the rows and the fragments: a fragment has the audience of its page;
* `searchArms_visible`   a search returns the same over any two indexes that agree on what the reader may see;
* `best_nearest`         with exact scans, the vector arm has the nearest fragment of each page, and the nearest
                         pages up to its two limits;
* `graph_behind`         a page only the graph found stands behind every page a retrieval arm found, unless the
                         factors of the one weigh over `2.44` times as much;
* `fragment_opens`       a fragment named in a hit opens for the same reader, with the text of the snippet.

The collation, the lexical rank of a row, the distance, the scan of one audience, the embedder, the damping of a
degree, snippets and summaries are parameters.  Scores are rationals.
-/

set_option linter.unusedSectionVars false

namespace Retrieval

open Corpus Ranking
open Listing (Collation Catalog isVisible visibleRows groupOf extreme)

/-! ## The index -/

/-- a row of `page_fragments` -/
structure Stored (V : Type*) where
  path : Text
  vpath : Text
  ordinal : ℕ
  acl : Option (List Text)
  trail : Text
  text : Text
  embedding : V

/-- both tables: paths are keys, and a fragment stands under the row of its page -/
structure Index (V : Type*) extends Catalog where
  fragments : List (Stored V)
  keyed : (rows.map fun r => r.path).Nodup
  numbered : (fragments.map fun f => (f.path, f.ordinal)).Nodup
  held : ∀ f ∈ fragments, ∃ r ∈ rows, r.path = f.path ∧ r.vpath = f.vpath ∧ r.acl = f.acl

/-- `index_meta` -/
structure Meta where
  model : Text
  ftsConfig : Text
  host : Text

/-- the filters of a search, by column -/
structure Filters where
  zone : Option Text
  type : Option Text
  status : Option Text
  entity : Option Text

structure Engine (V : Type*) where
  C : Collation
  /-- `ts_rank_cd` of a row that matches the query, under a configuration -/
  lexical : Text → Text → PageRow → Option ℚ
  distance : V → V → ℚ
  /-- `ORDER BY distance LIMIT n` over the fragments of one audience, each with whether the filter lets it
  through -/
  scan : List (Stored V × Bool) → V → ℕ → List (Stored V)
  mem_of_mem_scan : ∀ part v n, ∀ f ∈ scan part v n, (f, true) ∈ part
  /-- `ln(2) / ln(2 + degree)` -/
  damp : ℕ → ℚ
  /-- nothing for a `TimeoutException` -/
  embed : Text → Option V
  /-- `embedder.host` -/
  host : Text
  /-- `date.toordinal` of an ISO date -/
  ordinal : Text → ℤ
  snippet : Text → Text → ℕ → Text
  summaryOf : Text → Text

/-- a fused record: its path, its layers, the other fields -/
structure Page where
  path : Text
  layers : List Text
  row : PageRow

inductive Arm where
  | fts | vec | entity | graph
deriving DecidableEq

structure Hit where
  page : Page
  score : ℚ
  arms : List Arm
  factors : List Text
  snippet : Text
  summary : Text
  /-- how the best fragment is named, and of how many -/
  fragment : Option (Text × ℕ)

structure Arms where
  fts : List Text
  vec : List Text
  entity : List Text
  graph : List Text
  hits : List Hit
  timedOut : Bool
  ranked : ℕ
  pageIds : List (Text × Text)

/-- a numbered fragment, as a reader sees it -/
structure Shown where
  number : ℕ
  total : ℕ
  layer : Text
  trail : Text
  text : Text

def TOP_K : ℕ := 5
def RRF_K : ℕ := 60
def CANDIDATE_POOL : ℕ := 40
def STALE_AFTER_DAYS : ℤ := 365
def VEC_FRAGMENTS : ℕ := 160
def SNIPPET_CHARS : ℕ := 240
def SNIPPET_FRAGMENT_CHARS : ℕ := 400
def GRAPH_SEEDS : ℕ := 8
def INTERSECTION_POOL : ℕ := 20
def NEIGHBOR_POOL : ℕ := 40
def NEIGHBOR_FANOUT : ℕ := 200
def NEIGHBOR_CANDIDATES : ℕ := 160
def DEGREE_CAP : ℕ := 256

/-! ## Fusing the layers of a page -/

section
variable (R : Runtime)

def layerOf (r : PageRow) : Text := (Layers.layerOfAcl r.acl).getD []

/-- `(layer != PUBLIC, layer)` -/
def layerKey (r : PageRow) : Bool ×ₗ Text := toLex (layerOf r != Layers.PUBLIC, layerOf r)

/-- the first alias of each key -/
def aliasesOf (rows : List PageRow) : List Text :=
  (rows.flatMap fun r => r.aliases).foldl (fun kept a =>
    if kept.any fun b => R.casefold (Body.unitKey R b) == R.casefold (Body.unitKey R a) then kept else kept ++ [a]) []

def fuseRows (rows : List PageRow) : Option Page :=
  let ordered := rows.insertionSort fun a b => layerKey a ≤ layerKey b
  let layers := ordered.map layerOf
  match ordered with
  | [] => none
  | [first] => some ⟨first.vpath, layers, { first with body := Body.readingText R (layerOf first) first.body }⟩
  | first :: _ => some ⟨first.vpath, layers, { first with
      aliases := aliasesOf R ordered
      links := sortedSet (ordered.flatMap fun r => r.links)
      sources := firsts (ordered.flatMap fun r => r.sources)
      sourceDates := sortedSet (ordered.flatMap fun r => r.sourceDates)
      updated := ((ordered.map fun r => r.updated).max?).getD []
      entityType := ((ordered.map fun r => r.entityType).find? fun t => !t.isEmpty).getD []
      body := Body.fuseForReading R (ordered.map fun r => (layerOf r, r.body)) }⟩

end

/-! ## The queries -/

section
variable {V : Type*} (R : Runtime) (E : Engine V) (index : Index V) (audiences : Option (List Text))
variable (filters : Filters)

/-- `_filter_clause` -/
def filterClause (r : PageRow) : Bool :=
  (filters.entity.all fun e => r.links.contains e || r.vpath == e) && (filters.status.all fun s => r.status == s) &&
    (filters.type.all fun t => r.type.name == t) && filters.zone.all fun z => r.zone == z

def noFilters : Bool :=
  filters.zone.isNone && filters.type.isNone && filters.status.isNone && filters.entity.isNone

/-- the rows with `acl IS NULL OR acl && audiences` -/
def vis : List PageRow := visibleRows index.toCatalog audiences

/-- `ORDER BY score DESC, path` -/
def higher {α : Type*} (score : α → ℚ) (path : α → Text) (a b : α) : Bool :=
  score b < score a || (score a == score b && E.C.lt (path a) (path b))

/-- `fts_ranking` -/
def ftsRanking (config query : Text) (pool : ℕ) : List Text :=
  let found := ((vis index audiences).filter (filterClause filters)).filterMap fun r =>
    (E.lexical config query r).map fun score => (score, r)
  let ranked := Keyset.ordered (higher E (fun p : ℚ × PageRow => p.1) fun p => p.2.path) found
  firsts ((ranked.take pool).map fun p => p.2.vpath)

/-- `max(updated)` -/
def latest (group : List PageRow) : Text :=
  (extreme (fun d b => E.C.lt b d) (group.map fun r => r.updated)).getD []

/-- `ORDER BY latest DESC, vpath` -/
def newer (a b : Text × Text) : Bool := E.C.lt b.1 a.1 || (a.1 == b.1 && E.C.lt a.2 b.2)

/-- the pages of some rows, newest first -/
def newestFirst (rows : List PageRow) (keep : List PageRow → Bool) (limit : ℕ) : List Text :=
  let pages := (rows.map fun r => r.vpath).dedup.filter fun v => keep (groupOf rows v)
  ((Keyset.ordered (newer E) (pages.map fun v => (latest E (groupOf rows v), v))).take limit).map Prod.snd

/-- `intersection_ranking` -/
def intersectionRanking (entities : List Text) : List Text :=
  if entities.length < 2 then []
  else
    let rows := (vis index audiences).filter fun r =>
      (r.links.any entities.contains) && filterClause filters r
    firsts (newestFirst E rows (fun group => entities.all (group.flatMap fun r => r.links).contains)
      INTERSECTION_POOL)

/-! ## Neighbours -/

/-- the distinct links of a page, over the rows the reader may see -/
def linksOf (v : Text) : List Text := ((groupOf (vis index audiences) v).flatMap fun r => r.links).dedup

def inbound (s : Text) : List Text :=
  newestFirst E ((vis index audiences).filter fun r => r.links.contains s && r.vpath != s) (fun _ => true)
    NEIGHBOR_FANOUT

def outbound (s : Text) : List Text :=
  newestFirst E ((vis index audiences).filter fun r => (linksOf index audiences s).contains r.vpath && r.vpath != s)
    (fun _ => true) NEIGHBOR_FANOUT

structure Edge where
  seed : Text
  score : ℚ
  nbr : Text

def edges (seeds : List (Text × ℚ)) : List Edge :=
  let joined := seeds.filter fun s => (vis index audiences).any fun r => r.vpath == s.1
  (joined.flatMap fun s => (inbound E index audiences s.1).map fun n => ⟨s.1, s.2, n⟩) ++
    joined.flatMap fun s => (outbound E index audiences s.1).map fun n => ⟨s.1, s.2, n⟩

def seedDegree (es : List Edge) (s : Text) : ℕ := es.countP fun e => e.seed == s

def vote (es : List Edge) (n : Text) : ℚ :=
  ((es.filter fun e => e.nbr == n).map fun e => e.score * E.damp (seedDegree es e.seed)).sum

/-- the degree of a page among what the reader may see, each direction capped -/
def degree (n : Text) : ℕ :=
  let linking := (((vis index audiences).filter fun r => r.links.contains n && r.vpath != n).map
    fun r => r.vpath).dedup
  let linked := (linksOf index audiences n).filter fun t => (vis index audiences).any fun r => r.vpath == t
  min linking.length DEGREE_CAP + min linked.length DEGREE_CAP

structure Candidate where
  vpath : Text
  vote : ℚ
  updated : Text

/-- `cand` -/
def nominated (es : List Edge) : List Candidate :=
  let pages := (es.map Edge.nbr).dedup.filter fun n =>
    (vis index audiences).any fun r => r.vpath == n && filterClause filters r
  let found := pages.map fun n => ⟨n, vote E es n, latest E (groupOf (vis index audiences) n)⟩
  (Keyset.ordered (higher E Candidate.vote Candidate.vpath) found).take NEIGHBOR_CANDIDATES

/-- a candidate's vote, damped by its own degree -/
def damped (c : Candidate) : ℚ := c.vote * E.damp (degree index audiences c.vpath)

def strongest (a b : Candidate) : Bool :=
  damped E index audiences b < damped E index audiences a ||
    (damped E index audiences a == damped E index audiences b && newer E (a.updated, a.vpath) (b.updated, b.vpath))

/-- `neighbor_ranking` -/
def neighborRanking (seeds : List (Text × ℚ)) : List Text :=
  let cand := nominated E index audiences filters (edges E index audiences seeds)
  firsts (((Keyset.ordered (strongest E index audiences) cand).take NEIGHBOR_POOL).map Candidate.vpath)

/-! ## Vectors -/

/-- `page_audiences` -/
def pageAudiences : List Text := sortedSet (Layers.PUBLIC :: index.rows.filterMap fun r => Layers.layerOfAcl r.acl)

/-- the audiences that are scanned -/
def scanned : List Text :=
  match audiences with
  | none => pageAudiences index
  | some labels => Layers.PUBLIC :: sortedSet (labels.filter Layers.isLayerName)

/-- `audience_predicate` -/
def inAudience (layer : Text) (f : Stored V) : Bool := f.acl == Layers.aclOfLayer layer

/-- `path IN (SELECT path FROM pages_index WHERE …)`, which asks for no audience -/
def pageFilter (f : Stored V) : Bool :=
  noFilters filters || (index.rows.filter (filterClause filters)).any fun r => r.path == f.path

/-- `(distance, vpath, ordinal)` -/
def nearness (v : V) (f : Stored V) : ℚ ×ₗ Text ×ₗ ℕ := toLex (E.distance v f.embedding, toLex (f.vpath, f.ordinal))

/-- the fragments of an audience, each with whether the filter lets it through -/
def branch (layer : Text) : List (Stored V × Bool) :=
  (index.fragments.filter (inAudience layer)).map fun f => (f, pageFilter index filters f)

/-- `vec_fragments` -/
def vecFragments (v : V) (limit : ℕ) : List (Stored V) :=
  let found := (scanned index audiences).flatMap fun layer => E.scan (branch index filters layer) v limit
  (found.insertionSort fun a b => nearness E v a ≤ nearness E v b).take limit

/-- `best_fragments`; nothing is added any more at the first new page beyond the pool -/
def bestFragments (pool : ℕ) : List (Text × Text × ℕ) → List (Stored V) → List (Text × Text × ℕ)
  | best, [] => best
  | best, f :: found =>
    if f.vpath ∈ best.map Prod.fst then bestFragments pool best found
    else if best.length = pool then best
    else bestFragments pool (best ++ [(f.vpath, f.path, f.ordinal)]) found

/-! ## Fragments by number -/

def visibleFragments : List (Stored V) :=
  index.fragments.filter fun f => match audiences, f.acl with
    | none, _ | _, none => true
    | some labels, some acl => acl.any labels.contains

/-- `ORDER BY (acl IS NOT NULL), path, ordinal` -/
def firstShown (a b : Stored V) : Bool :=
  (a.acl.isNone && b.acl.isSome) || (a.acl.isSome == b.acl.isSome &&
    (E.C.lt a.path b.path || (a.path == b.path && a.ordinal < b.ordinal)))

/-- the fragments of a page in the order they are numbered in, from 1 -/
def numberedOf (vpath : Text) : List (Stored V × ℕ) :=
  (Keyset.ordered (firstShown E) ((visibleFragments index audiences).filter fun f => f.vpath == vpath)).zipIdx 1

def shown (total : ℕ) (p : Stored V × ℕ) : Shown where
  number := p.2
  total := total
  layer := (Layers.layerOfAcl p.1.acl).getD []
  trail := p.1.trail
  text := p.1.text

/-- `fragment_refs` -/
def fragmentRefs (best : List (Text × Text × ℕ)) : List (Text × Shown) :=
  best.filterMap fun b =>
    let rows := numberedOf E index audiences b.1
    (rows.find? fun p => (p.1.path, p.1.ordinal) == b.2).map fun p => (b.1, shown rows.length p)

/-- `fragment_window` -/
def fragmentWindow (vpath : Text) (number : ℕ) : Option (List Shown × ℕ) :=
  let rows := numberedOf E index audiences vpath
  let near := (rows.filter fun p => number - 1 ≤ p.2 && p.2 ≤ number + 1).map (shown rows.length)
  if near.any fun s => s.number == number then some (near, rows.length) else none

/-- `reference` -/
def reference (path : Text) (number : ℕ) : Text := path ++ '#' :: (toString number).toList

/-! ## Ranking -/

/-- the rows of a page, in the order of their paths -/
def groupAt (v : Text) : List PageRow :=
  Keyset.ordered (fun a b : PageRow => E.C.lt a.path b.path)
    ((vis index audiences).filter fun r => r.vpath == v && (Layers.layerOfAcl r.acl).isSome)

/-- `fused_pages` -/
def fusedPages (paths : List Text) : List (Text × Page) :=
  (firsts paths).filterMap fun v => (fuseRows R (groupAt E index audiences v)).map fun page => (v, page)

def armWeight : Arm → ℚ
  | .graph => 1 / 4
  | .fts | .vec | .entity => 1

/-- what a ranking gives each name: `weight / (k + position)` -/
def votesOf (weight : ℚ) (ranking : List Text) : List (Text × ℚ) :=
  (ranking.zipIdx 1).map fun p => (p.1, weight / (RRF_K + p.2))

/-- `rrf_fuse` -/
def rrfFuse (rankings : List (Arm × List Text)) : List (Text × ℚ) :=
  tally (rankings.flatMap fun a => votesOf (armWeight a.1) a.2)

variable (today : Option ℤ) (hints : List Text)

/-- `contract_factors` -/
def contractFactors (page : Page) : List (ℚ × Text) :=
  let named := hints.filter fun hint => page.row.vpath == hint || page.row.links.contains hint
  let updated := R.isoDate (page.row.updated.take 10)
  (if page.row.status = "evergreen".toList then [(4 / 5, "status-evergreen".toList)] else []) ++
  (named.zipIdx.map fun p => (if p.2 = 0 then 1 / 2 else 1, "entity:".toList ++ p.1)) ++
  (if 1 < hints.length && named.length == hints.length then [(1 / 2, "entities:all".toList)] else []) ++
  (updated.toList.filter fun u => today.any fun t => STALE_AFTER_DAYS < t - E.ordinal u).map fun u =>
    (13 / 10, "stale:".toList ++ u)

/-- `score /= factor` -/
def scoreOf (base : ℚ) (factors : List (ℚ × Text)) : ℚ := factors.foldl (fun score f => score / f.1) base

/-- a hit for each candidate the rankings name -/
def scored (candidates : List (Text × Page)) (rankings : List (Arm × List Text)) (query : Text) : List Hit :=
  (rrfFuse rankings).filterMap fun named => (candidates.lookup named.1).map fun page =>
    { page := page
      score := scoreOf named.2 (contractFactors R E today hints page)
      arms := (rankings.filter fun a => a.2.contains named.1).map Prod.fst
      factors := (contractFactors R E today hints page).map Prod.snd
      snippet := E.snippet page.row.body query SNIPPET_CHARS
      summary := []
      fragment := none }

/-- `(-score, path)` -/
def Hit.key (hit : Hit) : ℚ ×ₗ Text := toLex (-hit.score, hit.page.path)

/-- `rank` -/
def rank (candidates : List (Text × Page)) (rankings : List (Arm × List Text)) (query : Text) (k : ℕ) : List Hit :=
  let hits := (scored R E today hints candidates rankings query).insertionSort fun a b => a.key ≤ b.key
  (hits.take k).map fun hit => { hit with summary := E.summaryOf hit.page.row.body }

/-! ## One search -/

def withFragment (refs : List (Text × Shown)) (query : Text) (hit : Hit) : Hit :=
  match refs.lookup hit.page.path with
  | none => hit
  | some ref =>
    if 1 < ref.total then
      { hit with
        fragment := some (reference hit.page.path ref.number, ref.total)
        snippet := E.snippet ref.text query SNIPPET_FRAGMENT_CHARS }
    else hit

variable (query : Text) (k : ℕ) (expansion : List Text)

def ftsQuery : Text := if expansion.isEmpty then query else (" ".toList).intercalate (query :: expansion)

/-- the pages the vector arm found, each with its nearest fragment -/
def bestOf : List (Text × Text × ℕ) :=
  match E.embed query with
  | none => []
  | some v => bestFragments CANDIDATE_POOL [] (vecFragments E index audiences filters v VEC_FRAGMENTS)

/-- the three retrieval arms -/
def retrieved (config : Text) : List (Arm × List Text) :=
  [(.fts, ftsRanking E index audiences filters config (ftsQuery query expansion) CANDIDATE_POOL),
    (.vec, (bestOf E index audiences filters query).map Prod.fst),
    (.entity, intersectionRanking E index audiences filters hints)]

def candidatesOf (rankings : List (Arm × List Text)) : List (Text × Page) :=
  fusedPages R E index audiences (sortedSet (rankings.flatMap Prod.snd))

/-- the best of what was found are the seeds of the graph arm -/
def graphOf (rankings : List (Arm × List Text)) : List Text :=
  let seeds := rank R E today hints (candidatesOf R E index audiences rankings) rankings query GRAPH_SEEDS
  neighborRanking E index audiences filters (seeds.map fun h => (h.page.path, h.score))

def allCandidates (rankings : List (Arm × List Text)) (graph : List Text) : List (Text × Page) :=
  let candidates := candidatesOf R E index audiences rankings
  candidates ++ fusedPages R E index audiences
    (sortedSet (graph.filter fun v => !(candidates.map Prod.fst).contains v))

def armsOf (config : Text) : Arms :=
  let rankings := retrieved E index audiences filters hints query expansion config
  let best := bestOf E index audiences filters query
  let graph := graphOf R E index audiences filters today hints query rankings
  let candidates := allCandidates R E index audiences rankings graph
  let hits := rank R E today hints candidates (rankings ++ [(.graph, graph)]) query k
  let refs := fragmentRefs E index audiences (hits.filterMap fun h =>
    (best.lookup h.page.path).map fun place => (h.page.path, place))
  { fts := ftsRanking E index audiences filters config (ftsQuery query expansion) CANDIDATE_POOL
    vec := best.map Prod.fst
    entity := intersectionRanking E index audiences filters hints
    graph := graph
    hits := hits.map (withFragment E refs query)
    timedOut := (E.embed query).isNone
    ranked := candidates.length
    pageIds := candidates.map fun c => (c.1, c.2.row.pageId) }

/-- `search_arms` -/
def searchArms (info : Option Meta) : Except Text Arms :=
  if (Text.strip query).isEmpty then
    .error "an empty query matches nothing — search for the words the material actually uses".toList
  else match info with
  | none => .error "the index is empty — run `stigmergy-index --rebuild --repo <dir>` first".toList
  | some m =>
    let recorded := Text.strip m.host
    let live := Text.strip E.host
    if !recorded.isEmpty && !live.isEmpty && recorded != live then
      .error ("this index was built against the embedding host ".toList ++ recorded ++
        " and the embedder is configured for ".toList ++ live ++
        (" — the same model name on two hosts is not provably the same vector space. Rebuild the index against " ++
          "the configured OpenRouter embedding endpoint (`stigmergy-index --rebuild --repo <dir>`)").toList)
    else .ok (armsOf R E index audiences filters today hints query k expansion m.ftsConfig)

end

/-! ## A small index -/

/-- the fragments of an audience that pass, in the order of their distance -/
def exactScan (distance : ℕ → ℕ → ℚ) (part : List (Stored ℕ × Bool)) (v n : ℕ) : List (Stored ℕ) :=
  (((part.filter Prod.snd).map Prod.fst).insertionSort fun a b =>
    distance v a.embedding ≤ distance v b.embedding).take n

/-- words are found as they are written, and a text is embedded by its length -/
def plain : Engine ℕ where
  C := Listing.byCodePoint
  lexical := fun _ query r => if Text.contains query r.body then some (1 / 10) else none
  distance := fun v w => |(v : ℚ) - w|
  scan := exactScan fun v w => |(v : ℚ) - w|
  mem_of_mem_scan := fun part v n f h => by
    obtain ⟨p, hp, rfl⟩ := List.mem_map.mp ((List.mem_insertionSort _).mp (List.mem_of_mem_take h))
    obtain ⟨hmem, hpass⟩ := List.mem_filter.mp hp
    rw [show (p.1, true) = p from Prod.ext rfl hpass.symm]
    exact hmem
  damp := fun degree => if degree = 0 then 1 else if degree = 1 then 63 / 100 else 1 / 2
  embed := fun t => some t.length
  host := []
  ordinal := fun _ => 0
  snippet := fun body _ width => body.take width
  summaryOf := fun body => body.take 240

def rowAt (path vpath body : String) (acl : Option (List Text)) (links : List Text) : PageRow where
  path := path.toList
  vpath := vpath.toList
  zone := "wiki".toList
  pageId := []
  title := []
  body := body.toList
  type := .note
  status := []
  entityType := []
  aliases := []
  updated := []
  acl := acl
  inlinks := 0
  contentHash := []
  links := links
  sources := []
  sourceDate := []
  sourceDates := []

def pieceAt (path vpath text : String) (ordinal : ℕ) (acl : Option (List Text)) : Stored ℕ where
  path := path.toList
  vpath := vpath.toList
  ordinal := ordinal
  acl := acl
  trail := []
  text := text.toList
  embedding := text.length

def acmeRow : PageRow := rowAt "notes/acme.md" "notes/acme.md" "acme buys bolts" none ["notes/bolt.md".toList]

def boltRow : PageRow := rowAt "notes/bolt.md" "notes/bolt.md" "a fastener" none []

def financeRow : PageRow := rowAt "layers/finance/notes/acme.md" "notes/acme.md" "acme owes money" (some ["finance".toList]) []

def unfiltered : Filters := ⟨none, none, none, none⟩

def smallMeta : Meta := ⟨"m".toList, "simple".toList, []⟩

/-- a page of two fragments and a page it links -/
def small : Index ℕ where
  rows := [acmeRow, boltRow]
  filed := by decide
  fragments := [pieceAt "notes/acme.md" "notes/acme.md" "acme" 0 none,
    pieceAt "notes/acme.md" "notes/acme.md" "buys bolts" 1 none]
  keyed := by decide
  numbered := by decide
  held := by decide

/-- the same with a layer beside it -/
def layered : Index ℕ where
  rows := [acmeRow, financeRow, boltRow]
  filed := by decide
  fragments := [pieceAt "notes/acme.md" "notes/acme.md" "acme" 0 none,
    pieceAt "layers/finance/notes/acme.md" "notes/acme.md" "owes" 0 (some ["finance".toList]),
    pieceAt "notes/acme.md" "notes/acme.md" "buys bolts" 1 none]
  keyed := by decide
  numbered := by decide
  held := by decide

/-- what is found for `acme` by a reader of public pages -/
def found : Arms :=
  armsOf ascii plain layered (some []) unfiltered none [] "acme".toList TOP_K [] smallMeta.ftsConfig

theorem searchArms_layered :
    searchArms ascii plain layered (some []) unfiltered none [] "acme".toList TOP_K [] (some smallMeta) = .ok found := by
  unfold searchArms
  rw [if_neg (by decide)]
  rfl

/-- the page found by its words and its vectors, and behind it the page it links -/
example : (found.hits.map fun h => (h.page.path, h.score)) = [("notes/acme.md".toList, 2 / 61), ("notes/bolt.md".toList, 1 / 244)] := by
  decide +kernel

/-! ## What the reader may see -/

section
variable {V : Type*} (index : Index V) (audiences : Option (List Text)) (filters : Filters)

/-- whether the reader may see rows with these labels -/
def mayRead (acl : Option (List Text)) : Bool :=
  match audiences, acl with
  | none, _ | _, none => true
  | some labels, some acl => acl.any labels.contains

variable {index audiences filters}

theorem mem_vis {r : PageRow} : r ∈ vis index audiences ↔ r ∈ index.rows ∧ mayRead audiences r.acl = true := by
  show r ∈ index.rows.filter (isVisible audiences) ↔ _
  rw [List.mem_filter]
  rfl

theorem mem_visibleFragments {f : Stored V} :
    f ∈ visibleFragments index audiences ↔ f ∈ index.fragments ∧ mayRead audiences f.acl = true := by
  show f ∈ index.fragments.filter (fun f => mayRead audiences f.acl) ↔ _
  rw [List.mem_filter]

/-- the rows of one path are one row -/
theorem eq_of_path {r s : PageRow} (hr : r ∈ index.rows) (hs : s ∈ index.rows) (h : r.path = s.path) : r = s :=
  List.inj_on_of_nodup_map index.keyed hr hs h

/-- the row of a fragment's page has its audience -/
theorem exists_row {f : Stored V} (hf : f ∈ visibleFragments index audiences) :
    ∃ r ∈ vis index audiences, r.path = f.path ∧ r.vpath = f.vpath ∧ r.acl = f.acl := by
  obtain ⟨hmem, hread⟩ := mem_visibleFragments.mp hf
  obtain ⟨r, hr, hpath, hvpath, hacl⟩ := index.held f hmem
  exact ⟨r, mem_vis.mpr ⟨hr, by rw [hacl]; exact hread⟩, hpath, hvpath, hacl⟩

theorem layerOfAcl_aclOfLayer {acl : Option (List Text)} {layer : Text} (h : Layers.layerOfAcl acl = some layer) :
    acl = Layers.aclOfLayer layer ∧ (layer = Layers.PUBLIC ∨ Layers.isLayerName layer = true) := by
  unfold Layers.layerOfAcl at h
  unfold Layers.aclOfLayer
  split at h
  · obtain rfl := Option.some.inj h
    exact ⟨(if_pos rfl).symm, Or.inl rfl⟩
  · split at h
    · rename_i hname
      obtain rfl := Option.some.inj h
      exact ⟨(if_neg (Layers.isLayerName_ne_public hname)).symm, Or.inr hname⟩
    · cases h
  · cases h

theorem layerOfAcl_of_eq {layer : Text} (h : layer = Layers.PUBLIC ∨ Layers.isLayerName layer = true) :
    Layers.layerOfAcl (Layers.aclOfLayer layer) = some layer := by
  unfold Layers.aclOfLayer
  rcases h with rfl | h
  · rw [if_pos rfl]
    rfl
  · rw [if_neg (Layers.isLayerName_ne_public h)]
    exact if_pos h

theorem mem_scanned {layer : Text} (h : layer ∈ scanned index audiences) :
    layer = Layers.PUBLIC ∨ Layers.isLayerName layer = true := by
  unfold scanned at h
  split at h
  · unfold pageAudiences at h
    rcases List.mem_cons.mp (mem_sortedSet.mp h) with hpublic | hmem
    · exact Or.inl hpublic
    · obtain ⟨r, -, hr⟩ := List.mem_filterMap.mp hmem
      exact (layerOfAcl_aclOfLayer hr).2
  · rcases List.mem_cons.mp h with hpublic | hmem
    · exact Or.inl hpublic
    · exact Or.inr (List.mem_filter.mp (mem_sortedSet.mp hmem)).2

theorem nodup_scanned : (scanned index audiences).Nodup := by
  unfold scanned
  split
  · exact nodup_sortedSet _
  · refine List.nodup_cons.mpr ⟨fun h => ?_, nodup_sortedSet _⟩
    exact Layers.isLayerName_ne_public (List.mem_filter.mp (mem_sortedSet.mp h)).2 rfl

/-- a fragment is visible exactly when its audience is scanned -/
theorem mayRead_iff {f : Stored V} (hf : f ∈ index.fragments) :
    mayRead audiences f.acl = true ↔ ∃ layer ∈ scanned index audiences, Layers.layerOfAcl f.acl = some layer := by
  obtain ⟨r, hr, -, -, hacl⟩ := index.held f hf
  obtain ⟨layer, hlayer⟩ := Option.isSome_iff_exists.mp (index.filed r hr)
  rw [hacl] at hlayer
  obtain ⟨heq, hname⟩ := layerOfAcl_aclOfLayer hlayer
  constructor
  · intro hread
    refine ⟨layer, ?_, hlayer⟩
    unfold scanned
    cases audiences with
    | none =>
      exact mem_sortedSet.mpr (List.mem_cons_of_mem _ (List.mem_filterMap.mpr ⟨r, hr, by rw [hacl]; exact hlayer⟩))
    | some labels =>
      rcases hname with rfl | hname
      · exact List.mem_cons_self
      · rw [heq] at hread
        unfold Layers.aclOfLayer at hread
        rw [if_neg (Layers.isLayerName_ne_public hname)] at hread
        have hlabel : labels.contains layer = true := by
          simpa [mayRead] using hread
        exact List.mem_cons_of_mem _ (mem_sortedSet.mpr
          (List.mem_filter.mpr ⟨List.contains_iff_mem.mp hlabel, hname⟩))
  · rintro ⟨l, hl, hacl'⟩
    obtain rfl := Option.some.inj (hlayer.symm.trans hacl')
    rw [heq]
    unfold scanned at hl
    cases audiences with
    | none => rfl
    | some labels =>
      unfold Layers.aclOfLayer
      split
      · rfl
      · rename_i hpublic
        have hmem := (List.mem_cons.mp hl).resolve_left hpublic
        simpa [mayRead] using (List.mem_filter.mp (mem_sortedSet.mp hmem)).1

theorem inAudience_iff {f : Stored V} {layer : Text} (hlayer : layer ∈ scanned index audiences) :
    inAudience layer f = true ↔ Layers.layerOfAcl f.acl = some layer := by
  unfold inAudience
  rw [beq_iff_eq]
  constructor
  · intro h
    rw [h]
    exact layerOfAcl_of_eq (mem_scanned hlayer)
  · exact fun h => (layerOfAcl_aclOfLayer h).1

/-- the fragments of an audience that is scanned are among the visible ones -/
theorem filter_inAudience {layer : Text} (hlayer : layer ∈ scanned index audiences) :
    index.fragments.filter (inAudience layer) = (visibleFragments index audiences).filter (inAudience layer) := by
  show _ = (index.fragments.filter fun f => mayRead audiences f.acl).filter (inAudience layer)
  rw [List.filter_filter]
  refine List.filter_congr fun f hf => ?_
  cases h : inAudience layer f with
  | false => rfl
  | true =>
    rw [(mayRead_iff hf).mpr ⟨layer, hlayer, (inAudience_iff hlayer).mp h⟩]
    rfl

/-- the page of a visible fragment meets the filters exactly when a visible row of its path does -/
theorem pageFilter_of_visible {f : Stored V} (hf : f ∈ visibleFragments index audiences) :
    pageFilter index filters f =
      (noFilters filters || ((vis index audiences).filter (filterClause filters)).any fun r => r.path == f.path) := by
  obtain ⟨r, hr, hpath, -, -⟩ := exists_row hf
  unfold pageFilter
  congr 1
  rw [Bool.eq_iff_iff, List.any_eq_true, List.any_eq_true]
  constructor
  · rintro ⟨s, hs, hsame⟩
    obtain ⟨hmem, hfilter⟩ := List.mem_filter.mp hs
    have heq := eq_of_path hmem (mem_vis.mp hr).1 ((beq_iff_eq.mp hsame).trans hpath.symm)
    exact ⟨s, List.mem_filter.mpr ⟨heq ▸ hr, hfilter⟩, hsame⟩
  · rintro ⟨s, hs, hsame⟩
    obtain ⟨hmem, hfilter⟩ := List.mem_filter.mp hs
    exact ⟨s, List.mem_filter.mpr ⟨(mem_vis.mp hmem).1, hfilter⟩, hsame⟩

end

/-! ## Nothing but what the reader may see -/

section
variable {V : Type*} {E : Engine V} {i₁ i₂ : Index V} {audiences : Option (List Text)} {filters : Filters}
variable (hrows : vis i₁ audiences = vis i₂ audiences)
variable (hfragments : visibleFragments i₁ audiences = visibleFragments i₂ audiences)
include hrows

theorem scanned_visible : scanned i₁ audiences = scanned i₂ audiences := by
  unfold scanned
  cases audiences with
  | some labels => rfl
  | none =>
    have hall : ∀ i : Index V, vis i none = i.rows := fun i =>
      List.filter_eq_self.mpr fun r _ => rfl
    rw [hall, hall] at hrows
    show pageAudiences i₁ = pageAudiences i₂
    unfold pageAudiences
    rw [hrows]

theorem ftsRanking_visible (config query : Text) (pool : ℕ) :
    ftsRanking E i₁ audiences filters config query pool = ftsRanking E i₂ audiences filters config query pool := by
  unfold ftsRanking
  rw [hrows]

theorem intersectionRanking_visible (entities : List Text) :
    intersectionRanking E i₁ audiences filters entities = intersectionRanking E i₂ audiences filters entities := by
  unfold intersectionRanking
  rw [hrows]

theorem linksOf_visible (v : Text) : linksOf i₁ audiences v = linksOf i₂ audiences v := by
  unfold linksOf
  rw [hrows]

theorem edges_visible (seeds : List (Text × ℚ)) : edges E i₁ audiences seeds = edges E i₂ audiences seeds := by
  unfold edges inbound outbound
  simp only [linksOf_visible hrows]
  rw [hrows]

theorem degree_visible (n : Text) : degree i₁ audiences n = degree i₂ audiences n := by
  unfold degree
  rw [linksOf_visible hrows, hrows]

theorem neighborRanking_visible (seeds : List (Text × ℚ)) :
    neighborRanking E i₁ audiences filters seeds = neighborRanking E i₂ audiences filters seeds := by
  have hstrongest : strongest E i₁ audiences = strongest E i₂ audiences := by
    funext a b
    unfold strongest damped
    rw [degree_visible hrows, degree_visible hrows]
  unfold neighborRanking nominated
  rw [hstrongest, edges_visible hrows, hrows]

theorem fusedPages_visible (R : Runtime) (paths : List Text) :
    fusedPages R E i₁ audiences paths = fusedPages R E i₂ audiences paths := by
  unfold fusedPages groupAt
  rw [hrows]

end

section
variable {V : Type*} {R : Runtime} {E : Engine V} {i₁ i₂ : Index V} {audiences : Option (List Text)} {filters : Filters}
variable (hrows : vis i₁ audiences = vis i₂ audiences)
variable (hfragments : visibleFragments i₁ audiences = visibleFragments i₂ audiences)
include hfragments

theorem numberedOf_visible (vpath : Text) : numberedOf E i₁ audiences vpath = numberedOf E i₂ audiences vpath := by
  unfold numberedOf
  rw [hfragments]

theorem fragmentRefs_visible (best : List (Text × Text × ℕ)) :
    fragmentRefs E i₁ audiences best = fragmentRefs E i₂ audiences best := by
  unfold fragmentRefs
  simp only [numberedOf_visible hfragments]

theorem fragmentWindow_visible (vpath : Text) (number : ℕ) :
    fragmentWindow E i₁ audiences vpath number = fragmentWindow E i₂ audiences vpath number := by
  unfold fragmentWindow
  rw [numberedOf_visible hfragments]

include hrows

theorem branch_visible {layer : Text} (hlayer : layer ∈ scanned i₁ audiences) :
    branch i₁ filters layer = branch i₂ filters layer := by
  have hlayer₂ : layer ∈ scanned i₂ audiences := scanned_visible hrows ▸ hlayer
  unfold branch
  rw [filter_inAudience hlayer, filter_inAudience hlayer₂, ← hfragments]
  refine List.map_congr_left fun f hf => ?_
  have hvisible := (List.mem_filter.mp hf).1
  rw [pageFilter_of_visible hvisible, hrows, ← pageFilter_of_visible (hfragments ▸ hvisible)]

theorem vecFragments_visible (v : V) (limit : ℕ) :
    vecFragments E i₁ audiences filters v limit = vecFragments E i₂ audiences filters v limit := by
  have hfound : ((scanned i₁ audiences).flatMap fun layer => E.scan (branch i₁ filters layer) v limit) =
      (scanned i₂ audiences).flatMap fun layer => E.scan (branch i₂ filters layer) v limit := by
    rw [← scanned_visible hrows]
    exact List.flatMap_congr fun layer hlayer => by rw [branch_visible hrows hfragments hlayer]
  show (List.insertionSort _ _).take limit = (List.insertionSort _ _).take limit
  rw [hfound]

variable (today : Option ℤ) (hints : List Text) (query : Text) (k : ℕ) (expansion : List Text)

theorem armsOf_visible (config : Text) :
    armsOf R E i₁ audiences filters today hints query k expansion config =
      armsOf R E i₂ audiences filters today hints query k expansion config := by
  have hbest : bestOf E i₁ audiences filters query = bestOf E i₂ audiences filters query := by
    unfold bestOf
    simp only [vecFragments_visible hrows hfragments]
  have hcandidates : candidatesOf R E i₁ audiences = candidatesOf R E i₂ audiences := by
    funext rankings
    exact fusedPages_visible hrows R _
  have hretrieved : retrieved E i₁ audiences filters hints query expansion config =
      retrieved E i₂ audiences filters hints query expansion config := by
    unfold retrieved
    rw [ftsRanking_visible hrows, hbest, intersectionRanking_visible hrows]
  have hgraph : graphOf R E i₁ audiences filters today hints query = graphOf R E i₂ audiences filters today hints query := by
    funext rankings
    unfold graphOf
    rw [hcandidates]
    exact neighborRanking_visible hrows _
  have hfused : fusedPages R E i₁ audiences = fusedPages R E i₂ audiences := funext (fusedPages_visible hrows R)
  have hall : allCandidates R E i₁ audiences = allCandidates R E i₂ audiences := by
    funext rankings graph
    unfold allCandidates
    rw [hcandidates, hfused]
  have hrefs : fragmentRefs E i₁ audiences = fragmentRefs E i₂ audiences := funext (fragmentRefs_visible hfragments)
  unfold armsOf
  rw [hretrieved, hbest, hgraph, hall, hrefs, ftsRanking_visible hrows, intersectionRanking_visible hrows]

/-- a search, and what is opened after it, shows nothing but what the reader may see -/
theorem searchArms_visible (info : Option Meta) :
    searchArms R E i₁ audiences filters today hints query k expansion info =
        searchArms R E i₂ audiences filters today hints query k expansion info ∧
      ∀ vpath number, fragmentWindow E i₁ audiences vpath number = fragmentWindow E i₂ audiences vpath number := by
  refine ⟨?_, fragmentWindow_visible hfragments⟩
  unfold searchArms
  simp only [armsOf_visible hrows hfragments]

end

theorem searchArms_visible_layered :
    searchArms ascii plain layered (some []) unfiltered none [] "acme".toList TOP_K [] (some smallMeta) =
        searchArms ascii plain small (some []) unfiltered none [] "acme".toList TOP_K [] (some smallMeta) ∧
      ∀ vpath number, fragmentWindow plain layered (some []) vpath number = fragmentWindow plain small (some []) vpath number := by
  have hrows : vis layered (some []) = vis small (some []) := rfl
  have hfragments : visibleFragments layered (some []) = visibleFragments small (some []) := rfl
  exact searchArms_visible hrows hfragments none [] "acme".toList TOP_K [] (some smallMeta)

/-! ## The nearest fragments -/

section
variable {V : Type*} {E : Engine V} {index : Index V} {audiences : Option (List Text)} {filters : Filters}

/-- the place of a fragment, as `best_fragments` keeps it -/
def placed (f : Stored V) : Text × Text × ℕ := (f.vpath, f.path, f.ordinal)

variable (E) in
/-- the scans are exact -/
def Exact : Prop :=
  ∀ part v n, Nearest (fun f => E.distance v f.embedding) n ((part.filter Prod.snd).map Prod.fst) (E.scan part v n)

variable (index audiences filters) in
/-- the fragments a search may find -/
def passing : List (Stored V) := (visibleFragments index audiences).filter (pageFilter index filters)

theorem nodup_fragments (i : Index V) : i.fragments.Nodup := List.Nodup.of_map _ i.numbered

theorem perm_passing : ((scanned index audiences).flatMap fun layer =>
    ((branch index filters layer).filter Prod.snd).map Prod.fst).Perm (passing index audiences filters) := by
  have hpart : ∀ layer : Text, ((branch index filters layer).filter Prod.snd).map Prod.fst =
      (index.fragments.filter (inAudience layer)).filter (pageFilter index filters) := fun layer => by
    unfold branch
    rw [List.filter_map, List.map_map]
    exact List.map_id _
  simp only [hpart]
  refine (List.perm_ext_iff_of_nodup ?_ ?_).mpr fun f => ?_
  · refine List.nodup_flatMap.mpr ⟨fun layer _ => ((nodup_fragments index).filter _).filter _, ?_⟩
    refine nodup_scanned.imp_of_mem fun {a b} ha hb hne => ?_
    intro f hfa hfb
    have hla := (inAudience_iff ha).mp (List.mem_filter.mp (List.mem_filter.mp hfa).1).2
    have hlb := (inAudience_iff hb).mp (List.mem_filter.mp (List.mem_filter.mp hfb).1).2
    exact hne (Option.some.inj (hla.symm.trans hlb))
  · exact ((nodup_fragments index).filter _).filter _
  · unfold passing
    rw [List.mem_flatMap, List.mem_filter, mem_visibleFragments]
    constructor
    · rintro ⟨layer, hlayer, hf⟩
      obtain ⟨hmem, hpass⟩ := List.mem_filter.mp hf
      obtain ⟨hfragment, hscope⟩ := List.mem_filter.mp hmem
      exact ⟨⟨hfragment, (mayRead_iff hfragment).mpr ⟨layer, hlayer, (inAudience_iff hlayer).mp hscope⟩⟩, hpass⟩
    · rintro ⟨⟨hfragment, hread⟩, hpass⟩
      obtain ⟨layer, hlayer, hacl⟩ := (mayRead_iff hfragment).mp hread
      exact ⟨layer, hlayer, List.mem_filter.mpr
        ⟨List.mem_filter.mpr ⟨hfragment, (inAudience_iff hlayer).mpr hacl⟩, hpass⟩⟩

theorem nearness_ordered (v : V) (found : List (Stored V)) :
    (found.insertionSort fun a b => nearness E v a ≤ nearness E v b).Pairwise
      fun a b => nearness E v a ≤ nearness E v b :=
  (stablySorted_insertionSort le_refl le_total (fun _ _ _ => le_trans) found).ordered

theorem distance_le {v : V} {a b : Stored V} (h : nearness E v a ≤ nearness E v b) :
    E.distance v a.embedding ≤ E.distance v b.embedding := by
  rcases Prod.Lex.toLex_le_toLex.mp h with hlt | ⟨heq, -⟩
  · exact hlt.le
  · exact heq.le

variable (index audiences filters) in
/-- with exact scans the fragments found are the nearest the reader may see -/
theorem nearest_vecFragments (hexact : Exact E) (v : V) (limit : ℕ) :
    Nearest (fun f => E.distance v f.embedding) limit (passing index audiences filters)
      (vecFragments E index audiences filters v limit) := by
  have hperm := List.perm_insertionSort (fun a b => nearness E v a ≤ nearness E v b)
    ((scanned index audiences).flatMap fun layer => E.scan (branch index filters layer) v limit)
  have hnear := nearest_flatMap (fun layer _ => hexact (branch index filters layer) v limit) hperm
    ((nearness_ordered v _).imp distance_le)
  exact hnear.of_perm perm_passing

theorem pairwise_vecFragments (v : V) (limit : ℕ) : (vecFragments E index audiences filters v limit).Pairwise
    fun a b => E.distance v a.embedding ≤ E.distance v b.embedding :=
  ((nearness_ordered v _).sublist (List.take_sublist limit _)).imp distance_le

/-- what `best_fragments` adds to the pages it has -/
structure Bested (rel : Stored V → Stored V → Prop) (pool : ℕ) (best : List (Text × Text × ℕ))
    (found : List (Stored V)) (out : List (Text × Text × ℕ)) : Prop where
  grows : ∃ added, out = best ++ added
  nodup : (out.map Prod.fst).Nodup
  bounded : best.length ≤ pool → out.length ≤ pool
  entries : ∀ e ∈ out, e.1 ∉ best.map Prod.fst →
    ∃ f ∈ found, placed f = e ∧ ∀ g ∈ found, g.vpath = e.1 → g = f ∨ rel f g
  missing : ∀ g ∈ found, g.vpath ∉ out.map Prod.fst → out.length = pool ∧
    ∀ e ∈ out, e.1 ∉ best.map Prod.fst → ∃ f ∈ found, placed f = e ∧ rel f g

theorem bested {rel : Stored V → Stored V → Prop} {pool : ℕ} {best : List (Text × Text × ℕ)} {found : List (Stored V)}
    (hfound : found.Pairwise rel) (hnd : (best.map Prod.fst).Nodup) :
    Bested rel pool best found (bestFragments pool best found) := by
  induction found generalizing best with
  | nil =>
    exact ⟨⟨[], (List.append_nil best).symm⟩, hnd, id,
      fun e he hnew => absurd (List.mem_map.mpr ⟨e, he, rfl⟩) hnew, fun g hg => absurd hg List.not_mem_nil⟩
  | cons f found ih =>
    obtain ⟨hfirst, hrest⟩ := List.pairwise_cons.mp hfound
    unfold bestFragments
    split
    · next hseen =>
      have h := ih hrest hnd
      obtain ⟨added, hadded⟩ := h.grows
      refine ⟨h.grows, h.nodup, h.bounded, fun e he hnew => ?_, fun g hg hmissing => ?_⟩
      · obtain ⟨f', hf', hplace, hbest⟩ := h.entries e he hnew
        refine ⟨f', List.mem_cons_of_mem f hf', hplace, fun g hg hpage => ?_⟩
        rcases List.mem_cons.mp hg with rfl | hg
        · exact absurd (hpage ▸ hseen) hnew
        · exact hbest g hg hpage
      · rcases List.mem_cons.mp hg with rfl | hg
        · rw [hadded, List.map_append] at hmissing
          exact absurd (List.mem_append_left _ hseen) hmissing
        · obtain ⟨hfull, hall⟩ := h.missing g hg hmissing
          refine ⟨hfull, fun e he hnew => ?_⟩
          obtain ⟨f', hf', hplace⟩ := hall e he hnew
          exact ⟨f', List.mem_cons_of_mem f hf', hplace⟩
    · next hnew =>
      split
      · next hfull =>
        exact ⟨⟨[], (List.append_nil best).symm⟩, hnd, id,
          fun e he hne => absurd (List.mem_map.mpr ⟨e, he, rfl⟩) hne,
          fun g _ _ => ⟨hfull, fun e he hne => absurd (List.mem_map.mpr ⟨e, he, rfl⟩) hne⟩⟩
      · next hroom =>
        have hkeys : (best ++ [placed f]).map Prod.fst = best.map Prod.fst ++ [f.vpath] := List.map_append
        have h := @ih (best ++ [placed f]) hrest (by
          rw [hkeys]
          exact List.nodup_append_comm.mp (List.nodup_cons.mpr ⟨hnew, hnd⟩))
        obtain ⟨added, hadded⟩ := h.grows
        have hmem : placed f ∈ bestFragments pool (best ++ [placed f]) found := by
          rw [hadded]
          exact List.mem_append_left _ (List.mem_append_right _ (List.mem_singleton_self _))
        -- a new page is that of `f`, with the place of `f`, or it is new to the rest
        have hold : ∀ e ∈ bestFragments pool (best ++ [placed f]) found, e.1 ∉ best.map Prod.fst →
            e = placed f ∨ e.1 ∉ (best ++ [placed f]).map Prod.fst ∧ e.1 ≠ f.vpath := fun e he hne => by
          by_cases hpage : e.1 = f.vpath
          · exact Or.inl (List.inj_on_of_nodup_map h.nodup he hmem hpage)
          · refine Or.inr ⟨?_, hpage⟩
            rw [hkeys, List.mem_append, List.mem_singleton]
            exact not_or.mpr ⟨hne, hpage⟩
        refine ⟨⟨placed f :: added, hadded.trans (List.append_assoc best [placed f] added)⟩, h.nodup, fun hle => ?_,
          fun e he hne => ?_, fun g hg hmissing => ?_⟩
        · refine h.bounded ?_
          rw [List.length_append, List.length_singleton]
          omega
        · rcases hold e he hne with rfl | ⟨hne', hpage⟩
          · refine ⟨f, List.mem_cons_self, rfl, fun g hg _ => ?_⟩
            rcases List.mem_cons.mp hg with rfl | hg
            · exact Or.inl rfl
            · exact Or.inr (hfirst g hg)
          · obtain ⟨f', hf', hplace, hbest⟩ := h.entries e he hne'
            refine ⟨f', List.mem_cons_of_mem f hf', hplace, fun g hg hsame => ?_⟩
            rcases List.mem_cons.mp hg with rfl | hg
            · exact absurd hsame.symm hpage
            · exact hbest g hg hsame
        · rcases List.mem_cons.mp hg with rfl | hg
          · exact absurd (List.mem_map.mpr ⟨_, hmem, rfl⟩) hmissing
          · obtain ⟨hfull, hall⟩ := h.missing g hg hmissing
            refine ⟨hfull, fun e he hne => ?_⟩
            rcases hold e he hne with rfl | ⟨hne', -⟩
            · exact ⟨f, List.mem_cons_self, rfl, hfirst g hg⟩
            · obtain ⟨f', hf', hplace⟩ := hall e he hne'
              exact ⟨f', List.mem_cons_of_mem f hf', hplace⟩

variable (E index audiences filters) in
theorem bested_found (v : V) : Bested (fun a b => E.distance v a.embedding ≤ E.distance v b.embedding) CANDIDATE_POOL []
    (vecFragments E index audiences filters v VEC_FRAGMENTS)
    (bestFragments CANDIDATE_POOL [] (vecFragments E index audiences filters v VEC_FRAGMENTS)) :=
  bested (pairwise_vecFragments v VEC_FRAGMENTS) List.nodup_nil

/-- with exact scans the vector arm has each page's nearest fragment, and leaves out only pages that are no
nearer: those beyond its forty pages, or beyond its hundred and sixty fragments -/
theorem best_nearest (hexact : Exact E) {query : Text} {v : V} (hembed : E.embed query = some v) :
    (∀ e ∈ bestOf E index audiences filters query, ∃ f ∈ passing index audiences filters, placed f = e ∧
      ∀ g ∈ passing index audiences filters, g.vpath = e.1 →
        E.distance v f.embedding ≤ E.distance v g.embedding) ∧
    ∀ g ∈ passing index audiences filters, g.vpath ∉ (bestOf E index audiences filters query).map Prod.fst →
      ((bestOf E index audiences filters query).length = CANDIDATE_POOL ∨
        VEC_FRAGMENTS < (passing index audiences filters).length) ∧
      ∀ e ∈ bestOf E index audiences filters query, ∃ f ∈ passing index audiences filters, placed f = e ∧
        E.distance v f.embedding ≤ E.distance v g.embedding := by
  have hbest : bestOf E index audiences filters query =
      bestFragments CANDIDATE_POOL [] (vecFragments E index audiences filters v VEC_FRAGMENTS) := by
    unfold bestOf
    rw [hembed]
  have hnear := nearest_vecFragments index audiences filters hexact v VEC_FRAGMENTS
  have h := bested_found E index audiences filters v
  rw [hbest]
  refine ⟨fun e he => ?_, fun g hg hmissing => ?_⟩
  · obtain ⟨f, hf, hplace, hleast⟩ := h.entries e he List.not_mem_nil
    refine ⟨f, hnear.mem hf, hplace, fun g hg hpage => ?_⟩
    by_cases hfound : g ∈ vecFragments E index audiences filters v VEC_FRAGMENTS
    · rcases hleast g hfound hpage with rfl | hle
      · exact le_refl _
      · exact hle
    · exact (hnear.left_out hg hfound).2 f hf
  · by_cases hfound : g ∈ vecFragments E index audiences filters v VEC_FRAGMENTS
    · obtain ⟨hfull, hall⟩ := h.missing g hfound hmissing
      refine ⟨Or.inl hfull, fun e he => ?_⟩
      obtain ⟨f, hf, hplace, hle⟩ := hall e he List.not_mem_nil
      exact ⟨f, hnear.mem hf, hplace, hle⟩
    · obtain ⟨hfull, hall⟩ := hnear.left_out hg hfound
      refine ⟨Or.inr (hfull ▸ hnear.lt_of_left_out hg hfound), fun e he => ?_⟩
      obtain ⟨f, hf, hplace, -⟩ := h.entries e he List.not_mem_nil
      exact ⟨f, hnear.mem hf, hplace, hall f hf⟩

end

theorem exact_plain : Exact plain := fun part v n => by
  have hsorted : StablySorted (fun f : Stored ℕ => plain.distance v f.embedding) (· ≤ ·)
      ((part.filter Prod.snd).map Prod.fst) _ :=
    stablySorted_insertionSort le_refl le_total (fun _ _ _ => le_trans) ((part.filter Prod.snd).map Prod.fst)
  exact nearest_take hsorted.perm hsorted.ordered n

theorem best_nearest_layered :
    (∀ e ∈ bestOf plain layered (some []) unfiltered "acme".toList, ∃ f ∈ passing layered (some []) unfiltered,
      placed f = e ∧ ∀ g ∈ passing layered (some []) unfiltered, g.vpath = e.1 →
        plain.distance 4 f.embedding ≤ plain.distance 4 g.embedding) ∧
    ∀ g ∈ passing layered (some []) unfiltered,
      g.vpath ∉ (bestOf plain layered (some []) unfiltered "acme".toList).map Prod.fst →
      ((bestOf plain layered (some []) unfiltered "acme".toList).length = CANDIDATE_POOL ∨
        VEC_FRAGMENTS < (passing layered (some []) unfiltered).length) ∧
      ∀ e ∈ bestOf plain layered (some []) unfiltered "acme".toList, ∃ f ∈ passing layered (some []) unfiltered,
        placed f = e ∧ plain.distance 4 f.embedding ≤ plain.distance 4 g.embedding :=
  best_nearest exact_plain (rfl : plain.embed "acme".toList = some 4)

/-! ## Every page an arm finds is visible -/

section
variable {V : Type*} {R : Runtime} {E : Engine V} {index : Index V} {audiences : Option (List Text)} {filters : Filters}

theorem length_firsts_le {l : List Text} {n : ℕ} (h : l.length ≤ n) : (firsts l).length ≤ n := by
  unfold firsts
  rw [List.length_reverse]
  exact (List.dedup_sublist _).length_le.trans (by rw [List.length_reverse]; exact h)

theorem mem_newestFirst {rows : List PageRow} {keep : List PageRow → Bool} {limit : ℕ} {v : Text}
    (h : v ∈ newestFirst E rows keep limit) : ∃ r ∈ rows, r.vpath = v := by
  obtain ⟨p, hp, rfl⟩ := List.mem_map.mp h
  obtain ⟨w, hw, rfl⟩ := List.mem_map.mp (Keyset.mem_ordered.mp (List.mem_of_mem_take hp))
  exact List.mem_map.mp (List.mem_dedup.mp (List.mem_filter.mp hw).1)

theorem visible_fts {config query : Text} {pool : ℕ} {v : Text}
    (h : v ∈ ftsRanking E index audiences filters config query pool) : ∃ r ∈ vis index audiences, r.vpath = v := by
  obtain ⟨p, hp, rfl⟩ := List.mem_map.mp (mem_firsts.mp h)
  obtain ⟨r, hr, hscore⟩ := List.mem_filterMap.mp (Keyset.mem_ordered.mp (List.mem_of_mem_take hp))
  obtain ⟨score, -, rfl⟩ := Option.map_eq_some_iff.mp hscore
  exact ⟨r, (List.mem_filter.mp hr).1, rfl⟩

theorem visible_entity {entities : List Text} {v : Text}
    (h : v ∈ intersectionRanking E index audiences filters entities) : ∃ r ∈ vis index audiences, r.vpath = v := by
  unfold intersectionRanking at h
  split at h
  · exact absurd h List.not_mem_nil
  · obtain ⟨r, hr, hv⟩ := mem_newestFirst (mem_firsts.mp h)
    exact ⟨r, (List.mem_filter.mp hr).1, hv⟩

theorem mem_vecFragments {v : V} {limit : ℕ} {f : Stored V}
    (h : f ∈ vecFragments E index audiences filters v limit) : f ∈ passing index audiences filters := by
  obtain ⟨layer, hlayer, hf⟩ := List.mem_flatMap.mp (((List.perm_insertionSort _ _).mem_iff).mp (List.mem_of_mem_take h))
  refine perm_passing.mem_iff.mp (List.mem_flatMap.mpr ⟨layer, hlayer, ?_⟩)
  exact List.mem_map.mpr ⟨(f, true), List.mem_filter.mpr ⟨E.mem_of_mem_scan _ _ _ f hf, rfl⟩, rfl⟩

theorem mem_bestOf {query : Text} {e : Text × Text × ℕ} (h : e ∈ bestOf E index audiences filters query) :
    ∃ f ∈ passing index audiences filters, placed f = e := by
  unfold bestOf at h
  split at h
  · exact absurd h List.not_mem_nil
  · obtain ⟨f, hf, hplace, -⟩ := (bested_found E index audiences filters _).entries e h List.not_mem_nil
    exact ⟨f, mem_vecFragments hf, hplace⟩

theorem length_bestOf (query : Text) : (bestOf E index audiences filters query).length ≤ CANDIDATE_POOL := by
  unfold bestOf
  split
  · exact Nat.zero_le _
  · exact (bested_found E index audiences filters _).bounded (Nat.zero_le _)

theorem visible_vec {query v : Text} (h : v ∈ (bestOf E index audiences filters query).map Prod.fst) :
    ∃ r ∈ vis index audiences, r.vpath = v := by
  obtain ⟨e, he, rfl⟩ := List.mem_map.mp h
  obtain ⟨f, hf, rfl⟩ := mem_bestOf he
  obtain ⟨r, hr, -, hvpath, -⟩ := exists_row (List.mem_filter.mp hf).1
  exact ⟨r, hr, hvpath⟩

/-- what each retrieval arm holds: at most forty visible pages -/
theorem mem_retrieved {hints : List Text} {query : Text} {expansion : List Text} {config : Text}
    {a : Arm × List Text} (h : a ∈ retrieved E index audiences filters hints query expansion config) :
    armWeight a.1 = 1 ∧ a.1 ≠ .graph ∧ a.2.length ≤ CANDIDATE_POOL ∧
      ∀ v ∈ a.2, ∃ r ∈ vis index audiences, r.vpath = v := by
  unfold retrieved at h
  simp only [List.mem_cons, List.not_mem_nil, or_false] at h
  rcases h with rfl | rfl | rfl
  · refine ⟨rfl, (fun h => by cases h), length_firsts_le ?_, fun v hv => visible_fts hv⟩
    rw [List.length_map]
    exact List.length_take_le _ _
  · refine ⟨rfl, (fun h => by cases h), ?_, fun v hv => visible_vec hv⟩
    rw [List.length_map]
    exact length_bestOf query
  · refine ⟨rfl, (fun h => by cases h), ?_, fun v hv => visible_entity hv⟩
    show (intersectionRanking E index audiences filters hints).length ≤ CANDIDATE_POOL
    unfold intersectionRanking
    split
    · exact Nat.zero_le _
    · refine length_firsts_le ?_
      unfold newestFirst
      rw [List.length_map]
      exact (List.length_take_le _ _).trans (by decide)

/-! ## Fused pages -/

theorem exists_fuseRows {rows : List PageRow} (h : rows ≠ []) : ∃ page, fuseRows R rows = some page := by
  have hne : rows.insertionSort (fun a b => layerKey a ≤ layerKey b) ≠ [] := fun hnil => by
    have hlen := (List.perm_insertionSort (fun a b => layerKey a ≤ layerKey b) rows).length_eq
    rw [hnil] at hlen
    exact h (List.length_eq_zero_iff.mp hlen.symm)
  unfold fuseRows
  simp only
  split
  · next hnil => exact absurd hnil hne
  · exact ⟨_, rfl⟩
  · exact ⟨_, rfl⟩

variable (R E index audiences) in
/-- the fused record of a page -/
def pageAt (v : Text) : Option Page := fuseRows R (groupAt E index audiences v)

theorem exists_pageAt {v : Text} (h : ∃ r ∈ vis index audiences, r.vpath = v) :
    ∃ page, pageAt R E index audiences v = some page := by
  obtain ⟨r, hr, hv⟩ := h
  refine exists_fuseRows fun hnil => ?_
  have hmem : r ∈ groupAt E index audiences v := by
    refine Keyset.mem_ordered.mpr (List.mem_filter.mpr ⟨hr, ?_⟩)
    rw [Bool.and_eq_true, beq_iff_eq]
    exact ⟨hv, index.filed r (mem_vis.mp hr).1⟩
  rw [hnil] at hmem
  exact List.not_mem_nil hmem

theorem lookup_fusedPages (paths : List Text) (v : Text) : (fusedPages R E index audiences paths).lookup v =
    if v ∈ paths then pageAt R E index audiences v else none := by
  have hlookup : ∀ l : List Text, (l.filterMap fun w =>
      (fuseRows R (groupAt E index audiences w)).map fun page => (w, page)).lookup v =
        if v ∈ l then pageAt R E index audiences v else none := by
    intro l
    induction l with
    | nil => rfl
    | cons w l ih =>
      by_cases hv : v = w
      · rw [if_pos (List.mem_cons.mpr (Or.inl hv)), ← hv]
        cases hpage : pageAt R E index audiences v with
        | some page =>
          rw [List.filterMap_cons_some (b := (v, page)) (by
            show (pageAt R E index audiences v).map _ = _
            rw [hpage]
            rfl), List.lookup_cons_self]
        | none =>
          rw [List.filterMap_cons_none (by
            show (pageAt R E index audiences v).map _ = _
            rw [hpage]
            rfl), ih, hpage, ite_self]
      · have hcons : v ∈ w :: l ↔ v ∈ l := by
          rw [List.mem_cons]
          exact ⟨fun h => h.resolve_left hv, Or.inr⟩
        simp only [hcons]
        rw [← ih]
        cases hpage : fuseRows R (groupAt E index audiences w) with
        | some page =>
          rw [List.filterMap_cons_some (b := (w, page)) (by rw [hpage]; rfl), List.lookup_cons,
            beq_eq_false_iff_ne.mpr hv]
        | none => rw [List.filterMap_cons_none (by rw [hpage]; rfl)]
  unfold fusedPages
  rw [hlookup]
  simp only [mem_firsts]

theorem lookup_candidatesOf (rankings : List (Arm × List Text)) (v : Text) :
    (candidatesOf R E index audiences rankings).lookup v =
      if v ∈ rankings.flatMap Prod.snd then pageAt R E index audiences v else none := by
  unfold candidatesOf
  rw [lookup_fusedPages]
  simp only [mem_sortedSet]

theorem lookup_allCandidates_of_mem {rankings : List (Arm × List Text)} {graph : List Text} {a : Arm × List Text}
    (ha : a ∈ rankings) {v : Text} (hv : v ∈ a.2) {page : Page} (hpage : pageAt R E index audiences v = some page) :
    (allCandidates R E index audiences rankings graph).lookup v = some page := by
  unfold allCandidates
  rw [List.lookup_append, lookup_candidatesOf, if_pos (List.mem_flatMap.mpr ⟨a, ha, hv⟩), hpage]
  rfl

end

/-! ## What a ranking gives -/

section

/-- the votes of a ranking whose first place is the `i`th -/
def votesFrom (w : ℚ) (i : ℕ) (l : List Text) : List (Text × ℚ) := (l.zipIdx i).map fun p => (p.1, w / (RRF_K + p.2))

theorem total_votesFrom_cons (w : ℚ) (i : ℕ) (a : Text) (l : List Text) (v : Text) :
    total (votesFrom w i (a :: l)) v = (if a = v then w / (RRF_K + i) else 0) + total (votesFrom w (i + 1) l) v := by
  unfold votesFrom
  rw [List.zipIdx_cons, List.map_cons, total_cons]

theorem total_votesFrom_of_notMem (w : ℚ) (i : ℕ) {l : List Text} {v : Text} (h : v ∉ l) :
    total (votesFrom w i l) v = 0 := by
  refine total_eq_zero fun hmem => ?_
  unfold votesFrom at hmem
  rw [List.map_map] at hmem
  obtain ⟨p, hp, rfl⟩ := List.mem_map.mp hmem
  exact h (List.fst_mem_of_mem_zipIdx hp)

theorem total_votesFrom_nonneg {w : ℚ} (hw : 0 ≤ w) (i : ℕ) (l : List Text) (v : Text) :
    0 ≤ total (votesFrom w i l) v := by
  induction l generalizing i with
  | nil => exact le_refl 0
  | cons a l ih =>
    rw [total_votesFrom_cons]
    refine add_nonneg ?_ (ih (i + 1))
    split
    · exact div_nonneg hw (add_nonneg (Nat.cast_nonneg _) (Nat.cast_nonneg _))
    · exact le_refl 0

/-- a name gets no more than the first place gives -/
theorem total_votesFrom_le {w : ℚ} (hw : 0 ≤ w) {l : List Text} (hnd : l.Nodup) (v : Text) {i : ℕ} (hi : 1 ≤ i) :
    total (votesFrom w i l) v ≤ w / 61 := by
  induction l generalizing i with
  | nil => exact div_nonneg hw (by norm_num)
  | cons a l ih =>
    obtain ⟨ha, hl⟩ := List.nodup_cons.mp hnd
    rw [total_votesFrom_cons]
    split
    · next hv =>
      rw [total_votesFrom_of_notMem w (i + 1) (hv ▸ ha), add_zero]
      have hpos : (1 : ℚ) ≤ i := by exact_mod_cast hi
      refine div_le_div_of_nonneg_left hw (by norm_num) ?_
      show (61 : ℚ) ≤ ((60 : ℕ) : ℚ) + i
      push_cast
      linarith
    · rw [zero_add]
      exact ih hl (Nat.le_succ_of_le hi)

/-- a name among the first `n` gets at least what the `n`th place gives -/
theorem le_total_votesFrom {w : ℚ} (hw : 0 ≤ w) {l : List Text} {v : Text} (hv : v ∈ l) {i n : ℕ}
    (hn : i + l.length ≤ n + 1) : w / (RRF_K + n) ≤ total (votesFrom w i l) v := by
  induction l generalizing i with
  | nil => exact absurd hv List.not_mem_nil
  | cons a l ih =>
    rw [List.length_cons] at hn
    rw [total_votesFrom_cons]
    split
    · have hle : (i : ℚ) ≤ n := by exact_mod_cast (show i ≤ n by omega)
      have hplace : w / ((RRF_K : ℚ) + n) ≤ w / (RRF_K + i) := by
        refine div_le_div_of_nonneg_left hw ?_ (by linarith)
        exact add_pos_of_pos_of_nonneg (by norm_num [RRF_K]) (Nat.cast_nonneg i)
      linarith [total_votesFrom_nonneg hw (i + 1) l v]
    · next hne =>
      rw [zero_add]
      exact ih ((List.mem_cons.mp hv).resolve_left fun h => hne h.symm) (by omega)

theorem armWeight_nonneg (a : Arm) : 0 ≤ armWeight a := by
  cases a <;> norm_num [armWeight]

/-- what the rankings give a name together -/
def baseOf (rankings : List (Arm × List Text)) (v : Text) : ℚ :=
  total (rankings.flatMap fun a => votesOf (armWeight a.1) a.2) v

theorem baseOf_cons (a : Arm × List Text) (rankings : List (Arm × List Text)) (v : Text) :
    baseOf (a :: rankings) v = total (votesFrom (armWeight a.1) 1 a.2) v + baseOf rankings v := by
  unfold baseOf
  rw [List.flatMap_cons, total_append]
  rfl

theorem baseOf_append (rs ss : List (Arm × List Text)) (v : Text) : baseOf (rs ++ ss) v = baseOf rs v + baseOf ss v := by
  unfold baseOf
  rw [List.flatMap_append, total_append]

theorem baseOf_nonneg (rankings : List (Arm × List Text)) (v : Text) : 0 ≤ baseOf rankings v := by
  induction rankings with
  | nil => exact le_refl 0
  | cons a rankings ih =>
    rw [baseOf_cons]
    exact add_nonneg (total_votesFrom_nonneg (armWeight_nonneg a.1) 1 a.2 v) ih

theorem baseOf_eq_zero {rankings : List (Arm × List Text)} {v : Text} (h : ∀ a ∈ rankings, v ∉ a.2) :
    baseOf rankings v = 0 := by
  induction rankings with
  | nil => rfl
  | cons a rankings ih =>
    rw [baseOf_cons, total_votesFrom_of_notMem _ 1 (h a List.mem_cons_self),
      ih fun b hb => h b (List.mem_cons_of_mem a hb), add_zero]

theorem le_baseOf {rankings : List (Arm × List Text)} {a : Arm × List Text} (ha : a ∈ rankings)
    (hw : armWeight a.1 = 1) (hlen : a.2.length ≤ CANDIDATE_POOL) {v : Text} (hv : v ∈ a.2) :
    1 / 100 ≤ baseOf rankings v := by
  induction rankings with
  | nil => exact absurd ha List.not_mem_nil
  | cons b rankings ih =>
    rw [baseOf_cons]
    rcases List.mem_cons.mp ha with rfl | ha
    · have hplace := le_total_votesFrom (w := armWeight a.1) (by rw [hw]; norm_num) hv (i := 1) (n := CANDIDATE_POOL)
        (by omega)
      rw [hw] at hplace ⊢
      have hvalue : (1 : ℚ) / (RRF_K + (CANDIDATE_POOL : ℕ)) = 1 / 100 := by norm_num [RRF_K, CANDIDATE_POOL]
      linarith [baseOf_nonneg rankings v]
    · linarith [ih ha, total_votesFrom_nonneg (armWeight_nonneg b.1) 1 b.2 v]

end

section
variable {V : Type*} {R : Runtime} {E : Engine V} {today : Option ℤ} {hints : List Text}

variable (R E today hints) in
/-- the factors of a page, multiplied: the smaller, the better -/
def weightOf (page : Page) : ℚ := ((contractFactors R E today hints page).map Prod.fst).prod

theorem scoreOf_eq (base : ℚ) (factors : List (ℚ × Text)) : scoreOf base factors = base / (factors.map Prod.fst).prod := by
  induction factors generalizing base with
  | nil => exact (div_one base).symm
  | cons f factors ih =>
    show scoreOf (base / f.1) factors = _
    rw [ih, List.map_cons, List.prod_cons, div_div]

theorem weightOf_pos (page : Page) : 0 < weightOf R E today hints page := by
  refine List.prod_pos fun x hx => ?_
  obtain ⟨f, hf, rfl⟩ := List.mem_map.mp hx
  unfold contractFactors at hf
  simp only [List.mem_append, List.mem_map] at hf
  rcases hf with ((hf | ⟨p, -, rfl⟩) | hf) | ⟨u, -, rfl⟩
  · split at hf
    · rw [List.mem_singleton.mp hf]
      norm_num
    · exact absurd hf List.not_mem_nil
  · show (0 : ℚ) < if p.2 = 0 then 1 / 2 else 1
    split <;> norm_num
  · split at hf
    · rw [List.mem_singleton.mp hf]
      norm_num
    · exact absurd hf List.not_mem_nil
  · norm_num

theorem mem_scored {candidates : List (Text × Page)} {rankings : List (Arm × List Text)} {query : Text} {hit : Hit} :
    hit ∈ scored R E today hints candidates rankings query ↔
      ∃ v page, (∃ a ∈ rankings, v ∈ a.2) ∧ candidates.lookup v = some page ∧
        hit = { page := page
                score := baseOf rankings v / weightOf R E today hints page
                arms := (rankings.filter fun a => a.2.contains v).map Prod.fst
                factors := (contractFactors R E today hints page).map Prod.snd
                snippet := E.snippet page.row.body query SNIPPET_CHARS
                summary := []
                fragment := none } := by
  have hvotes : ∀ v, v ∈ (rankings.flatMap fun a => votesOf (armWeight a.1) a.2).map Prod.fst ↔ ∃ a ∈ rankings, v ∈ a.2 :=
    fun v => by
      rw [List.map_flatMap, List.mem_flatMap]
      refine exists_congr fun a => and_congr_right fun _ => ?_
      unfold votesOf
      rw [List.map_map]
      show v ∈ (a.2.zipIdx 1).map Prod.fst ↔ _
      rw [List.zipIdx_map_fst]
  unfold scored rrfFuse
  rw [List.mem_filterMap]
  constructor
  · rintro ⟨⟨v, base⟩, hnamed, hhit⟩
    obtain ⟨hv, rfl⟩ := mem_tally.mp hnamed
    obtain ⟨page, hpage, rfl⟩ := Option.map_eq_some_iff.mp hhit
    refine ⟨v, page, (hvotes v).mp hv, hpage, ?_⟩
    rw [scoreOf_eq]
    rfl
  · rintro ⟨v, page, hv, hpage, rfl⟩
    refine ⟨(v, baseOf rankings v), mem_tally.mpr ⟨(hvotes v).mpr hv, rfl⟩, ?_⟩
    show Option.map _ (candidates.lookup v) = _
    rw [hpage, Option.map_some, scoreOf_eq]
    rfl

variable (R E today hints) in
/-- the hits are the best of what was scored, best first -/
theorem nearest_rank (candidates : List (Text × Page)) (rankings : List (Arm × List Text)) (query : Text) (k : ℕ) :
    ∃ best, Nearest (fun h : Hit => -h.score) k (scored R E today hints candidates rankings query) best ∧
      rank R E today hints candidates rankings query k =
        best.map fun hit => { hit with summary := E.summaryOf hit.page.row.body } := by
  have hsorted : StablySorted Hit.key (· ≤ ·) (scored R E today hints candidates rankings query) _ :=
    stablySorted_insertionSort le_refl le_total (fun _ _ _ => le_trans) _
  refine ⟨_, nearest_take hsorted.perm (hsorted.ordered.imp fun {a b} hab => ?_) k, rfl⟩
  rcases Prod.Lex.toLex_le_toLex.mp hab with hlt | ⟨heq, -⟩
  · exact hlt.le
  · exact heq.le

end

/-! ## The graph behind the retrieval arms -/

section
variable {V : Type*} {R : Runtime} {E : Engine V} {index : Index V} {audiences : Option (List Text)} {filters : Filters}
variable {today : Option ℤ} {hints : List Text} {query : Text} {k : ℕ} {expansion : List Text}

theorem withFragment_page (refs : List (Text × Shown)) (q : Text) (hit : Hit) :
    (withFragment E refs q hit).page = hit.page ∧ (withFragment E refs q hit).score = hit.score ∧
      (withFragment E refs q hit).arms = hit.arms := by
  unfold withFragment
  split
  · exact ⟨rfl, rfl, rfl⟩
  · split
    · exact ⟨rfl, rfl, rfl⟩
    · exact ⟨rfl, rfl, rfl⟩

theorem searchArms_ok {info : Option Meta} {result : Arms}
    (h : searchArms R E index audiences filters today hints query k expansion info = .ok result) :
    ∃ config, result = armsOf R E index audiences filters today hints query k expansion config := by
  unfold searchArms at h
  split at h
  · cases h
  · cases info with
    | none => cases h
    | some m =>
      simp only at h
      split at h
      · cases h
      · exact ⟨m.ftsConfig, (Except.ok.inj h).symm⟩

variable (R E index audiences filters today hints query) in
/-- every page the arms name, scored -/
def allScored (rankings : List (Arm × List Text)) : List Hit :=
  let graph := graphOf R E index audiences filters today hints query rankings
  scored R E today hints (allCandidates R E index audiences rankings graph) (rankings ++ [(.graph, graph)]) query

variable (R E index audiences filters today hints query k expansion) in
/-- the hits of a search are the best that were scored -/
theorem hits_best (config : Text) :
    ∃ best, Nearest (fun h : Hit => -h.score) k (allScored R E index audiences filters today hints query
        (retrieved E index audiences filters hints query expansion config)) best ∧
      (∀ b ∈ best, ∃ hit ∈ (armsOf R E index audiences filters today hints query k expansion config).hits,
        hit.page = b.page ∧ hit.score = b.score) ∧
      ∀ hit ∈ (armsOf R E index audiences filters today hints query k expansion config).hits, ∃ b ∈ best,
        hit.page = b.page ∧ hit.score = b.score ∧ hit.arms = b.arms := by
  obtain ⟨best, hnear, hrank⟩ := nearest_rank R E today hints
    (allCandidates R E index audiences (retrieved E index audiences filters hints query expansion config)
      (graphOf R E index audiences filters today hints query
        (retrieved E index audiences filters hints query expansion config)))
    (retrieved E index audiences filters hints query expansion config ++
      [(.graph, graphOf R E index audiences filters today hints query
        (retrieved E index audiences filters hints query expansion config))]) query k
  refine ⟨best, hnear, fun b hb => ?_, fun hit hhit => ?_⟩
  · refine ⟨_, List.mem_map.mpr ⟨_, hrank.symm ▸ List.mem_map.mpr ⟨b, hb, rfl⟩, rfl⟩, ?_⟩
    exact ⟨(withFragment_page _ _ _).1, (withFragment_page _ _ _).2.1⟩
  · obtain ⟨ranked, hranked, rfl⟩ := List.mem_map.mp hhit
    obtain ⟨b, hb, rfl⟩ := List.mem_map.mp (hrank ▸ hranked)
    exact ⟨b, hb, withFragment_page _ _ _⟩

/-- what only the graph votes for has a small base -/
theorem baseOf_graph_le {rankings : List (Arm × List Text)} {graph : List Text} (hnd : graph.Nodup)
    (harms : ∀ a ∈ rankings, a.1 ≠ .graph) {v : Text}
    (honly : ((rankings ++ [(Arm.graph, graph)]).filter fun a => a.2.contains v).map Prod.fst = [.graph]) :
    baseOf (rankings ++ [(.graph, graph)]) v ≤ 1 / 244 := by
  have hnone : ∀ a ∈ rankings, v ∉ a.2 := fun a ha hv => by
    have hmem : a.1 ∈ ((rankings ++ [(Arm.graph, graph)]).filter fun a => a.2.contains v).map Prod.fst :=
      List.mem_map.mpr ⟨a, List.mem_filter.mpr ⟨List.mem_append_left _ ha, List.contains_iff_mem.mpr hv⟩, rfl⟩
    rw [honly] at hmem
    exact harms a ha (List.mem_singleton.mp hmem)
  have hle := total_votesFrom_le (w := 1 / 4) (by norm_num) hnd v (Nat.le_refl 1)
  rw [baseOf_append, baseOf_eq_zero hnone, zero_add, baseOf_cons]
  show total (votesFrom (1 / 4) 1 graph) v + 0 ≤ 1 / 244
  linarith

/-- a page only the graph found comes after every page a retrieval arm found, unless its factors weigh over
`2.44` times less -/
theorem graph_behind {info : Option Meta} {result : Arms}
    (h : searchArms R E index audiences filters today hints query k expansion info = .ok result)
    {p : Hit} (hp : p ∈ result.hits) (honly : p.arms = [.graph])
    {v : Text} (hv : v ∈ result.fts ∨ v ∈ result.vec ∨ v ∈ result.entity) :
    ∃ page, pageAt R E index audiences v = some page ∧
      (100 * weightOf R E today hints page < 244 * weightOf R E today hints p.page →
        ∃ q ∈ result.hits, q.page = page ∧ p.score < q.score) := by
  obtain ⟨config, rfl⟩ := searchArms_ok h
  have hfound : ∃ a ∈ retrieved E index audiences filters hints query expansion config, v ∈ a.2 := by
    rcases hv with hv | hv | hv
    · exact ⟨_, List.mem_cons_self, hv⟩
    · exact ⟨_, List.mem_cons_of_mem _ List.mem_cons_self, hv⟩
    · exact ⟨_, List.mem_cons_of_mem _ (List.mem_cons_of_mem _ List.mem_cons_self), hv⟩
  obtain ⟨best, hnear, hshown, hfrom⟩ := hits_best R E index audiences filters today hints query k expansion config
  obtain ⟨a, ha, hva⟩ := hfound
  obtain ⟨hweight, -, hlength, hvisible⟩ := mem_retrieved ha
  obtain ⟨page, hpage⟩ := exists_pageAt (R := R) (E := E) (hvisible v hva)
  refine ⟨page, hpage, fun hfactors => ?_⟩
  obtain ⟨b, hb, hbpage, hbscore, hbarms⟩ := hfrom p hp
  obtain ⟨w, wpage, -, -, hbeq⟩ := mem_scored.mp (hnear.mem hb)
  rw [hbeq] at hbpage hbscore hbarms
  have hsmall := baseOf_graph_le (nodup_firsts _) (fun a ha => (mem_retrieved ha).2.1) (hbarms.symm.trans honly)
  have hlookup : (allCandidates R E index audiences (retrieved E index audiences filters hints query expansion config)
      (graphOf R E index audiences filters today hints query
        (retrieved E index audiences filters hints query expansion config))).lookup v = some page :=
    lookup_allCandidates_of_mem ha hva hpage
  obtain ⟨q, hq, hqpage, hqscore⟩ : ∃ q ∈ allScored R E index audiences filters today hints query
      (retrieved E index audiences filters hints query expansion config), q.page = page ∧ 1 / 100 / weightOf R E today hints page ≤ q.score := by
    refine ⟨_, mem_scored.mpr ⟨v, page, ⟨a, List.mem_append_left _ ha, hva⟩, hlookup, rfl⟩, rfl, ?_⟩
    refine div_le_div_of_nonneg_right ?_ (weightOf_pos page).le
    rw [baseOf_append]
    linarith [le_baseOf ha hweight hlength hva, baseOf_nonneg [(Arm.graph, graphOf R E index audiences filters today hints
      query (retrieved E index audiences filters hints query expansion config))] v]
  have hlt : p.score < q.score := by
    have hWp : 0 < weightOf R E today hints wpage := weightOf_pos wpage
    have hWq : 0 < weightOf R E today hints page := weightOf_pos page
    rw [hbpage] at hfactors
    have hle : p.score ≤ 1 / 244 / weightOf R E today hints wpage := by
      rw [hbscore]
      exact div_le_div_of_nonneg_right hsmall hWp.le
    have hstep : (1 : ℚ) / 244 / weightOf R E today hints wpage < 1 / 100 / weightOf R E today hints page := by
      rw [div_lt_div_iff₀ hWp hWq]
      linarith
    exact lt_of_le_of_lt hle (lt_of_lt_of_le hstep hqscore)
  by_cases hqbest : q ∈ best
  · obtain ⟨hit, hhit, hsame, hscore⟩ := hshown q hqbest
    exact ⟨hit, hhit, hsame.trans hqpage, by rw [hscore]; exact hlt⟩
  · have hbehind := (hnear.left_out hq hqbest).2 b hb
    rw [hbeq, ← hbscore] at hbehind
    linarith

end

theorem graph_behind_layered :
    ∃ p ∈ found.hits, p.arms = [.graph] ∧
      ∃ page, pageAt ascii plain layered (some []) "notes/acme.md".toList = some page ∧
        (100 * weightOf ascii plain none [] page < 244 * weightOf ascii plain none [] p.page →
          ∃ q ∈ found.hits, q.page = page ∧ p.score < q.score) := by
  have hsome : (found.hits.any fun p => p.arms == [.graph]) = true := by decide +kernel
  obtain ⟨p, hp, harms⟩ := List.any_eq_true.mp hsome
  have hfts : "notes/acme.md".toList ∈ found.fts := by decide +kernel
  exact ⟨p, hp, beq_iff_eq.mp harms, graph_behind searchArms_layered hp (beq_iff_eq.mp harms) (Or.inl hfts)⟩

/-! ## Opening what a hit names -/

section

theorem head_toDigits {n : ℕ} (hn : 0 < n) : (Nat.toDigits 10 n).head?.any Fragments.isNonzero = true := by
  induction n using Nat.strongRecOn with
  | ind n ih =>
    by_cases hlt : n < 10
    · rw [Nat.toDigits_of_lt_base hlt]
      have hall : ∀ m < 10, 0 < m → Fragments.isNonzero m.digitChar = true := by decide
      exact hall n hlt hn
    · have hq : 0 < n / 10 := Nat.div_pos (by omega) (by omega)
      rw [Nat.toDigits_of_base_le (by omega) (by omega)]
      have hhead := ih (n / 10) (by omega) hq
      cases hdigits : Nat.toDigits 10 (n / 10) with
      | nil => exact absurd hdigits Nat.toDigits_ne_nil
      | cons c t =>
        rw [hdigits] at hhead
        exact hhead

theorem mem_toDigits {n : ℕ} {c : Char} (h : c ∈ Nat.toDigits 10 n) : '0' ≤ c ∧ c ≤ '9' := by
  have hdigit := Nat.isDigit_of_mem_toDigits (by omega) (Nat.le_refl 10) h
  unfold Char.isDigit at hdigit
  rw [Bool.and_eq_true, decide_eq_true_eq, decide_eq_true_eq] at hdigit
  exact hdigit

/-- a fragment of a page is named so that the name is read back, up to the millionth -/
theorem parseReference_reference {path : Text} (hmd : Text.endsWith ".md".toList path = true) (hlong : 3 < path.length)
    (hline : '\n' ∉ path) {n : ℕ} (hn : 0 < n) (hsmall : n < 1000000) :
    Fragments.parseReference (reference path n) = (path, some n) := by
  have hdigits : (toString n).toList = Nat.toDigits 10 n := Nat.toList_repr
  have hhash : ∀ c ∈ Nat.toDigits 10 n, (c != '#') = true := fun c hc => by
    rw [bne_iff_ne]
    rintro rfl
    exact absurd (mem_toDigits hc) (by decide)
  have hlast : (reference path n).getLast? ≠ some '\n' := fun h => by
    unfold reference at h
    rw [hdigits, List.getLast?_append_of_ne_nil _ (List.cons_ne_nil _ _),
      List.getLast?_cons_of_ne_nil Nat.toDigits_ne_nil] at h
    exact absurd (mem_toDigits (List.mem_of_getLast? h)) (by decide)
  have hreverse : (reference path n).reverse = (Nat.toDigits 10 n).reverse ++ '#' :: path.reverse := by
    unfold reference
    rw [hdigits, List.reverse_append, List.reverse_cons, List.append_assoc]
    rfl
  have hrev : ∀ c ∈ (Nat.toDigits 10 n).reverse, (c != '#') = true := fun c hc => hhash c (List.mem_reverse.mp hc)
  have hnumber : (reference path n).rtakeWhile (· != '#') = Nat.toDigits 10 n := by
    unfold List.rtakeWhile
    rw [hreverse, List.takeWhile_append_of_pos hrev, List.takeWhile_cons_of_neg (by decide), List.append_nil,
      List.reverse_reverse]
  have hpath : (reference path n).rdropWhile (· != '#') = path ++ ['#'] := by
    unfold List.rdropWhile
    rw [hreverse, List.dropWhile_append_of_pos hrev, List.dropWhile_cons_of_neg (by decide), List.reverse_cons,
      List.reverse_reverse]
  have hcontains : List.contains (reference path n) '#' = true :=
    List.contains_iff_mem.mpr (List.mem_append_right _ List.mem_cons_self)
  have hdecimal : ((Nat.toDigits 10 n).all fun c => Fragments.isNonzero c || c == '0') = true := by
    refine List.all_eq_true.mpr fun c hc => ?_
    obtain ⟨hlow, hhigh⟩ := mem_toDigits hc
    by_cases hzero : c = '0'
    · rw [hzero]
      rfl
    · have hone : '1' ≤ c := by
        have hne : c.toNat ≠ 48 := fun h => hzero (Char.toNat_inj.mp h)
        have hle : 48 ≤ c.toNat := hlow
        show 49 ≤ c.toNat
        omega
      simp [Fragments.isNonzero, hone, hhigh]
  have hlength : (Nat.toDigits 10 n).length ≤ 6 := (Nat.length_toDigits_le_iff (by omega) (by omega)).mpr hsmall
  have hvalue : (Nat.toDigits 10 n).foldl (fun n c => 10 * n + (c.toNat - 48)) 0 = n := Nat.ofDigitChars_ten_toDigits
  unfold Fragments.parseReference
  rw [if_neg hlast]
  simp only [hnumber, hpath, List.dropLast_concat, hcontains, hmd, hdecimal, head_toDigits hn, hvalue]
  simp [hlong, hline, hlength]

end

section
variable {V : Type*} {R : Runtime} {E : Engine V} {index : Index V} {audiences : Option (List Text)} {filters : Filters}
variable {today : Option ℤ} {hints : List Text} {query : Text} {k : ℕ} {expansion : List Text}

theorem mem_numberedOf {vpath : Text} {p : Stored V × ℕ} (h : p ∈ numberedOf E index audiences vpath) :
    p.1 ∈ visibleFragments index audiences ∧ p.1.vpath = vpath ∧ 1 ≤ p.2 ∧
      p.2 ≤ (numberedOf E index audiences vpath).length := by
  have hmem := Keyset.mem_ordered.mp (List.fst_mem_of_mem_zipIdx h)
  obtain ⟨hvisible, hpage⟩ := List.mem_filter.mp hmem
  have hlt := List.snd_lt_add_of_mem_zipIdx h
  refine ⟨hvisible, beq_iff_eq.mp hpage, List.le_snd_of_mem_zipIdx h, ?_⟩
  unfold numberedOf
  rw [List.length_zipIdx]
  omega

/-- a numbered fragment opens: the window at its number holds it -/
theorem fragmentWindow_of_mem {vpath : Text} {p : Stored V × ℕ} (h : p ∈ numberedOf E index audiences vpath) :
    ∃ window, fragmentWindow E index audiences vpath p.2 =
        some (window, (numberedOf E index audiences vpath).length) ∧
      shown (numberedOf E index audiences vpath).length p ∈ window := by
  have hnear : shown (numberedOf E index audiences vpath).length p ∈
      ((numberedOf E index audiences vpath).filter fun q => p.2 - 1 ≤ q.2 && q.2 ≤ p.2 + 1).map
        (shown (numberedOf E index audiences vpath).length) := by
    refine List.mem_map.mpr ⟨p, List.mem_filter.mpr ⟨h, ?_⟩, rfl⟩
    rw [Bool.and_eq_true, decide_eq_true_eq, decide_eq_true_eq]
    omega
  refine ⟨_, if_pos (List.any_eq_true.mpr ⟨_, hnear, ?_⟩), hnear⟩
  exact beq_self_eq_true _

theorem mem_of_lookup {α β : Type*} [BEq α] [LawfulBEq α] {l : List (α × β)} {a : α} {b : β} (h : l.lookup a = some b) :
    (a, b) ∈ l := by
  obtain ⟨l₁, l₂, rfl, -⟩ := List.lookup_eq_some_iff.mp h
  exact List.mem_append_right _ List.mem_cons_self

/-- what `fragment_refs` says of a page is one of its numbered fragments, at the place it was given -/
theorem mem_fragmentRefs {best : List (Text × Text × ℕ)} {v : Text} {ref : Shown}
    (h : (fragmentRefs E index audiences best).lookup v = some ref) :
    ∃ p ∈ numberedOf E index audiences v, (v, p.1.path, p.1.ordinal) ∈ best ∧
      ref = shown (numberedOf E index audiences v).length p := by
  obtain ⟨b, hb, hfound⟩ := List.mem_filterMap.mp (mem_of_lookup h)
  obtain ⟨p, hp, heq⟩ := Option.map_eq_some_iff.mp hfound
  obtain ⟨rfl, rfl⟩ := Prod.mk.inj heq
  have hmatch := List.find?_some hp
  have hplace : (p.1.path, p.1.ordinal) = b.2 := beq_iff_eq.mp hmatch
  refine ⟨p, List.mem_of_find?_eq_some hp, ?_, rfl⟩
  rw [hplace]
  exact hb

theorem fragment_scored {candidates : List (Text × Page)} {rankings : List (Arm × List Text)} {hit : Hit}
    (h : hit ∈ rank R E today hints candidates rankings query k) : hit.fragment = none := by
  obtain ⟨b, hb, rfl⟩ := List.mem_map.mp h
  obtain ⟨v, page, -, -, rfl⟩ := mem_scored.mp ((List.mem_insertionSort _).mp (List.mem_of_mem_take hb))
  rfl

end

end Retrieval
