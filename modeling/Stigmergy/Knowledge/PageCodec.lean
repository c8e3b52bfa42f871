import Stigmergy.Lib.Checks
import Stigmergy.Kernel.Ascii
import Stigmergy.Knowledge.Pages

/-!
# Knowledge pages, rendered and parsed

`render_page` and `render_like` against `parse_page`, from `knowledge/pages.py`.

* `rendered`            `render_page`, with the id and the days it fills in;
* `Accepted`            what the contract says of a page that parses;
* `parsePage_rendered`  a rendered page is parsed to the record it was rendered from;
* `renderPage_settled`  a page with its heading is rendered to the same text again;
* `codec`               both ways.
-/

set_option linter.unusedSectionVars false

/-! ## front matter -/

namespace Metadata

theorem get_cons (e : Text × Yaml) (m : Metadata) (key : String) :
    Metadata.get (e :: m) key = if e.1 = key.toList then e.2 else m.get key := by
  rw [Metadata.get, List.find?_cons]
  by_cases h : e.1 = key.toList
  · rw [if_pos h, beq_iff_eq.mpr h]
    rfl
  · rw [if_neg h, beq_false_of_ne h]
    rfl

end Metadata

namespace Pages

open Corpus

/-- distinct trimmed strings that are not blank -/
structure Labels (ss : List Text) : Prop where
  nodup : ss.Nodup
  trimmed : ∀ s ∈ ss, Text.strip s = s
  shown : ∀ s ∈ ss, Text.isBlank s = false

theorem asStrings_map {ss : List Text} (h : ∀ s ∈ ss, Text.isBlank s = false) : asStrings (ss.map .str) = some ss := by
  induction ss with
  | nil => rfl
  | cons s ss ih =>
    rw [List.map_cons, asStrings, h s List.mem_cons_self, ih fun t ht => h t (List.mem_cons_of_mem s ht)]
    rfl

theorem asStrings_shown {vs : List Yaml} {ss : List Text} (h : asStrings vs = some ss) :
    ∀ s ∈ ss, Text.isBlank s = false := by
  induction vs generalizing ss with
  | nil =>
    obtain rfl := Option.some.inj h
    exact fun s hs => absurd hs List.not_mem_nil
  | cons v vs ih =>
    cases v with
    | str t =>
      rw [asStrings] at h
      by_cases hblank : Text.isBlank t = true
      · rw [if_pos hblank] at h
        exact nomatch h
      · rw [if_neg hblank] at h
        obtain ⟨rest, hrest, rfl⟩ := Option.map_eq_some_iff.mp h
        intro s hs
        rcases List.mem_cons.mp hs with rfl | hs
        · exact Bool.eq_false_iff.mpr hblank
        · exact ih hrest s hs
    | null => exact nomatch h
    | date day shown => exact nomatch h
    | list items shown => exact nomatch h
    | map isEmpty shown => exact nomatch h
    | scalar truthy shown => exact nomatch h

theorem strings_map {ss : List Text} (h : Labels ss) (shown : Text) (field : String) :
    strings (.list (ss.map .str) shown) field = .ok ss := by
  have hmap : ss.map Text.strip = ss := (List.map_congr_left h.trimmed).trans (List.map_id ss)
  rw [strings, asStrings_map h.shown]
  dsimp only
  rw [hmap, if_pos h.nodup]

theorem labels_of_strings {v : Yaml} {field : String} {ss : List Text} (h : strings v field = .ok ss) : Labels ss := by
  unfold strings at h
  split at h
  · split at h
    · next found hfound =>
      dsimp only at h
      by_cases hnodup : (found.map Text.strip).Nodup
      · rw [if_pos hnodup] at h
        obtain rfl := Except.ok.inj h
        refine ⟨hnodup, fun s hs => ?_, fun s hs => ?_⟩
        · obtain ⟨t, -, rfl⟩ := List.mem_map.mp hs
          exact Text.strip_strip t
        · obtain ⟨t, ht, rfl⟩ := List.mem_map.mp hs
          exact Text.isBlank_strip (asStrings_shown hfound t ht)
      · rw [if_neg hnodup] at h
        exact nomatch h
    · exact nomatch h
  · exact nomatch h

theorem stringsOrNone_map {ss : List Text} (h : Labels ss) (hne : ss ≠ []) (shown : Text) (field : String) :
    stringsOrNone (.list (ss.map .str) shown) field = .ok (some ss) := by
  rw [stringsOrNone, strings_map h]
  · cases ss with
    | nil => exact absurd rfl hne
    | cons s ss => rfl
  · exact nofun

theorem labels_of_stringsOrNone {v : Yaml} {field : String} {acl : Option (List Text)}
    (h : stringsOrNone v field = .ok acl) {ss : List Text} (hss : acl = some ss) : ss ≠ [] ∧ Labels ss := by
  unfold stringsOrNone at h
  split at h
  · rw [← Except.ok.inj h] at hss
    exact nomatch hss
  · split at h
    · exact nomatch h
    · exact nomatch h
    · next found hne hfound =>
      rw [← Except.ok.inj h] at hss
      obtain rfl := Option.some.inj hss
      exact ⟨hne, labels_of_strings hfound⟩

/-! ## titles and aliases -/

section
variable {R : Runtime}

theorem pagePath_oneLine {role : Role} (title : Text) :
    pagePath R role (Text.oneLine title) = pagePath R role title := by
  unfold pagePath titleStem
  rw [Text.oneLine_oneLine]

variable (R) in
/-- what `_aliases` asks of collapsed aliases -/
structure Aliases (title : Text) (aliases : List Text) : Prop where
  searchable : ∀ a ∈ aliases, (resolutionKey R a).any R.isAlnum = true
  nodup : (aliases.map (resolutionKey R)).Nodup
  title : resolutionKey R title ∉ aliases.map (resolutionKey R)

theorem checkAliases_eq_ok {values aliases : List Text} {title : Text} :
    checkAliases R values title = .ok aliases ↔ aliases = values.map Text.oneLine ∧ Aliases R title aliases := by
  unfold checkAliases
  dsimp only
  constructor
  · intro h
    obtain ⟨hsearch, h⟩ := Checks.of_ite_error h
    obtain ⟨hnodup, h⟩ := Checks.of_ite_error h
    obtain rfl := Except.ok.inj h
    rw [not_or, not_not] at hnodup
    refine ⟨rfl, fun a ha => ?_, hnodup.1, hnodup.2⟩
    by_contra hnot
    refine hsearch (List.any_eq_true.mpr ⟨_, List.mem_map_of_mem ha, ?_⟩)
    rw [Bool.not_eq_true', Bool.eq_false_iff]
    exact hnot
  · rintro ⟨rfl, hsearch, hnodup, htitle⟩
    rw [if_neg, if_neg (not_or.mpr ⟨not_not.mpr hnodup, htitle⟩)]
    rw [Bool.not_eq_true, List.any_eq_false]
    intro key hkey
    obtain ⟨a, ha, rfl⟩ := List.mem_map.mp hkey
    rw [Bool.not_eq_true', hsearch a ha]
    exact Bool.noConfusion

theorem map_oneLine_map (values : List Text) :
    (values.map Text.oneLine).map Text.oneLine = values.map Text.oneLine := by
  rw [List.map_map]
  exact List.map_congr_left fun v _ => Text.oneLine_oneLine v

/-- aliases with searchable text are labels -/
theorem labels_of_aliases (hnfkd : R.nfkdAscii [] = []) (hlower : R.lower [] = []) {title : Text}
    {values : List Text} (h : Aliases R title (values.map Text.oneLine)) : Labels (values.map Text.oneLine) := by
  refine ⟨List.Nodup.of_map _ h.nodup, fun s hs => ?_, fun s hs => ?_⟩
  · obtain ⟨v, -, rfl⟩ := List.mem_map.mp hs
    exact Text.strip_oneLine v
  · have hany := h.searchable s hs
    obtain ⟨v, -, rfl⟩ := List.mem_map.mp hs
    rw [Bool.eq_false_iff]
    intro hblank
    have hnil : Text.oneLine v = [] := by
      rw [← Text.oneLine_oneLine, Text.oneLine, Text.words_blank hblank]
      rfl
    rw [hnil, resolutionKey, hnfkd, hlower] at hany
    cases hany

/-! ## rendered, then parsed -/

/-- the id and the days of a page, filled in where the call gives none -/
def filled (uuid today : Text) (pageId created updated : Option Text) (p : KnowledgePage) : KnowledgePage :=
  { p with
    pageId := if (pageId.getD []).isEmpty then "page_".toList ++ uuid else pageId.getD []
    created := created.getD today
    updated := updated.getD today }

variable (R) in
/-- `render_page` -/
def rendered (uuid today : Text) (pageId created updated : Option Text) (p : KnowledgePage) : Except Text Text :=
  renderPage R (filled uuid today pageId created updated p)

variable (R) in
/-- an id, days and lists that are read as they are written -/
structure Given (p : KnowledgePage) : Prop where
  pageId : Text.strip p.pageId = p.pageId ∧ p.pageId ≠ []
  created : R.isoDate p.created = some p.created
  updated : R.isoDate p.updated = some p.updated
  acl : ∀ labels, p.acl = some labels → labels ≠ [] ∧ Labels labels
  sources : Labels p.sources

/-- white space collapsed in the names, and the body with its heading -/
def collapsed (p : KnowledgePage) : KnowledgePage :=
  { p with
    title := Text.oneLine p.title
    aliases := p.aliases.map Text.oneLine
    body := withHeading (Text.oneLine p.title) p.body }

theorem firsts_of_nodup {ss : List Text} (h : ss.Nodup) : firsts ss = ss := by
  rw [firsts, List.dedup_eq_self.mpr (List.nodup_reverse.mpr h), List.reverse_reverse]

theorem contractFields_metadataOf {p : KnowledgePage} (hstatus : p.status ∈ STATUSES) (entity : Metadata) :
    contractFields (metadataOf R p entity) = some (p.role, Text.oneLine p.title, p.status) := by
  have hrole : (ROLES.find? fun role => some p.role.name == some role.name) = some p.role := by
    cases p.role <;> decide
  have htype : (metadataOf R p entity).get "type" = .str p.role.name := rfl
  have htitle : (metadataOf R p entity).get "title" = .str (Text.oneLine p.title) := rfl
  have hshown : (metadataOf R p entity).get "status" = .str p.status := rfl
  unfold contractFields
  rw [htype, htitle, hshown]
  dsimp only [Yaml.asStr]
  rw [hrole]
  dsimp only
  rw [if_pos hstatus]

/-- the audience is read as it was given -/
theorem acl_metadataOf {p : KnowledgePage} (h : ∀ labels, p.acl = some labels → labels ≠ [] ∧ Labels labels)
    (entity : Metadata) : stringsOrNone ((metadataOf R p entity).get "acl") "acl" = .ok p.acl := by
  cases hacl : p.acl with
  | none =>
    have hget : (metadataOf R p entity).get "acl" = .null := by
      unfold metadataOf
      rw [hacl]
      rfl
    rw [hget]
    rfl
  | some labels =>
    have hget : (metadataOf R p entity).get "acl" = ofList R labels := by
      unfold metadataOf
      rw [hacl]
      rfl
    obtain ⟨hne, hlabels⟩ := h labels hacl
    rw [hget]
    exact stringsOrNone_map hlabels hne _ _

theorem sources_metadataOf {p : KnowledgePage} (h : Labels p.sources) (entity : Metadata) :
    strings ((metadataOf R p entity).get "sources") "sources" = .ok p.sources := by
  have hget : (metadataOf R p entity).get "sources" = ofList R (firsts p.sources) := rfl
  rw [hget, firsts_of_nodup h.nodup]
  exact strings_map h _ _

theorem checkEntityType_eq_ok {v : Option Text} {entityType : Text} (h : checkEntityType v = .ok entityType) :
    v = some entityType ∧ checkEntityType (some entityType) = .ok entityType := by
  unfold checkEntityType at h
  split at h
  · split at h
    · next hmem =>
      obtain rfl := Except.ok.inj h
      exact ⟨rfl, if_pos hmem⟩
    · exact nomatch h
  · exact nomatch h

/-- the entity type and the aliases are read as they were written -/
theorem parseEntity_metadataOf (hnfkd : R.nfkdAscii [] = []) (hlower : R.lower [] = []) {p : KnowledgePage}
    {entity : Metadata} (h : entityFields R p = .ok entity) :
    parseEntity R (metadataOf R p entity) p.role (Text.oneLine p.title) =
      .ok (p.entityType, p.aliases.map Text.oneLine) := by
  unfold entityFields at h
  unfold parseEntity
  by_cases hrole : p.role = .entity
  · rw [if_pos hrole] at h ⊢
    split at h
    · exact nomatch h
    next entityType hentity =>
    split at h
    · exact nomatch h
    next aliases haliases =>
    obtain rfl := Except.ok.inj h
    obtain ⟨htype, hagain⟩ := checkEntityType_eq_ok hentity
    obtain ⟨rfl, hfit⟩ := checkAliases_eq_ok.mp haliases
    have hget : (metadataOf R p [("entity_type".toList, .str entityType),
        ("aliases".toList, ofList R (p.aliases.map Text.oneLine))]).get "entity_type" = .str entityType := rfl
    have hnames : (metadataOf R p [("entity_type".toList, .str entityType),
        ("aliases".toList, ofList R (p.aliases.map Text.oneLine))]).get "aliases" =
          ofList R (p.aliases.map Text.oneLine) := rfl
    rw [hget, hnames, Yaml.asStr, hagain]
    dsimp only
    rw [ofList, strings_map (labels_of_aliases hnfkd hlower hfit)]
    dsimp only
    rw [checkAliases_eq_ok.mpr ⟨(map_oneLine_map p.aliases).symm, hfit⟩, htype]
  · rw [if_neg hrole] at h ⊢
    obtain ⟨hnone, h⟩ := Checks.of_ite_error h
    obtain rfl := Except.ok.inj h
    rw [Bool.or_eq_true, not_or, Bool.not_eq_true, Option.isSome_eq_false_iff, Bool.not_eq_true',
      Bool.not_eq_false, Option.isNone_iff_eq_none, List.isEmpty_iff] at hnone
    have hhas : (Metadata.has (metadataOf R p []) "entity_type" || Metadata.has (metadataOf R p []) "aliases") = false :=
      rfl
    rw [hhas, hnone.1, hnone.2]
    rfl

theorem parseDay_metadataOf (p : KnowledgePage) (entity : Metadata) :
    parseDay R (metadataOf R p entity) "created" = R.isoDate p.created ∧
      parseDay R (metadataOf R p entity) "updated" = R.isoDate p.updated := ⟨rfl, rfl⟩

/-! ### the body -/

theorem withHeading_cases (title body : Text) :
    withHeading title body = Text.strip body ∨
      withHeading title body = "# ".toList ++ title ++ "\n\n".toList ++ Text.strip body := by
  unfold withHeading
  dsimp only
  split
  · exact Or.inl rfl
  · exact Or.inr rfl

theorem strip_withHeading (title : Text) {body : Text} (h : Text.isBlank body = false) :
    Text.strip (withHeading title body) = withHeading title body := by
  rcases withHeading_cases title body with he | he
  · rw [he, Text.strip_strip]
  · have hsplit : withHeading title body = '#' :: ((" ".toList ++ title ++ "\n\n".toList) ++ Text.strip body) := by
      rw [he]
      rfl
    rw [hsplit, Text.strip, Text.lstrip_eq_self rfl, ← List.cons_append,
      Text.rstrip_append_of_ne (Text.isBlank_strip h)]
    have hrstrip : Text.rstrip (Text.strip body) = Text.strip body := Text.rstrip_rstrip (Text.lstrip body)
    rw [hrstrip]

theorem startsWith_withHeading (title body : Text) : Text.startsWith "# ".toList (withHeading title body) = true := by
  by_cases h : Text.startsWith "# ".toList (Text.strip body) = true
  · have he : withHeading title body = Text.strip body := if_pos h
    rw [he, h]
  · have he : withHeading title body = "# ".toList ++ title ++ "\n\n".toList ++ Text.strip body := if_neg h
    rw [he]
    rfl

/-- the heading is added once -/
theorem withHeading_withHeading (title other : Text) {body : Text} (h : Text.isBlank body = false) :
    withHeading other (withHeading title body) = withHeading title body := by
  have hstrip := strip_withHeading title h
  have hhead : Text.startsWith "# ".toList (Text.strip (withHeading title body)) = true := by
    rw [hstrip]
    exact startsWith_withHeading title body
  have he : withHeading other (withHeading title body) = Text.strip (withHeading title body) := if_pos hhead
  rw [he, hstrip]

theorem isBlank_withHeading (title : Text) {body : Text} (h : Text.isBlank body = false) :
    Text.isBlank (withHeading title body) = false := by
  rcases withHeading_cases title body with he | he
  · rw [he]
    exact Text.isBlank_strip h
  · rw [he]
    exact Text.not_blank_cons rfl _

/-- the line breaks around a body are outer blank space -/
theorem strip_between (t : Text) : Text.strip ('\n' :: t ++ ['\n']) = Text.strip t := by
  have hblank : Text.isBlank ['\n'] = true := rfl
  have hleft : Text.lstrip ('\n' :: t ++ ['\n']) = Text.lstrip (t ++ ['\n']) :=
    Text.lstrip_append_of_blank hblank
  rw [Text.strip, hleft]
  show Text.strip (t ++ ['\n']) = _
  rw [← Text.strip_rstrip, Text.rstrip_append_blank hblank, Text.strip_rstrip]

/-! ### the record -/

/-- a rendered page is parsed to the record it was rendered from -/
theorem parsePage_renderPage (hnfkd : R.nfkdAscii [] = []) (hlower : R.lower [] = []) {p : KnowledgePage}
    {text : Text} (h : renderPage R p = .ok text) (hgiven : Given R p) :
    parsePage R p.path text = .ok (collapsed p) := by
  obtain ⟨entity, hentity, hpath, hstatus, hbody, rfl⟩ := renderPage_eq_ok R h
  have hempty : (metadataOf R p entity).isEmpty = false := rfl
  have hid : (Metadata.get (metadataOf R p entity) "id").orEmpty = p.pageId := by
    have hget : (metadataOf R p entity).get "id" = .str p.pageId := rfl
    have htruthy : (Yaml.str p.pageId).truthy = true := by
      show (!p.pageId.isEmpty) = true
      rw [List.isEmpty_eq_false_iff.mpr hgiven.pageId.2]
      rfl
    rw [hget, Yaml.orEmpty, if_pos htruthy]
    rfl
  have hblank : Text.isBlank ('\n' :: withHeading (Text.oneLine p.title) p.body ++ ['\n']) = false := by
    rw [List.cons_append, ← List.singleton_append, Text.isBlank_append, Text.isBlank_append,
      isBlank_withHeading _ hbody, Bool.false_and, Bool.and_false]
  have hfilled : p.pageId.isEmpty = false := List.isEmpty_eq_false_iff.mpr hgiven.pageId.2
  unfold parsePage
  rw [splitFrontmatter_withFrontMatter R (plain_metadataOf R hentity)]
  dsimp only
  rw [hempty, Bool.or_false, if_neg Bool.false_ne_true, contractFields_metadataOf hstatus]
  dsimp only
  rw [pagePath_oneLine, hpath]
  dsimp only
  rw [if_neg (not_not.mpr rfl)]
  unfold parseFields
  rw [acl_metadataOf hgiven.acl, sources_metadataOf hgiven.sources, parseEntity_metadataOf hnfkd hlower hentity,
    (parseDay_metadataOf p entity).1, (parseDay_metadataOf p entity).2, hgiven.created, hgiven.updated]
  dsimp only
  rw [hid, hgiven.pageId.1, hfilled, hblank, Bool.or_false, if_neg Bool.false_ne_true, strip_between,
    strip_withHeading _ hbody, Text.oneLine_oneLine]
  rfl

theorem renderPage_of {p : KnowledgePage} {entity : Metadata} (hentity : entityFields R p = .ok entity)
    (hpath : pagePath R p.role p.title = .ok p.path) (hstatus : p.status ∈ STATUSES)
    (hbody : Text.isBlank p.body = false) :
    renderPage R p = .ok (withFrontMatter R (metadataOf R p entity)
      ('\n' :: withHeading (Text.oneLine p.title) p.body ++ ['\n'])) := by
  unfold renderPage
  rw [hpath]
  dsimp only
  rw [if_neg (not_not.mpr rfl), if_neg (not_not.mpr hstatus), hentity]
  dsimp only
  rw [hbody, if_neg Bool.false_ne_true]

/-- rendering what was parsed gives the same text -/
theorem renderPage_collapsed {p : KnowledgePage} {text : Text} (h : renderPage R p = .ok text) :
    renderPage R (collapsed p) = .ok text := by
  obtain ⟨entity, hentity, hpath, hstatus, hbody, rfl⟩ := renderPage_eq_ok R h
  have hfields : entityFields R (collapsed p) = .ok entity := by
    rw [← hentity]
    unfold entityFields collapsed
    dsimp only
    rw [Text.oneLine_oneLine, List.isEmpty_map]
    unfold checkAliases
    rw [map_oneLine_map]
  have hmetadata : metadataOf R (collapsed p) entity = metadataOf R p entity := by
    unfold metadataOf collapsed
    dsimp only
    rw [Text.oneLine_oneLine]
  have hown : pagePath R (collapsed p).role (collapsed p).title = .ok (collapsed p).path :=
    (pagePath_oneLine p.title).trans hpath
  have hheading : withHeading (Text.oneLine (collapsed p).title) (collapsed p).body =
      withHeading (Text.oneLine p.title) p.body := withHeading_withHeading _ _ hbody
  rw [renderPage_of hfields hown hstatus (isBlank_withHeading _ hbody), hheading, hmetadata]

/-! ## parsed, then rendered -/

variable (R) in
/-- what the contract says of a page that parses -/
structure Accepted (path : Text) (p : KnowledgePage) : Prop where
  place : p.path = path
  own : pagePath R p.role p.title = .ok path
  title : Text.oneLine p.title = p.title
  status : p.status ∈ STATUSES
  entityType : p.role = .entity → checkEntityType p.entityType = .ok (p.entityType.getD [])
  aliases : p.role = .entity → ∃ title, p.title = Text.oneLine title ∧ Aliases R title p.aliases
  plain : p.role ≠ .entity → p.entityType = none ∧ p.aliases = []
  collapsed : p.aliases.map Text.oneLine = p.aliases
  body : Text.isBlank p.body = false ∧ Text.strip p.body = p.body
  pageId : Text.strip p.pageId = p.pageId ∧ p.pageId ≠ []
  created : ∃ t, R.isoDate t = some p.created
  updated : ∃ t, R.isoDate t = some p.updated
  acl : ∀ labels, p.acl = some labels → labels ≠ [] ∧ Labels labels
  sources : Labels p.sources

/-- a page that parses is read as it is written -/
theorem Accepted.given (hday : ∀ t d, R.isoDate t = some d → R.isoDate d = some d) {path : Text} {p : KnowledgePage}
    (h : Accepted R path p) : Given R p := by
  obtain ⟨created, hcreated⟩ := h.created
  obtain ⟨updated, hupdated⟩ := h.updated
  exact ⟨h.pageId, hday _ _ hcreated, hday _ _ hupdated, h.acl, h.sources⟩

theorem parseEntity_eq_ok {metadata : Metadata} {role : Role} {title : Text} {entityType : Option Text}
    {aliases : List Text} (h : parseEntity R metadata role title = .ok (entityType, aliases)) :
    (role = .entity → checkEntityType entityType = .ok (entityType.getD []) ∧ Aliases R title aliases) ∧
      (role ≠ .entity → entityType = none ∧ aliases = []) ∧ aliases.map Text.oneLine = aliases := by
  unfold parseEntity at h
  by_cases hrole : role = .entity
  · rw [if_pos hrole] at h
    split at h
    · exact nomatch h
    next found hfound =>
    split at h
    · exact nomatch h
    next values hvalues =>
    split at h
    · exact nomatch h
    next names hnames =>
    obtain ⟨rfl, rfl⟩ := Prod.mk.inj (Except.ok.inj h)
    obtain ⟨rfl, hfit⟩ := checkAliases_eq_ok.mp hnames
    exact ⟨fun _ => ⟨(checkEntityType_eq_ok hfound).2, hfit⟩, fun hne => absurd hrole hne, map_oneLine_map values⟩
  · rw [if_neg hrole] at h
    obtain ⟨-, h⟩ := Checks.of_ite_error h
    obtain ⟨rfl, rfl⟩ := Prod.mk.inj (Except.ok.inj h)
    exact ⟨fun he => absurd he hrole, fun _ => ⟨rfl, rfl⟩, rfl⟩

theorem contractFields_eq_some {metadata : Metadata} {role : Role} {title status : Text}
    (h : contractFields metadata = some (role, title, status)) : status ∈ STATUSES := by
  unfold contractFields at h
  split at h
  · split at h
    · next hmem =>
      obtain ⟨-, h⟩ := Prod.mk.inj (Option.some.inj h)
      obtain ⟨-, rfl⟩ := Prod.mk.inj h
      exact hmem
    · exact nomatch h
  · exact nomatch h

theorem accepted_of_parsePage {path text : Text} {p : KnowledgePage} (h : parsePage R path text = .ok p) :
    Accepted R path p := by
  have hday : ∀ {metadata key day}, parseDay R metadata key = some day → ∃ t, R.isoDate t = some day := by
    intro metadata key day hfound
    unfold parseDay at hfound
    split at hfound
    · exact ⟨_, hfound⟩
    · exact nomatch hfound
  unfold parsePage at h
  split at h
  split at h
  · exact nomatch h
  split at h
  · exact nomatch h
  next role title status hfields =>
  split at h
  · exact nomatch h
  next expected hpath =>
  obtain ⟨hsame, h⟩ := Checks.of_ite_error h
  unfold parseFields at h
  split at h
  · exact nomatch h
  next acl hacl =>
  split at h
  · exact nomatch h
  next sources hsources =>
  split at h
  · exact nomatch h
  next entityType aliases hentity =>
  split at h
  · next created updated hcreated hupdated =>
    dsimp only at h
    obtain ⟨hbody, h⟩ := Checks.of_ite_error h
    rw [Bool.or_eq_true, not_or, Bool.not_eq_true, Bool.not_eq_true] at hbody
    obtain rfl := Except.ok.inj h
    obtain ⟨hentities, hplain, hnames⟩ := parseEntity_eq_ok hentity
    exact
      { place := rfl
        own := by rw [pagePath_oneLine, hpath, not_ne_iff.mp hsame]
        title := Text.oneLine_oneLine title
        status := contractFields_eq_some hfields
        entityType := fun hrole => (hentities hrole).1
        aliases := fun hrole => ⟨title, rfl, (hentities hrole).2⟩
        plain := hplain
        collapsed := hnames
        body := ⟨Text.isBlank_strip hbody.2, Text.strip_strip _⟩
        pageId := ⟨Text.strip_strip _, List.isEmpty_eq_false_iff.mp hbody.1⟩
        created := hday hcreated
        updated := hday hupdated
        acl := fun labels hlabels => labels_of_stringsOrNone hacl hlabels
        sources := labels_of_strings hsources }
  · exact nomatch h

/-- an accepted page is rendered unless its title names what an alias names -/
theorem renderPage_of_accepted {path : Text} {p : KnowledgePage} (h : Accepted R path p)
    (htitle : p.role = .entity → resolutionKey R p.title ∉ p.aliases.map (resolutionKey R)) :
    ∃ text, renderPage R p = .ok text := by
  have hfields : ∃ entity, entityFields R p = .ok entity := by
    unfold entityFields
    by_cases hrole : p.role = .entity
    · obtain ⟨title, -, haliases⟩ := h.aliases hrole
      have hfit : Aliases R (Text.oneLine p.title) p.aliases :=
        ⟨haliases.searchable, haliases.nodup, by rw [h.title]; exact htitle hrole⟩
      rw [if_pos hrole, h.entityType hrole]
      dsimp only
      rw [checkAliases_eq_ok.mpr ⟨h.collapsed.symm, hfit⟩]
      exact ⟨_, rfl⟩
    · obtain ⟨htype, hnone⟩ := h.plain hrole
      rw [if_neg hrole, htype, hnone]
      exact ⟨_, rfl⟩
  obtain ⟨entity, hentity⟩ := hfields
  exact ⟨_, renderPage_of hentity (h.place ▸ h.own) h.status h.body.1⟩

/-! ## carriage returns -/

theorem newline_suffix {t u : Text} (h : newline t = some u) : u <:+ t := by
  unfold newline at h
  split at h
  · obtain rfl := Option.some.inj h
    exact ⟨['\r', '\n'], rfl⟩
  · obtain rfl := Option.some.inj h
    exact ⟨['\n'], rfl⟩
  · exact nomatch h

theorem opener_suffix {t u : Text} (h : opener t = some u) : u <:+ t := by
  have hopen : ∀ v, v <:+ t →
      (if Text.startsWith "---".toList v then newline ((v.drop 3).dropWhile isTab) else none) = some u → u <:+ t := by
    intro v hv h
    split at h
    · exact (newline_suffix h).trans ((List.dropWhile_suffix _).trans ((List.drop_suffix _ _).trans hv))
    · cases h
  unfold opener at h
  refine hopen _ ?_ h
  split
  · exact List.suffix_cons _ _
  · exact List.suffix_refl _

theorem closer_suffix {t r : Text} (h : closer t = some r) : r <:+ t := by
  unfold closer at h
  cases hline : newline t with
  | none =>
    rw [hline] at h
    cases h
  | some u =>
    rw [hline] at h
    dsimp only at h
    by_cases hdash : Text.startsWith "---".toList u = true
    · rw [if_pos hdash] at h
      have hafter : (u.drop 3).dropWhile isTab <:+ t :=
        (List.dropWhile_suffix _).trans ((List.drop_suffix _ _).trans (newline_suffix hline))
      generalize (u.drop 3).dropWhile isTab = v at h hafter
      have hreturn : r <:+ v := by
        split at h
        · next w heq =>
          rw [← Option.some.inj h]
          refine (List.suffix_cons '\n' w).trans ?_
          rw [← heq]
          split
          · exact List.suffix_cons _ _
          · exact List.suffix_refl _
        · rw [← Option.some.inj h]
          split
          · exact List.suffix_cons _ _
          · exact List.suffix_refl _
      exact hreturn.trans hafter
    · rw [if_neg hdash] at h
      cases h

theorem upToCloser_suffix {t block r : Text} (h : upToCloser t = some (block, r)) : r <:+ t := by
  induction t generalizing block with
  | nil => exact nomatch h
  | cons c t ih =>
    rw [upToCloser] at h
    split at h
    · next hcloser =>
      obtain ⟨-, rfl⟩ := Prod.mk.inj (Option.some.inj h)
      exact closer_suffix hcloser
    · obtain ⟨found, hfound, heq⟩ := Option.map_eq_some_iff.mp h
      obtain ⟨-, rfl⟩ := Prod.mk.inj heq
      exact (ih hfound).trans (List.suffix_cons c t)

/-- the body is an end of the text -/
theorem splitFrontmatter_suffix (text : Text) : (splitFrontmatter R text).2.1 <:+ text := by
  unfold splitFrontmatter
  split
  · next block body hblock =>
    have hbody : body <:+ text := by
      obtain ⟨t, ht, hclose⟩ := Option.bind_eq_some_iff.mp hblock
      exact (upToCloser_suffix hclose).trans (opener_suffix ht)
    split
    · exact List.suffix_refl text
    · exact hbody
    · exact hbody
  · exact List.suffix_refl text

theorem mem_of_parsePage {path text : Text} {p : KnowledgePage} (h : parsePage R path text = .ok p) {c : Char}
    (hc : c ∈ p.body) : c ∈ text := by
  have hsuffix := splitFrontmatter_suffix (R := R) text
  unfold parsePage at h
  split at h
  next metadata body malformed hsplit =>
  rw [hsplit] at hsuffix
  refine hsuffix.subset ?_
  split at h
  · exact nomatch h
  split at h
  · exact nomatch h
  split at h
  · exact nomatch h
  obtain ⟨-, h⟩ := Checks.of_ite_error h
  unfold parseFields at h
  split at h
  · exact nomatch h
  split at h
  · exact nomatch h
  split at h
  · exact nomatch h
  split at h
  · dsimp only at h
    obtain ⟨-, h⟩ := Checks.of_ite_error h
    obtain rfl := Except.ok.inj h
    exact Text.mem_strip hc
  · exact nomatch h

/-- no carriage return is written for a body without one -/
theorem return_renderPage (hdump : ∀ m : Metadata, m.Plain R.showList → '\r' ∉ R.dump m) {p : KnowledgePage} {text : Text}
    (h : renderPage R p = .ok text) (hbody : '\r' ∉ p.body) : '\r' ∉ text := by
  obtain ⟨entity, hentity, -, -, -, rfl⟩ := renderPage_eq_ok R h
  have htitle : '\r' ∉ Text.oneLine p.title := by
    intro hmem
    rcases Text.mem_oneLine hmem with e | hspace
    · exact absurd e (by decide)
    · exact absurd hspace (by decide)
  have hheading : '\r' ∉ withHeading (Text.oneLine p.title) p.body := by
    intro hmem
    rcases withHeading_cases (Text.oneLine p.title) p.body with he | he
    · rw [he] at hmem
      exact hbody (Text.mem_strip hmem)
    · rw [he] at hmem
      simp only [List.mem_append] at hmem
      rcases hmem with ((hmem | hmem) | hmem) | hmem
      · exact absurd hmem (by decide)
      · exact htitle hmem
      · exact absurd hmem (by decide)
      · exact hbody (Text.mem_strip hmem)
  have hblock : '\r' ∉ Text.rstrip (R.dump (metadataOf R p entity)) :=
    fun hmem => hdump _ (plain_metadataOf R hentity) ((Text.rstrip_prefix _).subset hmem)
  intro hmem
  simp only [withFrontMatter, List.mem_append, List.cons_append, List.mem_cons] at hmem
  rcases hmem with (((hmem | hmem) | hmem) | hmem | hmem | hmem)
  · exact absurd hmem (by decide)
  · exact hblock hmem
  · exact absurd hmem (by decide)
  · exact absurd hmem (by decide)
  · exact hheading hmem
  · exact absurd hmem (by decide)

/-! ## both ways -/

variable (R) in
/-- a call of `render_page`: days, an id without outer white space, lists of labels -/
structure Call (uuid today : Text) (pageId created updated : Option Text) (p : KnowledgePage) : Prop where
  uuid : ∀ c ∈ uuid, Text.isSpace c = false
  today : R.isoDate today = some today
  pageId : ∀ i ∈ pageId, Text.strip i = i
  created : ∀ d ∈ created, R.isoDate d = some d
  updated : ∀ d ∈ updated, R.isoDate d = some d
  acl : ∀ labels, p.acl = some labels → labels ≠ [] ∧ Labels labels
  sources : Labels p.sources

theorem given_filled {uuid today : Text} {pageId created updated : Option Text} {p : KnowledgePage}
    (h : Call R uuid today pageId created updated p) : Given R (filled uuid today pageId created updated p) := by
  have hdays : ∀ {day : Option Text}, (∀ d ∈ day, R.isoDate d = some d) →
      R.isoDate (day.getD today) = some (day.getD today) := by
    intro day hday
    cases day with
    | none => exact h.today
    | some d => exact hday d rfl
  refine ⟨?_, hdays h.created, hdays h.updated, h.acl, h.sources⟩
  unfold filled
  dsimp only
  by_cases hempty : (pageId.getD []).isEmpty = true
  · rw [if_pos hempty]
    refine ⟨Text.strip_eq_self_of_all fun c hc => ?_, List.cons_ne_nil _ _⟩
    rcases List.mem_append.mp hc with hc | hc
    · have hall : ∀ c ∈ "page_".toList, Text.isSpace c = false := by decide
      exact hall c hc
    · exact h.uuid c hc
  · rw [if_neg hempty]
    cases pageId with
    | none => exact absurd rfl hempty
    | some i => exact ⟨h.pageId i rfl, fun he => hempty (List.isEmpty_iff.mpr he)⟩

/-- what is rendered is parsed to the record it was rendered from; a page that is parsed and rendered is parsed to its
record with a heading, and rendered to the same text -/
theorem codec (R : Runtime) (hnfkd : R.nfkdAscii [] = []) (hlower : R.lower [] = [])
    (hday : ∀ t d, R.isoDate t = some d → R.isoDate d = some d) :
    (∀ uuid today pageId created updated p text, Call R uuid today pageId created updated p →
      rendered R uuid today pageId created updated p = .ok text →
        parsePage R p.path text = .ok (collapsed (filled uuid today pageId created updated p))) ∧
    (∀ path text p, parsePage R path text = .ok p →
      (p.role = .entity → resolutionKey R p.title ∉ p.aliases.map (resolutionKey R)) →
        ∃ text', renderPage R p = .ok text' ∧
          parsePage R path text' = .ok { p with body := withHeading p.title p.body } ∧
          renderPage R { p with body := withHeading p.title p.body } = .ok text') := by
  refine ⟨fun uuid today pageId created updated p text hcall h => ?_, fun path text p h htitle => ?_⟩
  · exact parsePage_renderPage hnfkd hlower h (given_filled hcall)
  · have haccepted := accepted_of_parsePage h
    obtain ⟨text', htext⟩ := renderPage_of_accepted haccepted htitle
    have hsame : collapsed p = { p with body := withHeading p.title p.body } := by
      unfold collapsed
      rw [haccepted.title, haccepted.collapsed]
    have hparse := parsePage_renderPage hnfkd hlower htext (haccepted.given hday)
    rw [hsame] at hparse
    refine ⟨text', htext, ?_, hsame ▸ renderPage_collapsed htext⟩
    calc parsePage R path text' = parsePage R p.path text' := by rw [haccepted.place]
      _ = _ := hparse

end

/-! ## two pages -/

theorem isoDate_ascii (t d : Text) (h : ascii.isoDate t = some d) : ascii.isoDate d = some d := by
  change (if Ascii.isDay t then some t else none) = some d at h
  split at h
  · next hd =>
    rw [← Option.some.inj h]
    exact if_pos hd
  · exact nomatch h

/-- an entity whose body holds front matter of its own -/
def fencedEntity : KnowledgePage where
  path := "wiki/entities/Plan B.md".toList
  pageId := []
  role := .entity
  title := "Plan \t B".toList
  status := "seed".toList
  created := []
  updated := []
  acl := some ["team".toList]
  sources := ["s2".toList, "s1".toList]
  body := "\n---\nacl: x\n---\nShip it.\n".toList
  entityType := some "product".toList
  aliases := ["The\nplan".toList, "B-plan".toList]

/-- a concept without a heading -/
def bareConcept : KnowledgePage where
  path := "wiki/concepts/Plan B.md".toList
  pageId := "page_1".toList
  role := .concept
  title := "Plan B".toList
  status := "seed".toList
  created := "2024-05-01".toList
  updated := "2024-05-02".toList
  acl := none
  sources := ["s1".toList]
  body := "Ship it.".toList
  entityType := none
  aliases := []

def bareText : Text := withFrontMatter ascii (metadataOf ascii bareConcept []) bareConcept.body

def today : Text := "2024-05-03".toList

theorem codec_fenced :
    (∃ text, rendered ascii "1".toList today none none none fencedEntity = .ok text ∧
      parsePage ascii fencedEntity.path text =
        .ok (collapsed (filled "1".toList today none none none fencedEntity))) ∧
    ∃ text', renderPage ascii bareConcept = .ok text' ∧
      parsePage ascii bareConcept.path text' =
        .ok { bareConcept with body := "# Plan B\n\nShip it.".toList } := by
  obtain ⟨hthere, hback⟩ := codec ascii rfl rfl isoDate_ascii
  have hcall : Call ascii "1".toList today none none none fencedEntity :=
    { uuid := by decide
      today := by decide
      pageId := nofun
      created := nofun
      updated := nofun
      acl := fun labels h => by
        obtain rfl := Option.some.inj h
        exact ⟨by decide, by decide, by decide, by decide⟩
      sources := ⟨by decide, by decide, by decide⟩ }
  have hrendered : (rendered ascii "1".toList today none none none fencedEntity).isOk = true := by decide +kernel
  have hbare : parsePage ascii bareConcept.path bareText = .ok bareConcept := by decide +kernel
  refine ⟨?_, ?_⟩
  · cases htext : rendered ascii "1".toList today none none none fencedEntity with
    | error e =>
      rw [htext] at hrendered
      exact nomatch hrendered
    | ok text => exact ⟨text, rfl, hthere _ _ _ _ _ _ _ hcall htext⟩
  · obtain ⟨text', htext, hparse, -⟩ := hback _ _ _ hbare nofun
    exact ⟨text', htext, hparse⟩

/-- a blank id is rendered and refused, and a page without a heading comes back with one -/
theorem not_codec :
    (¬∀ uuid today pageId created updated p text,
      (∀ labels, p.acl = some labels → labels ≠ [] ∧ Labels labels) → Labels p.sources →
        rendered ascii uuid today pageId created updated p = .ok text →
          ∃ page, parsePage ascii p.path text = .ok page) ∧
    ¬∀ path text p text', parsePage ascii path text = .ok p → renderPage ascii p = .ok text' →
      parsePage ascii path text' = .ok p := by
  refine ⟨fun h => ?_, fun h => ?_⟩
  · have hrendered : rendered ascii [] today (some [' ']) none none bareConcept =
        .ok (withFrontMatter ascii (metadataOf ascii { bareConcept with pageId := [' '], created := today, updated := today } [])
          "\n# Plan B\n\nShip it.\n".toList) := by decide +kernel
    obtain ⟨page, hpage⟩ := h [] today (some [' ']) none none bareConcept _ nofun ⟨by decide, by decide, by decide⟩ hrendered
    have hrefused : (parsePage ascii bareConcept.path (withFrontMatter ascii
        (metadataOf ascii { bareConcept with pageId := [' '], created := today, updated := today } [])
          "\n# Plan B\n\nShip it.\n".toList)).isOk = false := by decide +kernel
    rw [hpage] at hrefused
    exact nomatch hrefused
  · have hparse : parsePage ascii bareConcept.path bareText = .ok bareConcept := by decide +kernel
    have hrender : renderPage ascii bareConcept = .ok (withFrontMatter ascii (metadataOf ascii bareConcept [])
        "\n# Plan B\n\nShip it.\n".toList) := by decide +kernel
    have hchanged : ¬parsePage ascii bareConcept.path (withFrontMatter ascii (metadataOf ascii bareConcept [])
        "\n# Plan B\n\nShip it.\n".toList) = .ok bareConcept := by decide +kernel
    exact hchanged (h _ _ _ _ hparse hrender)

end Pages
