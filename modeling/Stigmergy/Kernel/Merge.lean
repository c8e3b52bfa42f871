import Stigmergy.Kernel.Ascii
import Stigmergy.Kernel.Rendered

/-!
# Merging a layer's page and taking it apart

`mergeForWriting` puts a layer's units into the public page, `splitFromPublic` takes what is not public
out again.  The units of the layer come back, each under its own section, when its units without a
heading are not written after a section of the public page.

* `merged`             the sections of a merged page, one for each key;
* `pairs_split`        what is read in the part that goes back to the layer;
* `Returned`           a layer gets its own units back;
* `returned_iff`       which pages give them back.
-/

set_option linter.unusedSectionVars false

namespace Body

section
variable (R : Runtime)

/-! ## the units that are kept once -/

theorem mem_dedupeFrom {connections : Bool} {us : List BodyUnit} {seen targets : List Text}
    {u : BodyUnit} (h : u ∈ dedupeFrom R connections seen targets us) : u ∈ us := by
  induction us generalizing seen targets with
  | nil => exact h
  | cons v us ih =>
    rw [dedupeFrom] at h
    split at h
    · exact List.mem_cons_of_mem v (ih h)
    · split at h
      · rcases List.mem_cons.mp h with rfl | h
        · exact List.mem_cons_self
        · exact List.mem_cons_of_mem v (ih h)
      · split at h
        · exact List.mem_cons_of_mem v (ih h)
        · rcases List.mem_cons.mp h with rfl | h
          · exact List.mem_cons_self
          · exact List.mem_cons_of_mem v (ih h)

theorem nodup_dedupeFrom (connections : Bool) (us : List BodyUnit) (seen targets : List Text) :
    (∀ u ∈ dedupeFrom R connections seen targets us, u.key R ∉ seen) ∧
      ((dedupeFrom R connections seen targets us).map (BodyUnit.key R)).Nodup := by
  induction us generalizing seen targets with
  | nil => exact ⟨fun u hu => absurd hu List.not_mem_nil, List.nodup_nil⟩
  | cons v us ih =>
    have hkept : ∀ ts, v.key R ∉ seen →
        (∀ u ∈ v :: dedupeFrom R connections (v.key R :: seen) ts us, u.key R ∉ seen) ∧
          ((v :: dedupeFrom R connections (v.key R :: seen) ts us).map (BodyUnit.key R)).Nodup := by
      intro ts hv
      obtain ⟨hseen, hnodup⟩ := ih (v.key R :: seen) ts
      refine ⟨fun u hu => ?_, ?_⟩
      · rcases List.mem_cons.mp hu with rfl | hu
        · exact hv
        · exact fun hmem => hseen u hu (List.mem_cons_of_mem _ hmem)
      · rw [List.map_cons, List.nodup_cons]
        refine ⟨fun hmem => ?_, hnodup⟩
        obtain ⟨u, hu, hkey⟩ := List.mem_map.mp hmem
        exact hseen u hu (by rw [hkey]; exact List.mem_cons_self)
    rw [dedupeFrom]
    split
    · exact ih seen targets
    · rename_i hv
      split
      · exact hkept targets hv
      · split
        · exact ih seen targets
        · exact hkept _ hv

/-- a unit is kept by its key, or as a link that an earlier item has -/
theorem dedupeFrom_cases (connections : Bool) (pre post : List BodyUnit) (u : BodyUnit)
    (seen targets : List Text) : u.key R ∈ seen ∨
      u.key R ∈ (dedupeFrom R connections seen targets (pre ++ u :: post)).map (BodyUnit.key R) ∨
      connections = true ∧ ∃ t, target R u = some t ∧ (t ∈ targets ∨
        ∃ v ∈ pre, v ∈ dedupeFrom R connections seen targets (pre ++ u :: post) ∧
          target R v = some t) := by
  induction pre generalizing seen targets with
  | nil =>
    rw [List.nil_append, dedupeFrom]
    by_cases hseen : u.key R ∈ seen
    · exact Or.inl hseen
    · rw [if_neg hseen]
      have hmem : ∀ us, u.key R ∈ (u :: us).map (BodyUnit.key R) := fun us => List.mem_cons_self
      cases hc : (if connections then target R u else none) with
      | none => exact Or.inr (Or.inl (hmem _))
      | some t =>
        dsimp only
        split
        · rename_i ht
          cases connections with
          | false => exact nomatch hc
          | true => exact Or.inr (Or.inr ⟨rfl, t, hc, Or.inl ht⟩)
        · exact Or.inr (Or.inl (hmem _))
  | cons w pre ih =>
    rw [List.cons_append, dedupeFrom]
    have hskip := ih seen targets
    have hkeep : ∀ ts, (∀ t ∈ ts, t ∈ targets ∨ target R w = some t) → u.key R ∈ seen ∨
        u.key R ∈ (w :: dedupeFrom R connections (w.key R :: seen) ts (pre ++ u :: post)).map
          (BodyUnit.key R) ∨
        connections = true ∧ ∃ t, target R u = some t ∧ (t ∈ targets ∨
          ∃ v ∈ w :: pre, v ∈ w :: dedupeFrom R connections (w.key R :: seen) ts (pre ++ u :: post) ∧
            target R v = some t) := by
      intro ts hts
      rcases ih (w.key R :: seen) ts with hs | hm | ⟨hcon, t, hu, ht | ⟨v, hv, hvm, hvt⟩⟩
      · rcases List.mem_cons.mp hs with hw | hs
        · exact Or.inr (Or.inl (by rw [hw]; exact List.mem_cons_self))
        · exact Or.inl hs
      · exact Or.inr (Or.inl (List.mem_cons_of_mem _ hm))
      · refine Or.inr (Or.inr ⟨hcon, t, hu, ?_⟩)
        rcases hts t ht with ht | hw
        · exact Or.inl ht
        · exact Or.inr ⟨w, List.mem_cons_self, List.mem_cons_self, hw⟩
      · exact Or.inr (Or.inr ⟨hcon, t, hu,
          Or.inr ⟨v, List.mem_cons_of_mem w hv, List.mem_cons_of_mem w hvm, hvt⟩⟩)
    have hdrop : u.key R ∈ seen ∨
        u.key R ∈ (dedupeFrom R connections seen targets (pre ++ u :: post)).map (BodyUnit.key R) ∨
        connections = true ∧ ∃ t, target R u = some t ∧ (t ∈ targets ∨
          ∃ v ∈ w :: pre, v ∈ dedupeFrom R connections seen targets (pre ++ u :: post) ∧
            target R v = some t) := by
      rcases hskip with hs | hm | ⟨hcon, t, hu, ht | ⟨v, hv, hvm, hvt⟩⟩
      · exact Or.inl hs
      · exact Or.inr (Or.inl hm)
      · exact Or.inr (Or.inr ⟨hcon, t, hu, Or.inl ht⟩)
      · exact Or.inr (Or.inr ⟨hcon, t, hu, Or.inr ⟨v, List.mem_cons_of_mem w hv, hvm, hvt⟩⟩)
    split
    · exact hdrop
    · cases hc : (if connections then target R w else none) with
      | none => exact hkeep targets fun t ht => Or.inl ht
      | some t =>
        dsimp only
        split
        · exact hdrop
        · refine hkeep (t :: targets) fun t' ht' => ?_
          rcases List.mem_cons.mp ht' with rfl | ht'
          · cases connections with
            | false => exact nomatch hc
            | true => exact Or.inr hc
          · exact Or.inl ht'

theorem dedupe_ne_nil {connections : Bool} {us : List BodyUnit} (h : us ≠ []) :
    dedupe R connections us ≠ [] := by
  cases us with
  | nil => exact absurd rfl h
  | cons u us =>
    unfold dedupe
    rw [dedupeFrom, if_neg List.not_mem_nil]
    split
    · exact List.cons_ne_nil _ _
    · rw [if_neg List.not_mem_nil]
      exact List.cons_ne_nil _ _

/-! ## merged sections -/

theorem mem_unitsOf {ss : List BodySection} {k : Option Text} {u : BodyUnit} :
    u ∈ unitsOf R ss k ↔ ∃ s ∈ ss, s.key R = k ∧ u ∈ s.units := by
  unfold unitsOf
  rw [List.mem_flatMap]
  constructor
  · rintro ⟨s, hs, hu⟩
    obtain ⟨hmem, hkey⟩ := List.mem_filter.mp hs
    exact ⟨s, hmem, beq_iff_eq.mp hkey, hu⟩
  · rintro ⟨s, hs, hkey, hu⟩
    exact ⟨s, List.mem_filter.mpr ⟨hs, beq_iff_eq.mpr hkey⟩, hu⟩

theorem headingOf_spec {ss : List BodySection} {k : Option Text} (hk : ∃ s ∈ ss, s.key R = k) :
    ∃ s ∈ ss, s.key R = k ∧ headingOf R ss k = s.heading := by
  unfold headingOf
  cases hf : ss.find? fun s => s.key R == k with
  | none =>
    obtain ⟨s, hs, hkey⟩ := hk
    exact absurd (beq_iff_eq.mpr hkey) (List.find?_eq_none.mp hf s hs)
  | some s =>
    have hsome := List.find?_some hf
    exact ⟨s, List.mem_of_find?_eq_some hf, beq_iff_eq.mp hsome, rfl⟩

/-- the section of a key in a merged page -/
def sectionOf (ss : List BodySection) (k : Option Text) : BodySection :=
  ⟨headingOf R ss k, dedupe R (k == some CONNECTIONS) (unitsOf R ss k)⟩

theorem sectionOf_units (ss : List BodySection) (k : Option Text) :
    (sectionOf R ss k).units = dedupeFrom R (k == some CONNECTIONS) [] [] (unitsOf R ss k) := rfl

theorem sectionOf_key {ss : List BodySection} {k : Option Text} (hk : ∃ s ∈ ss, s.key R = k) :
    (sectionOf R ss k).key R = k := by
  obtain ⟨s, -, hkey, hhead⟩ := headingOf_spec R hk
  rw [← hkey]
  unfold sectionOf BodySection.key
  rw [← hkey] at hhead
  exact congrArg (Option.map _) hhead

theorem mem_sectionOf {ss : List BodySection} {k : Option Text} {u : BodyUnit}
    (h : u ∈ (sectionOf R ss k).units) : ∃ s ∈ ss, s.key R = k ∧ u ∈ s.units :=
  (mem_unitsOf R).mp (mem_dedupeFrom R h)

/-- the sections of both pages -/
def both (layer publicBody layerBody : Text) : List BodySection :=
  (parseBody R Layers.PUBLIC publicBody).sections ++ (parseBody R layer layerBody).sections

/-- the sections of the merged page -/
def merged (layer publicBody layerBody : Text) : List BodySection :=
  (firsts ((both R layer publicBody layerBody).map (BodySection.key R))).map
    (sectionOf R (both R layer publicBody layerBody))

theorem mem_keys {ss : List BodySection} {k : Option Text}
    (h : k ∈ firsts (ss.map (BodySection.key R))) : ∃ s ∈ ss, s.key R = k :=
  List.mem_map.mp (mem_firsts.mp h)

/-- the units of merged sections, each once under its key -/
theorem nodup_pairs_sectionOf (ss : List BodySection) :
    (pairs R ((firsts (ss.map (BodySection.key R))).map (sectionOf R ss))).Nodup := by
  unfold pairs
  rw [List.flatMap_map, List.nodup_flatMap]
  constructor
  · intro k hk
    have hnodup := (nodup_dedupeFrom R (k == some CONNECTIONS) (unitsOf R ss k) [] []).2
    refine List.Nodup.of_map Prod.snd ?_
    rw [List.map_map]
    exact hnodup
  · refine (nodup_firsts _).imp_of_mem fun {k l} hk hl hne => ?_
    rintro c hck hcl
    obtain ⟨u, -, rfl⟩ := List.mem_map.mp hck
    obtain ⟨v, -, hv⟩ := List.mem_map.mp hcl
    have hkey := congrArg Prod.fst hv
    dsimp only at hkey
    rw [sectionOf_key R (mem_keys R hk), sectionOf_key R (mem_keys R hl)] at hkey
    exact hne hkey.symm

theorem mem_pairs_sectionOf {ss : List BodySection} {k : Option Text} (hk : ∃ s ∈ ss, s.key R = k)
    {x : Text} (hx : x ∈ ((sectionOf R ss k).units).map (BodyUnit.key R)) :
    (k, x) ∈ pairs R ((firsts (ss.map (BodySection.key R))).map (sectionOf R ss)) := by
  obtain ⟨u, hu, rfl⟩ := List.mem_map.mp hx
  refine List.mem_flatMap.mpr ⟨sectionOf R ss k, List.mem_map.mpr ⟨k, ?_, rfl⟩, ?_⟩
  · exact mem_firsts.mpr (List.mem_map.mpr hk)
  · rw [sectionOf_key R hk]
    exact List.mem_map.mpr ⟨u, hu, rfl⟩

section
variable {layer publicBody layerBody : Text}

theorem written_merged (hp : Page R Layers.PUBLIC publicBody) (hl : Page R layer layerBody) :
    Written R (merged R layer publicBody layerBody) := by
  have hpub := written_parse R hp.closed
  have hlay := written_parse R hl.closed
  have hboth : Written R (both R layer publicBody layerBody) := by
    constructor
    · intro s hs
      rcases List.mem_append.mp hs with hs | hs
      · exact hpub.units s hs
      · exact hlay.units s hs
    · intro s hs
      rcases List.mem_append.mp hs with hs | hs
      · exact hpub.headings s hs
      · exact hlay.headings s hs
  constructor
  · intro s hs u hu
    obtain ⟨k, hk, rfl⟩ := List.mem_map.mp hs
    obtain ⟨t, ht, -, hut⟩ := mem_sectionOf R hu
    exact hboth.units t ht u hut
  · intro s hs h hh
    obtain ⟨k, hk, rfl⟩ := List.mem_map.mp hs
    obtain ⟨t, ht, -, hhead⟩ := headingOf_spec R (mem_keys R hk)
    exact hboth.headings t ht h (hhead.symm.trans hh)

theorem bare_merged (hp : Page R Layers.PUBLIC publicBody) (hl : Page R layer layerBody)
    (h : Option Text) : NoBare R (placed h (merged R layer publicBody layerBody)) := by
  intro c hc hitem
  obtain ⟨s, hs, u, hu, hcu⟩ := mem_placed hc
  rw [hcu] at hitem ⊢
  obtain ⟨k, hk, rfl⟩ := List.mem_map.mp hs
  obtain ⟨t, ht, -, hut⟩ := mem_sectionOf R hu
  rcases List.mem_append.mp ht with ht | ht
  · exact hp.bare _ (mem_cores ht hut) hitem
  · exact hl.bare _ (mem_cores ht hut) hitem

/-- a merged page is its sections under the title of the public page -/
theorem mergeForWriting_eq (hp : Page R Layers.PUBLIC publicBody) :
    mergeForWriting R layer publicBody layerBody =
      renderBody R false ⟨(titled publicBody).1, merged R layer publicBody layerBody⟩ := by
  have hne : (parseBody R Layers.PUBLIC publicBody).titleLine.isEmpty = false := by
    obtain ⟨u, hu⟩ := hp.isTitle.head
    show (titled publicBody).1.isEmpty = false
    rw [hu]
    rfl
  unfold mergeForWriting combine
  simp only [List.map_cons, List.map_nil, List.find?_cons, hne, Bool.not_false, Option.getD_some,
    List.flatMap_cons, List.flatMap_nil, List.append_nil, Bool.false_eq_true, if_false]
  rfl

/-! ## what goes back to the layer -/

theorem cores_keepUnknown (known : List Text) (ss : List BodySection) :
    cores (ss.filterMap (keepUnknown R known)) =
      (cores ss).filter fun c => !known.contains (unitKey R c.2.2) := by
  induction ss with
  | nil => rfl
  | cons s ss ih =>
    have hunits : (s.units.map fun u => (s.heading, u.kind, Text.rstrip u.text)).filter
        (fun c => !known.contains (unitKey R c.2.2)) =
        (s.units.filter fun u => !known.contains (u.key R)).map
          fun u => (s.heading, u.kind, Text.rstrip u.text) := by
      rw [List.filter_map]
      congr 1
      refine List.filter_congr fun u _ => ?_
      show (!known.contains (unitKey R (Text.rstrip u.text))) = _
      rw [unitKey_rstrip]
      rfl
    rw [cores_cons, List.filter_append, hunits, ← ih, List.filterMap_cons, keepUnknown]
    by_cases hemp : (s.units.filter fun u => !known.contains (u.key R)).isEmpty = true
    · rw [if_pos hemp, List.isEmpty_iff.mp hemp]
      rfl
    · rw [if_neg hemp, cores_cons]

theorem headed_keepUnknown (known : List Text) {ss : List BodySection} (h : Headed ss) :
    Headed (ss.filterMap (keepUnknown R known)) := by
  have hheads : ((ss.filterMap (keepUnknown R known)).map BodySection.heading).Sublist
      (ss.map BodySection.heading) := by
    clear h
    induction ss with
    | nil => exact List.Sublist.refl _
    | cons s ss ih =>
      rw [List.filterMap_cons, keepUnknown]
      by_cases hemp : (s.units.filter fun u => !known.contains (u.key R)).isEmpty = true
      · rw [if_pos hemp]
        exact ih.cons s.heading
      · rw [if_neg hemp]
        exact ih.cons_cons s.heading
  intro s hs hnone
  have hmem : none ∈ (ss.map BodySection.heading).tail := by
    refine hheads.tail.subset ?_
    rw [← List.map_tail, ← hnone]
    exact List.mem_map_of_mem hs
  rw [← List.map_tail] at hmem
  obtain ⟨t, ht, htn⟩ := List.mem_map.mp hmem
  exact h t ht htn

theorem mem_keepUnknown {known : List Text} {ss : List BodySection} {s : BodySection}
    (h : s ∈ ss.filterMap (keepUnknown R known)) :
    ∃ t ∈ ss, s.heading = t.heading ∧ ∀ u ∈ s.units, u ∈ t.units := by
  obtain ⟨t, ht, hts⟩ := List.mem_filterMap.mp h
  unfold keepUnknown at hts
  dsimp only at hts
  split at hts
  · exact nomatch hts
  · rw [← Option.some.inj hts]
    exact ⟨t, ht, rfl, fun u hu => List.mem_of_mem_filter hu⟩

/-- what the part for the layer is read back as: the units of the merged page that are not public -/
theorem cores_split (hp : Page R Layers.PUBLIC publicBody) (hl : Page R layer layerBody) :
    cores (parseBody R layer (splitFromPublic R (mergeForWriting R layer publicBody layerBody)
      publicBody)).sections =
      (placed none (merged R layer publicBody layerBody)).filter fun c =>
        !(keysOf R (parseBody R Layers.PUBLIC publicBody)).contains (unitKey R c.2.2) := by
  obtain ⟨htitle, hmode, hcores⟩ := reparse R hp.isTitle (written_merged R hp hl)
    (bare_merged R hp hl none) Layers.PUBLIC
  rw [← mergeForWriting_eq R hp] at htitle hmode hcores
  set body := mergeForWriting R layer publicBody layerBody with hbody
  set known := keysOf R (parseBody R Layers.PUBLIC publicBody) with hknown
  have hcores' : cores (parseBody R Layers.PUBLIC body).sections =
      placed none (merged R layer publicBody layerBody) := (cores_parse R hmode).trans hcores
  have hkept := cores_keepUnknown R known (parseBody R Layers.PUBLIC body).sections
  rw [hcores'] at hkept
  have hwritten := written_parse R hmode
  have hsplit : splitFromPublic R body publicBody =
      if ((parseBody R Layers.PUBLIC body).sections.filterMap (keepUnknown R known)).isEmpty then []
      else renderBody R false ⟨(titled publicBody).1,
        (parseBody R Layers.PUBLIC body).sections.filterMap (keepUnknown R known)⟩ := by
    rw [← htitle]
    rfl
  rw [hsplit, ← hkept]
  by_cases hemp :
      ((parseBody R Layers.PUBLIC body).sections.filterMap (keepUnknown R known)).isEmpty = true
  · rw [if_pos hemp, List.isEmpty_iff.mp hemp]
    rfl
  · rw [if_neg hemp]
    have hheaded := headed_keepUnknown R known (headed_parse R hmode)
    have hplaced := placed_none_of_headed hheaded
    have hwrite : Written R
        ((parseBody R Layers.PUBLIC body).sections.filterMap (keepUnknown R known)) := by
      constructor
      · intro s hs u hu
        obtain ⟨t, ht, -, hunits⟩ := mem_keepUnknown R hs
        exact hwritten.units t ht u (hunits u hu)
      · intro s hs h hh
        obtain ⟨t, ht, hhead, -⟩ := mem_keepUnknown R hs
        exact hwritten.headings t ht h (hhead.symm.trans hh)
    have hbare : NoBare R (placed none
        ((parseBody R Layers.PUBLIC body).sections.filterMap (keepUnknown R known))) := by
      rw [hplaced, hkept]
      exact fun c hc => bare_merged R hp hl none c (List.mem_of_mem_filter hc)
    obtain ⟨-, hmode', hcores''⟩ := reparse R hp.isTitle hwrite hbare layer
    rw [← hplaced, ← hcores'']
    exact cores_parse R hmode'

end

/-! ## what a layer gets back -/

/-- a Connections item whose target another item lists earlier -/
def Listed (layer publicBody layerBody : Text) (s : BodySection) (u : BodyUnit) : Prop :=
  s.key R = some CONNECTIONS ∧ ∃ pre post v t,
    unitsOf R (both R layer publicBody layerBody) (some CONNECTIONS) = pre ++ u :: post ∧ v ∈ pre ∧
      v.key R ≠ u.key R ∧ target R v = some t ∧ target R u = some t

/-- every unit of the layer's page that is not public comes back, once and under its section -/
def Returned (layer publicBody layerBody : Text) : Prop :=
  ∀ s ∈ (parseBody R layer layerBody).sections, ∀ u ∈ s.units,
    u.key R ∉ keysOf R (parseBody R Layers.PUBLIC publicBody) →
      (pairs R (parseBody R layer (splitFromPublic R
        (mergeForWriting R layer publicBody layerBody) publicBody)).sections).count
          (s.key R, u.key R) = 1 ∨ Listed R layer publicBody layerBody s u

/-- units without a heading stay in front: the layer adds none, or the public page has some already, or
none of its sections is written -/
def LeadsStay (layer publicBody layerBody : Text) : Prop :=
  (∀ s ∈ (parseBody R layer layerBody).sections, s.heading = none → ∀ u ∈ s.units,
    u.key R ∈ keysOf R (parseBody R Layers.PUBLIC publicBody)) ∨
  (∃ s ∈ (parseBody R Layers.PUBLIC publicBody).sections, s.heading = none) ∨
  ∀ s ∈ (parseBody R Layers.PUBLIC publicBody).sections,
    ∀ t ∈ both R layer publicBody layerBody, t.key R = s.key R → t.units = []

section
variable {layer publicBody layerBody : Text}

/-- the sections of the public page, then those only the layer has -/
theorem merged_append (layer publicBody layerBody : Text) : ∃ n : List (Option Text),
    n.Sublist ((parseBody R layer layerBody).sections.map (BodySection.key R)) ∧
    merged R layer publicBody layerBody =
      (firsts ((parseBody R Layers.PUBLIC publicBody).sections.map (BodySection.key R))).map
        (sectionOf R (both R layer publicBody layerBody)) ++
      n.map (sectionOf R (both R layer publicBody layerBody)) := by
  obtain ⟨n, hn, hfirsts⟩ := firsts_append
    ((parseBody R Layers.PUBLIC publicBody).sections.map (BodySection.key R))
    ((parseBody R layer layerBody).sections.map (BodySection.key R))
  refine ⟨n, hn, ?_⟩
  unfold merged
  rw [both, List.map_append, hfirsts, List.map_append]

theorem sectionOf_heading {ss : List BodySection} {k : Option Text} (hk : ∃ s ∈ ss, s.key R = k)
    (hne : k ≠ none) : (sectionOf R ss k).heading ≠ none := fun h =>
  hne (by rw [← sectionOf_key R hk]; exact (key_none R).mpr h)

/-- sections of keys of which none but the first is the key of no heading -/
theorem headed_sectionOf {ss : List BodySection} {ks : List (Option Text)}
    (hks : ∀ k ∈ ks, ∃ s ∈ ss, s.key R = k) (htail : none ∉ ks.tail) :
    Headed (ks.map (sectionOf R ss)) := by
  intro s hs
  rw [← List.map_tail] at hs
  obtain ⟨k, hk, rfl⟩ := List.mem_map.mp hs
  exact sectionOf_heading R (hks k (List.mem_of_mem_tail hk)) fun e => htail (e ▸ hk)

theorem keys_tail {layer body : Text} (h : (parsed R layer body).mode = .prose) :
    none ∉ ((parseBody R layer body).sections.map (BodySection.key R)).tail := by
  rw [← List.map_tail]
  intro hmem
  obtain ⟨s, hs, hkey⟩ := List.mem_map.mp hmem
  exact headed_parse R h s hs ((key_none R).mp hkey)

/-- the units that are not public stand in a merged page where they are written -/
theorem placed_merged (hp : Page R Layers.PUBLIC publicBody) (hl : Page R layer layerBody)
    (h : LeadsStay R layer publicBody layerBody) :
    (placed none (merged R layer publicBody layerBody)).filter
      (fun c => !(keysOf R (parseBody R Layers.PUBLIC publicBody)).contains (unitKey R c.2.2)) =
    (cores (merged R layer publicBody layerBody)).filter
      (fun c => !(keysOf R (parseBody R Layers.PUBLIC publicBody)).contains (unitKey R c.2.2)) := by
  have hmem : ∀ k ∈ firsts ((both R layer publicBody layerBody).map (BodySection.key R)),
      ∃ s ∈ both R layer publicBody layerBody, s.key R = k := fun k hk => mem_keys R hk
  rcases h with hknown | ⟨s, hs, hnone⟩ | hempty
  · -- whatever has no heading is public
    refine placed_filter _ none fun s hs hnone u hu k => ?_
    obtain ⟨l, hl', rfl⟩ := List.mem_map.mp hs
    have hkey : l = none := by
      rw [← sectionOf_key R (hmem l hl')]
      exact (key_none R).mpr hnone
    obtain ⟨t, ht, htk, hut⟩ := mem_sectionOf R hu
    rw [hkey] at htk
    have hin : u.key R ∈ keysOf R (parseBody R Layers.PUBLIC publicBody) := by
      rcases List.mem_append.mp ht with ht | ht
      · exact List.mem_flatMap.mpr ⟨t, ht, List.mem_map_of_mem hut⟩
      · exact hknown t ht ((key_none R).mp htk) u hut
    show (!List.contains _ (unitKey R (Text.rstrip u.text))) = false
    have hcontains : (keysOf R (parseBody R Layers.PUBLIC publicBody)).contains
        (unitKey R u.text) = true := List.contains_iff_mem.mpr hin
    rw [unitKey_rstrip, hcontains]
    rfl
  · -- the public page begins with units without a heading, and only there the merged page does
    rw [placed_none_of_headed]
    refine headed_sectionOf R hmem ?_
    have hkeys := keys_tail R hp.closed
    cases hsec : (parseBody R Layers.PUBLIC publicBody).sections with
    | nil =>
      rw [hsec] at hs
      exact absurd hs List.not_mem_nil
    | cons a ss =>
      rw [hsec] at hs hkeys
      have ha : a.key R = none := by
        rcases List.mem_cons.mp hs with rfl | hs
        · exact (key_none R).mpr hnone
        · refine absurd (List.mem_map.mpr ⟨s, hs, (key_none R).mpr hnone⟩) ?_
          rwa [List.map_cons, List.tail_cons] at hkeys
      rw [both, hsec, List.cons_append, List.map_cons, ha]
      obtain ⟨n, -, hn⟩ := firsts_append [none]
        ((ss ++ (parseBody R layer layerBody).sections).map (BodySection.key R))
      have hnodup := nodup_firsts ([none] ++
        (ss ++ (parseBody R layer layerBody).sections).map (BodySection.key R))
      have hone : firsts [(none : Option Text)] = [none] := rfl
      rw [hn, hone] at hnodup
      rw [List.singleton_append, hone] at hn
      rw [hn]
      exact (List.nodup_cons.mp hnodup).1
  · -- no section of the public page is written
    obtain ⟨n, hn, hmerged⟩ := merged_append R layer publicBody layerBody
    have hnil : ∀ s ∈ (firsts ((parseBody R Layers.PUBLIC publicBody).sections.map
        (BodySection.key R))).map (sectionOf R (both R layer publicBody layerBody)),
        s.units = [] := by
      intro s hs
      obtain ⟨k, hk, rfl⟩ := List.mem_map.mp hs
      obtain ⟨t, ht, rfl⟩ := mem_keys R hk
      refine List.eq_nil_iff_forall_not_mem.mpr fun u hu => ?_
      obtain ⟨v, hv, hvk, huv⟩ := mem_sectionOf R hu
      rw [hempty t ht v hv hvk] at huv
      exact absurd huv List.not_mem_nil
    rw [hmerged, (placed_empty_append none hnil _).1, (placed_empty_append none hnil _).2,
      placed_none_of_headed]
    refine headed_sectionOf R (fun k hk => ?_) fun hmem' => keys_tail R hl.closed (hn.tail.subset hmem')
    obtain ⟨s, hs, hkey⟩ := List.mem_map.mp (hn.subset hk)
    exact ⟨s, List.mem_append_right _ hs, hkey⟩

/-- what goes back to the layer when its leads stay in front -/
theorem pairs_split (hp : Page R Layers.PUBLIC publicBody) (hl : Page R layer layerBody)
    (h : LeadsStay R layer publicBody layerBody) :
    pairs R (parseBody R layer (splitFromPublic R (mergeForWriting R layer publicBody layerBody)
      publicBody)).sections =
      (pairs R (merged R layer publicBody layerBody)).filter fun c =>
        !(keysOf R (parseBody R Layers.PUBLIC publicBody)).contains c.2 := by
  rw [pairs_eq, cores_split R hp hl, placed_merged R hp hl h, pairs_eq, List.filter_map]
  rfl

theorem returned_of_leadsStay (hp : Page R Layers.PUBLIC publicBody) (hl : Page R layer layerBody)
    (h : LeadsStay R layer publicBody layerBody) : Returned R layer publicBody layerBody := by
  intro s hs u hu hunknown
  have hboth : s ∈ both R layer publicBody layerBody := List.mem_append_right _ hs
  have hmem : u ∈ unitsOf R (both R layer publicBody layerBody) (s.key R) :=
    (mem_unitsOf R).mpr ⟨s, hboth, rfl, hu⟩
  obtain ⟨pre, post, hsplit⟩ := List.append_of_mem hmem
  have hcases := dedupeFrom_cases R (s.key R == some CONNECTIONS) pre post u [] []
  rw [← hsplit, ← sectionOf_units] at hcases
  have hkept : u.key R ∈ ((sectionOf R (both R layer publicBody layerBody) (s.key R)).units).map
      (BodyUnit.key R) → (pairs R (parseBody R layer (splitFromPublic R
        (mergeForWriting R layer publicBody layerBody) publicBody)).sections).count
          (s.key R, u.key R) = 1 := by
    intro hin
    rw [pairs_split R hp hl h]
    have hfilter : (!(keysOf R (parseBody R Layers.PUBLIC publicBody)).contains
        (s.key R, u.key R).2) = true := by simpa using hunknown
    rw [List.count_filter (p := fun c : Option Text × Text =>
      !(keysOf R (parseBody R Layers.PUBLIC publicBody)).contains c.2) hfilter]
    exact List.count_eq_one_of_mem (nodup_pairs_sectionOf R _)
      (mem_pairs_sectionOf R ⟨s, hboth, rfl⟩ hin)
  rcases hcases with hseen | hin | ⟨hcon, t, hut, ht | ⟨v, hv, hvm, hvt⟩⟩
  · exact absurd hseen List.not_mem_nil
  · exact Or.inl (hkept hin)
  · exact absurd ht List.not_mem_nil
  · by_cases hkey : v.key R = u.key R
    · have hkeys := List.mem_map_of_mem (f := BodyUnit.key R) hvm
      rw [hkey] at hkeys
      exact Or.inl (hkept hkeys)
    · have hk : s.key R = some CONNECTIONS := beq_iff_eq.mp hcon
      rw [hk] at hsplit
      exact Or.inr ⟨hk, pre, post, v, t, hsplit, hv, hkey, hvt, hut⟩

/-- a lead of the layer that is written after a section of the public page is read under its heading -/
theorem leadsStay_of_returned (hp : Page R Layers.PUBLIC publicBody) (hl : Page R layer layerBody)
    (h : Returned R layer publicBody layerBody) : LeadsStay R layer publicBody layerBody := by
  by_contra hnot
  unfold LeadsStay at hnot
  simp only [not_or, not_forall, not_exists, not_and] at hnot
  obtain ⟨⟨s, hs, hnone, u, hu, hunknown⟩, hheaded, a, ha, b, hb, hkey, hunits⟩ := hnot
  obtain ⟨n, -, hmerged⟩ := merged_append R layer publicBody layerBody
  have hmem : ∀ k ∈ firsts ((parseBody R Layers.PUBLIC publicBody).sections.map (BodySection.key R)),
      k ≠ none ∧ ∃ t ∈ both R layer publicBody layerBody, t.key R = k := by
    intro k hk
    obtain ⟨t, ht, rfl⟩ := mem_keys R hk
    exact ⟨fun e => hheaded t ht ((key_none R).mp e), t, List.mem_append_left _ ht, rfl⟩
  have hhead : ∀ t ∈ (firsts ((parseBody R Layers.PUBLIC publicBody).sections.map
      (BodySection.key R))).map (sectionOf R (both R layer publicBody layerBody)),
      t.heading ≠ none := fun t ht => by
    obtain ⟨k, hk, rfl⟩ := List.mem_map.mp ht
    exact sectionOf_heading R (hmem k hk).2 (hmem k hk).1
  have hafter := placed_after none hhead
    ⟨sectionOf R (both R layer publicBody layerBody) (a.key R),
      List.mem_map.mpr ⟨a.key R, mem_firsts.mpr (List.mem_map_of_mem ha), rfl⟩,
      dedupe_ne_nil R fun hnil => by
        obtain ⟨v, hv⟩ := List.exists_mem_of_ne_nil _ hunits
        have hin := (mem_unitsOf R).mpr ⟨b, hb, hkey, hv⟩
        rw [hnil] at hin
        exact absurd hin List.not_mem_nil⟩
    (n.map (sectionOf R (both R layer publicBody layerBody)))
  rw [← hmerged] at hafter
  rcases h s hs u hu hunknown with hcount | ⟨hcon, -⟩
  · have hin : (s.key R, u.key R) ∈ pairs R (parseBody R layer (splitFromPublic R
        (mergeForWriting R layer publicBody layerBody) publicBody)).sections := by
      rw [← List.count_pos_iff, hcount]
      exact Nat.one_pos
    rw [pairs_eq, cores_split R hp hl] at hin
    obtain ⟨c, hc, hpair⟩ := List.mem_map.mp hin
    have hfst : c.1.map (fun h => R.casefold (unitKey R h)) = none :=
      (congrArg Prod.fst hpair).trans ((key_none R).mpr hnone)
    exact hafter c (List.mem_of_mem_filter hc) (Option.map_eq_none_iff.mp hfst)
  · rw [(key_none R).mpr hnone] at hcon
    exact nomatch hcon

end

end

/-! ## two pages of one company -/

def ENGINEERING : Text := "engineering".toList

def factsPage : Text := "# Acme\n\n## Facts\n\n- a".toList

/-- a layer's page with a lead -/
def leadPage : Text := "# Acme\n\nlead\n\n## Facts\n\n- b".toList

/-- a layer's page without one, its list in two sections -/
def noLeadPage : Text := "# Acme\n\n## Facts\n\n- b\n\n## Decisions\n\n- a\n- c".toList

theorem page_factsPage : Page ascii Layers.PUBLIC factsPage :=
  ⟨by decide +kernel, by decide +kernel, by decide +kernel⟩

end Body
