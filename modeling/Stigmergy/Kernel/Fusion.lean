import Mathlib.Data.Finset.Card
import Stigmergy.Lib.StableSort
import Stigmergy.Kernel.Reading

/-!
# Fusing pages for a reader

`fuseForReading` puts the sections of all layers together: one for each key, each unit once, and by date where
every unit has one.

* `Deduped`       what a section keeps, unit after unit;
* `deduped_iff`   `dedupe` keeps just that;
* `GoesDown`      the dates of a section go down;
* `Fused`         a fused page, its dated sections in given directions;
* `fused_iff`     the directions are those of the first pages exactly when a first page shows its direction in
                  the first of its sections with a key;
* `not_fused`     a log in two sections is turned around.
-/

set_option linter.unusedSectionVars false

namespace Body

section
variable (R : Runtime)

/-! ## units once each -/

/-- one unit repeats another: in words, or in a list of connections by the page it links to -/
def Repeats (connections : Bool) (v u : BodyUnit) : Prop :=
  v.key R = u.key R ∨ connections = true ∧ ∃ t, target R v = some t ∧ target R u = some t

/-- what is kept of a list of units: each that repeats none kept before it -/
inductive Deduped (connections : Bool) : List BodyUnit → List BodyUnit → Prop where
  | nil : Deduped connections [] []
  | keep {us ks : List BodyUnit} {u : BodyUnit} (h : Deduped connections us ks)
      (hu : ∀ v ∈ ks, ¬Repeats R connections v u) : Deduped connections (us ++ [u]) (ks ++ [u])
  | drop {us ks : List BodyUnit} {u : BodyUnit} (h : Deduped connections us ks)
      (hu : ∃ v ∈ ks, Repeats R connections v u) : Deduped connections (us ++ [u]) ks

variable {R}

theorem deduped_unique {connections : Bool} {us ks ls : List BodyUnit} (h : Deduped R connections us ks)
    (h' : Deduped R connections us ls) : ks = ls := by
  induction h generalizing ls with
  | nil =>
    generalize hus : ([] : List BodyUnit) = us at h'
    cases h' with
    | nil => rfl
    | keep => exact absurd hus.symm (by simp)
    | drop => exact absurd hus.symm (by simp)
  | @keep us ks u _ hu ih =>
    generalize hus : us ++ [u] = vs at h'
    cases h' with
    | nil => exact absurd hus (by simp)
    | keep hrest hv =>
      obtain ⟨rfl, heq⟩ := List.append_inj' hus rfl
      obtain rfl := List.singleton_inj.mp heq
      rw [ih hrest]
    | drop hrest hv =>
      obtain ⟨rfl, heq⟩ := List.append_inj' hus rfl
      obtain rfl := List.singleton_inj.mp heq
      obtain ⟨v, hv, hrep⟩ := hv
      exact absurd hrep (hu v (ih hrest ▸ hv))
  | @drop us ks u _ hu ih =>
    generalize hus : us ++ [u] = vs at h'
    cases h' with
    | nil => exact absurd hus (by simp)
    | keep hrest hv =>
      obtain ⟨rfl, heq⟩ := List.append_inj' hus rfl
      obtain rfl := List.singleton_inj.mp heq
      obtain ⟨v, hmem, hrep⟩ := hu
      exact absurd hrep (hv v (ih hrest ▸ hmem))
    | drop hrest hv =>
      obtain ⟨rfl, heq⟩ := List.append_inj' hus rfl
      obtain rfl := List.singleton_inj.mp heq
      exact ih hrest

/-- the keys and the targets of what has been kept -/
structure Kept (connections : Bool) (ks : List BodyUnit) (seen targets : List Text) : Prop where
  seen : ∀ k, k ∈ seen ↔ ∃ v ∈ ks, v.key R = k
  targets : connections = true → ∀ t, t ∈ targets ↔ ∃ v ∈ ks, target R v = some t

theorem Kept.concat {connections : Bool} {ks : List BodyUnit} {seen targets : List Text} {u : BodyUnit}
    (h : Kept (R := R) connections ks seen targets) {more : List Text}
    (hmore : connections = true → ∀ t, t ∈ more ↔ t ∈ targets ∨ target R u = some t) :
    Kept (R := R) connections (ks ++ [u]) (u.key R :: seen) more := by
  constructor
  · intro k
    rw [List.mem_cons, h.seen k]
    simp only [List.mem_append, List.mem_singleton]
    constructor
    · rintro (rfl | ⟨v, hv, hk⟩)
      · exact ⟨u, Or.inr rfl, rfl⟩
      · exact ⟨v, Or.inl hv, hk⟩
    · rintro ⟨v, hv | rfl, hk⟩
      · exact Or.inr ⟨v, hv, hk⟩
      · exact Or.inl hk.symm
  · intro hc t
    rw [hmore hc t, h.targets hc t]
    simp only [List.mem_append, List.mem_singleton]
    constructor
    · rintro (⟨v, hv, ht⟩ | ht)
      · exact ⟨v, Or.inl hv, ht⟩
      · exact ⟨u, Or.inr rfl, ht⟩
    · rintro ⟨v, hv | rfl, ht⟩
      · exact Or.inl ⟨v, hv, ht⟩
      · exact Or.inr ht

theorem deduped_dedupeFrom {connections : Bool} {pre ks : List BodyUnit} {seen targets : List Text}
    (hpre : Deduped R connections pre ks) (h : Kept (R := R) connections ks seen targets) (us : List BodyUnit) :
    Deduped R connections (pre ++ us) (ks ++ dedupeFrom R connections seen targets us) := by
  induction us generalizing pre ks seen targets with
  | nil =>
    rw [dedupeFrom, List.append_nil, List.append_nil]
    exact hpre
  | cons u us ih =>
    have hdrop : (∃ v ∈ ks, Repeats R connections v u) →
        Deduped R connections (pre ++ u :: us) (ks ++ dedupeFrom R connections seen targets us) := by
      intro hrep
      have hnext := ih (hpre.drop hrep) h
      rwa [List.append_assoc, List.singleton_append] at hnext
    have hkeep : ∀ more, (∀ v ∈ ks, ¬Repeats R connections v u) →
        (connections = true → ∀ t, t ∈ more ↔ t ∈ targets ∨ target R u = some t) →
        Deduped R connections (pre ++ u :: us)
          (ks ++ u :: dedupeFrom R connections (u.key R :: seen) more us) := by
      intro more hnot hmore
      have hnext := ih (hpre.keep hnot) (h.concat hmore)
      rwa [List.append_assoc, List.append_assoc, List.singleton_append, List.singleton_append] at hnext
    rw [dedupeFrom]
    split
    · next hseen =>
      obtain ⟨v, hv, hk⟩ := (h.seen _).mp hseen
      exact hdrop ⟨v, hv, Or.inl hk⟩
    · next hseen =>
      have hkeys : ∀ v ∈ ks, v.key R ≠ u.key R := fun v hv hk => hseen ((h.seen _).mpr ⟨v, hv, hk⟩)
      split
      · next hnone =>
        refine hkeep targets ?_ ?_
        · rintro v hv (hk | ⟨hc, t, -, hu⟩)
          · exact hkeys v hv hk
          · rw [if_pos hc, hu] at hnone
            exact absurd hnone (Option.some_ne_none t)
        · intro hc t
          rw [if_pos hc] at hnone
          rw [hnone]
          simp
      · next t hsome =>
        have hc : connections = true := by
          by_contra hc
          rw [if_neg hc] at hsome
          exact absurd hsome.symm (Option.some_ne_none t)
        rw [if_pos hc] at hsome
        split
        · next ht =>
          obtain ⟨v, hv, hvt⟩ := (h.targets hc t).mp ht
          exact hdrop ⟨v, hv, Or.inr ⟨hc, t, hvt, hsome⟩⟩
        · next ht =>
          refine hkeep (t :: targets) ?_ ?_
          · rintro v hv (hk | ⟨-, t', hvt, hu⟩)
            · exact hkeys v hv hk
            · obtain rfl := Option.some.inj (hsome.symm.trans hu)
              exact ht ((h.targets hc t).mpr ⟨v, hv, hvt⟩)
          · intro _ t'
            rw [List.mem_cons, hsome, Option.some.injEq, or_comm, eq_comm]

/-- `_dedupe` keeps each unit that repeats none kept before it -/
theorem deduped_iff {connections : Bool} {us ks : List BodyUnit} :
    Deduped R connections us ks ↔ ks = dedupe R connections us := by
  have hstart : Kept (R := R) connections [] [] [] := ⟨fun k => by simp, fun _ t => by simp⟩
  have hall : Deduped R connections us (dedupe R connections us) := deduped_dedupeFrom .nil hstart us
  constructor
  · exact fun h => deduped_unique h hall
  · rintro rfl
    exact hall

/-! ## units by date -/

variable (R) in
/-- the date a unit begins with, as ISO text -/
def date (u : BodyUnit) : Text := (leadingDate R u).getD []

variable (R) in
/-- every unit begins with a date -/
def Dated (us : List BodyUnit) : Prop := ∀ u ∈ us, (leadingDate R u).isSome = true

variable (R) in
/-- there are two dates or more, and they go down -/
def GoesDown (us : List BodyUnit) : Prop :=
  Dated R us ∧ (∃ u ∈ us, ∃ v ∈ us, date R u ≠ date R v) ∧ us.Pairwise fun u v => date R v ≤ date R u

/-- the order of a direction -/
def Before (newest : Prop) (a b : Text) : Prop := (newest ∧ b ≤ a) ∨ (¬newest ∧ a ≤ b)

theorem text_total (a b : Text) : a ≤ b ∨ b ≤ a := le_total a b

theorem byDate_eq_of_not_dated {newest : Bool} {us : List BodyUnit} (h : ¬Dated R us) : byDate R newest us = us := by
  rw [byDate, if_neg]
  exact fun hall => h (List.all_eq_true.mp hall)

theorem byDate_sorted {newest : Bool} {us : List BodyUnit} (h : Dated R us) :
    StablySorted (date R) (Before (newest = true)) us (byDate R newest us) := by
  have hup : StablySorted (date R) (· ≤ ·) us (us.insertionSort fun u v => date R u ≤ date R v) :=
    stablySorted_insertionSort le_refl text_total (fun _ _ _ => le_trans) us
  have hdown : StablySorted (date R) (fun a b => b ≤ a) us (us.insertionSort fun u v => date R v ≤ date R u) :=
    @stablySorted_insertionSort _ _ _ (date R) (fun a b => b ≤ a) _ le_refl
      (fun a b => text_total b a) (fun _ _ _ hab hbc => le_trans hbc hab) us
  rw [byDate, if_pos (List.all_eq_true.mpr h)]
  cases newest with
  | false =>
    refine ⟨hup.perm, hup.ordered.imp fun hab => Or.inr ⟨Bool.false_ne_true, hab⟩, hup.ties⟩
  | true =>
    refine ⟨hdown.perm, hdown.ordered.imp fun hab => Or.inl ⟨rfl, hab⟩, hdown.ties⟩

theorem one_lt_dedup {α : Type} [DecidableEq α] (l : List α) :
    1 < l.dedup.length ↔ ∃ a ∈ l, ∃ b ∈ l, a ≠ b := by
  rw [← List.card_toFinset, Finset.one_lt_card]
  simp only [List.mem_toFinset]

theorem goesDown_iff (us : List BodyUnit) :
    ((us.map (leadingDate R)).all Option.isSome && 1 < (us.map (leadingDate R)).dedup.length &&
      us.map (leadingDate R) == (us.map (leadingDate R)).insertionSort fun a b => b.getD [] ≤ a.getD []) = true ↔
    GoesDown R us := by
  have ht : Std.Total fun a b : Option Text => b.getD [] ≤ a.getD [] := ⟨fun a b => text_total (b.getD []) (a.getD [])⟩
  have hr : IsTrans (Option Text) fun a b => b.getD [] ≤ a.getD [] := ⟨fun _ _ _ hab hbc => le_trans hbc hab⟩
  have hsorted : us.map (leadingDate R) =
      (us.map (leadingDate R)).insertionSort (fun a b => b.getD [] ≤ a.getD []) ↔
      us.Pairwise fun u v => date R v ≤ date R u := by
    constructor
    · intro h
      have hp := List.pairwise_insertionSort (fun a b : Option Text => b.getD [] ≤ a.getD []) (us.map (leadingDate R))
      rw [← h] at hp
      exact List.pairwise_map.mp hp
    · intro h
      exact (List.pairwise_map.mpr h).insertionSort_eq.symm
  have hdated : (us.map (leadingDate R)).all Option.isSome = true ↔ Dated R us := by
    rw [List.all_map, List.all_eq_true]
    rfl
  rw [Bool.and_eq_true, Bool.and_eq_true, hdated, beq_iff_eq, hsorted, decide_eq_true_iff, one_lt_dedup, and_assoc]
  refine and_congr_right fun hall => and_congr_left fun _ => ?_
  constructor
  · rintro ⟨a, ha, b, hb, hne⟩
    obtain ⟨u, hu, rfl⟩ := List.mem_map.mp ha
    obtain ⟨v, hv, rfl⟩ := List.mem_map.mp hb
    refine ⟨u, hu, v, hv, fun heq => hne ?_⟩
    obtain ⟨x, hx⟩ := Option.isSome_iff_exists.mp (hall u hu)
    obtain ⟨y, hy⟩ := Option.isSome_iff_exists.mp (hall v hv)
    rw [date, date, hx, hy] at heq
    rw [hx, hy]
    exact congrArg some heq
  · rintro ⟨u, hu, v, hv, hne⟩
    exact ⟨_, List.mem_map_of_mem hu, _, List.mem_map_of_mem hv, fun heq => hne (congrArg (Option.getD · []) heq)⟩

/-! ## fused sections -/

variable (R)

/-- the sections of all parts, one after another -/
def sectionsOf (parts : List (Text × Text)) : List BodySection :=
  parts.flatMap fun p => (parseBody R p.1 p.2).sections

/-- a page has a section with a key -/
def Has (key : Option Text) (p : Text × Text) : Prop := ∃ s ∈ (parseBody R p.1 p.2).sections, s.key R = key

/-- the first page that has a section writes its dates down -/
def PageGoesDown (parts : List (Text × Text)) (key : Option Text) : Prop :=
  ∃ pre p post, parts = pre ++ p :: post ∧ (∀ q ∈ pre, ¬Has R key q) ∧ Has R key p ∧
    GoesDown R (unitsOf R (parseBody R p.1 p.2).sections key)

/-- the first section with a key writes its dates down -/
def SectionGoesDown (parts : List (Text × Text)) (key : Option Text) : Prop :=
  ∃ pre s post, sectionsOf R parts = pre ++ s :: post ∧ (∀ r ∈ pre, r.key R ≠ key) ∧ s.key R = key ∧
    GoesDown R s.units

/-- a fused page: one section for each key, with the units kept of all the parts' units of that key; by date where
each has one, the newest first when so said, and one after another where one has none -/
structure Fused (newest : Option Text → Prop) (parts : List (Text × Text)) (out : List BodySection) : Prop where
  once : (out.map (BodySection.key R)).Nodup
  keys : ∀ k, k ∈ out.map (BodySection.key R) ↔ ∃ p ∈ parts, Has R k p
  units : ∀ s ∈ out, ∃ kept, Deduped R (s.key R == some CONNECTIONS) (unitsOf R (sectionsOf R parts) (s.key R)) kept ∧
    (Dated R kept → StablySorted (date R) (Before (newest (s.key R))) kept s.units) ∧ (¬Dated R kept → s.units = kept)

/-- where the dates of a section differ, its first page and its first section show the same direction -/
def DirectionShown (parts : List (Text × Text)) : Prop :=
  ∀ key kept, Deduped R (key == some CONNECTIONS) (unitsOf R (sectionsOf R parts) key) kept → Dated R kept →
    (∃ u ∈ kept, ∃ v ∈ kept, date R u ≠ date R v) → (PageGoesDown R parts key ↔ SectionGoesDown R parts key)

variable {R}

theorem newestFirst_iff (parts : List (Text × Text)) (key : Option Text) :
    newestFirst R (sectionsOf R parts) key = true ↔ SectionGoesDown R parts key := by
  unfold newestFirst
  cases hfind : (sectionsOf R parts).find? fun s => s.key R == key with
  | none =>
    refine iff_of_false Bool.false_ne_true ?_
    rintro ⟨pre, s, post, heq, -, hs, -⟩
    have hnone := List.find?_eq_none.mp hfind s (by rw [heq]; exact List.mem_append_right pre List.mem_cons_self)
    exact hnone (beq_iff_eq.mpr hs)
  | some s =>
    obtain ⟨hs, pre, post, heq, hpre⟩ := List.find?_eq_some_iff_append.mp hfind
    have hkey := beq_iff_eq.mp hs
    have hfront : ∀ r ∈ pre, r.key R ≠ key := fun r hr h => by
      have hne := hpre r hr
      rw [beq_iff_eq.mpr h] at hne
      exact absurd hne (by decide)
    refine (goesDown_iff s.units).trans ⟨fun h => ⟨pre, s, post, heq, hfront, hkey, h⟩, ?_⟩
    rintro ⟨pre', s', post', heq', hfront', hkey', h⟩
    have hfind' : (sectionsOf R parts).find? (fun s => s.key R == key) = some s' := by
      refine List.find?_eq_some_iff_append.mpr ⟨beq_iff_eq.mpr hkey', pre', post', heq', fun r hr => ?_⟩
      rw [beq_eq_false_iff_ne.mpr (hfront' r hr)]
      rfl
    rwa [Option.some.inj (hfind.symm.trans hfind')]

theorem fused_sections (parts : List (Text × Text)) :
    (fused R parts).sections = (firsts ((sectionsOf R parts).map (BodySection.key R))).map fun key =>
      ⟨headingOf R (sectionsOf R parts) key, byDate R (newestFirst R (sectionsOf R parts) key)
        (dedupe R (key == some CONNECTIONS) (unitsOf R (sectionsOf R parts) key))⟩ := by
  have hall : (parts.map fun p => parseBody R p.1 p.2).flatMap Parsed.sections = sectionsOf R parts := by
    rw [List.flatMap_map, sectionsOf]
  unfold fused combine
  simp only [hall, if_true]

/-- the section of a key on a fused page -/
theorem mem_fused_sections {parts : List (Text × Text)} {s : BodySection} (hs : s ∈ (fused R parts).sections) :
    (∃ p ∈ parts, Has R (s.key R) p) ∧ s.units = byDate R (newestFirst R (sectionsOf R parts) (s.key R))
      (dedupe R (s.key R == some CONNECTIONS) (unitsOf R (sectionsOf R parts) (s.key R))) := by
  rw [fused_sections] at hs
  obtain ⟨key, hkey, rfl⟩ := List.mem_map.mp hs
  obtain ⟨t, ht, htk⟩ := mem_keys R hkey
  have hk := sectionOf_key R ⟨t, ht, htk⟩
  have hk' : BodySection.key R ⟨headingOf R (sectionsOf R parts) key,
      byDate R (newestFirst R (sectionsOf R parts) key)
        (dedupe R (key == some CONNECTIONS) (unitsOf R (sectionsOf R parts) key))⟩ = key := hk
  rw [hk']
  obtain ⟨p, hp, htp⟩ := List.mem_flatMap.mp ht
  exact ⟨⟨p, hp, t, htp, htk⟩, rfl⟩

theorem fused_keys (parts : List (Text × Text)) :
    (fused R parts).sections.map (BodySection.key R) = firsts ((sectionsOf R parts).map (BodySection.key R)) := by
  rw [fused_sections, List.map_map]
  refine (List.map_congr_left fun key hkey => ?_).trans (List.map_id _)
  exact sectionOf_key R (mem_keys R hkey)

/-- a fused page is one in the directions its first pages show exactly when they show them in their first section -/
theorem fused_iff (parts : List (Text × Text)) :
    Fused R (PageGoesDown R parts) parts (fused R parts).sections ↔ DirectionShown R parts := by
  constructor
  · intro h key kept hkept hdated ⟨u, hu, v, hv, hne⟩
    have hused : u ∈ unitsOf R (sectionsOf R parts) key := by
      rw [deduped_iff.mp hkept] at hu
      exact mem_dedupeFrom R hu
    obtain ⟨t, ht, htk, -⟩ := (mem_unitsOf R).mp hused
    have hkey : key ∈ (fused R parts).sections.map (BodySection.key R) := by
      rw [fused_keys]
      exact mem_firsts.mpr (List.mem_map.mpr ⟨t, ht, htk⟩)
    obtain ⟨s, hs, rfl⟩ := List.mem_map.mp hkey
    obtain ⟨kept', hkept', hsorted, -⟩ := h.units s hs
    obtain rfl := deduped_unique hkept hkept'
    have hpage := hsorted hdated
    have hcode : StablySorted (date R) (Before (newestFirst R (sectionsOf R parts) (s.key R) = true)) _ _ :=
      byDate_sorted hdated
    rw [deduped_iff.mp hkept, ← (mem_fused_sections hs).2, ← deduped_iff.mp hkept] at hcode
    rw [← newestFirst_iff]
    by_contra hdiff
    refine hne (hpage.constant (fun a b hab hba => ?_) hcode u hu v hv)
    rcases hab with ⟨hp, hab⟩ | ⟨hp, hab⟩
    · rcases hba with ⟨hs, -⟩ | ⟨-, hba⟩
      · exact absurd (iff_of_true hp hs) hdiff
      · exact le_antisymm hba hab
    · rcases hba with ⟨-, hba⟩ | ⟨hs, -⟩
      · exact le_antisymm hab hba
      · exact absurd (iff_of_false hp hs) hdiff
  · intro h
    refine ⟨?_, fun k => ?_, fun s hs => ?_⟩
    · rw [fused_keys]
      exact nodup_firsts _
    · rw [fused_keys, mem_firsts]
      constructor
      · intro hk
        obtain ⟨t, ht, htk⟩ := List.mem_map.mp hk
        obtain ⟨p, hp, htp⟩ := List.mem_flatMap.mp ht
        exact ⟨p, hp, t, htp, htk⟩
      · rintro ⟨p, hp, t, htp, htk⟩
        exact List.mem_map.mpr ⟨t, List.mem_flatMap.mpr ⟨p, hp, htp⟩, htk⟩
    · refine ⟨_, deduped_iff.mpr rfl, fun hdated => ?_, fun hnot => ?_⟩
      · rw [(mem_fused_sections hs).2]
        have hcode : StablySorted (date R) (Before (newestFirst R (sectionsOf R parts) (s.key R) = true)) _ _ :=
          byDate_sorted hdated
        by_cases hsame : PageGoesDown R parts (s.key R) ↔ SectionGoesDown R parts (s.key R)
        · rw [← newestFirst_iff] at hsame
          refine ⟨hcode.perm, hcode.ordered.imp fun hab => ?_, hcode.ties⟩
          rwa [Before, hsame]
        · refine hcode.of_constant (fun a => ?_) fun u hu v hv => ?_
          · by_cases hp : PageGoesDown R parts (s.key R)
            · exact Or.inl ⟨hp, le_refl a⟩
            · exact Or.inr ⟨hp, le_refl a⟩
          · by_contra hne
            exact hsame (h _ _ (deduped_iff.mpr rfl) hdated ⟨u, hu, v, hv, hne⟩)
      · rw [(mem_fused_sections hs).2]
        exact byDate_eq_of_not_dated hnot

end

/-- a page that writes its log in two sections, the newest first -/
def logPage : Text := "# Acme\n\n## Log\n\n- 2024-03-01 c\n\n## Log\n\n- 2024-02-01 b".toList

def logPart : Text := "# Acme\n\n## Log\n\n- 2024-01-01 a".toList

def logParts : List (Text × Text) := [(Layers.PUBLIC, logPage), (ENGINEERING, logPart)]

def logKey : Option Text := some "## log".toList

theorem sectionsOf_logParts : sectionsOf ascii logParts =
    [⟨some "## Log".toList, [⟨.item, "- 2024-03-01 c".toList, Layers.PUBLIC⟩]⟩,
      ⟨some "## Log".toList, [⟨.item, "- 2024-02-01 b".toList, Layers.PUBLIC⟩]⟩,
      ⟨some "## Log".toList, [⟨.item, "- 2024-01-01 a".toList, ENGINEERING⟩]⟩] := by
  decide +kernel

theorem fused_logParts : (fused ascii logParts).sections = [⟨some "## Log".toList,
    [⟨.item, "- 2024-01-01 a".toList, ENGINEERING⟩, ⟨.item, "- 2024-02-01 b".toList, Layers.PUBLIC⟩,
      ⟨.item, "- 2024-03-01 c".toList, Layers.PUBLIC⟩]⟩] := by
  decide +kernel

theorem pageGoesDown_logParts : PageGoesDown ascii logParts logKey := by
  refine ⟨[], (Layers.PUBLIC, logPage), [(ENGINEERING, logPart)], rfl, fun q hq => absurd hq List.not_mem_nil, ?_,
    (goesDown_iff _).mp (by decide +kernel)⟩
  exact ⟨⟨some "## Log".toList, [⟨.item, "- 2024-03-01 c".toList, Layers.PUBLIC⟩]⟩, by decide +kernel, by decide +kernel⟩

/-- a log that goes on in a second section is turned around -/
theorem not_fused : ¬∀ (R : Runtime) (parts : List (Text × Text)),
    Fused R (PageGoesDown R parts) parts (fused R parts).sections := by
  intro hall
  have hfused := hall ascii logParts
  rw [fused_logParts] at hfused
  obtain ⟨kept, hkept, hsorted, -⟩ := hfused.units _ (List.mem_singleton_self _)
  have hdated : Dated ascii kept := by
    rw [deduped_iff.mp hkept]
    exact List.all_eq_true.mp (by decide +kernel)
  have hkey : BodySection.key ascii ⟨some "## Log".toList,
    [⟨.item, "- 2024-01-01 a".toList, ENGINEERING⟩, ⟨.item, "- 2024-02-01 b".toList, Layers.PUBLIC⟩,
      ⟨.item, "- 2024-03-01 c".toList, Layers.PUBLIC⟩]⟩ = logKey := by
    decide +kernel
  rw [hkey] at hsorted
  have hfirst := List.rel_of_pairwise_cons (hsorted hdated).ordered List.mem_cons_self
  rcases hfirst with ⟨-, hle⟩ | ⟨hnot, -⟩
  · exact absurd hle (by decide +kernel)
  · exact hnot pageGoesDown_logParts

end Body
