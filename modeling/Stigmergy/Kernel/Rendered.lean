import Stigmergy.Kernel.Units

/-!
# Bodies read back

A rendered body is parsed back to its units: each under its own heading, but for units without a heading
that stand after a section that has one, which become the end of that section.

* `cores`, `placed`    the units under their headings, as written and as read back;
* `reparse`            a rendered body read back;
* `Page`               pages that are read as they are written;
* `pairs`              the units of sections by their keys.
-/

set_option linter.unusedSectionVars false

namespace Body

section
variable (R : Runtime)

/-! ## lines of units -/

def BodyUnit.lines (u : BodyUnit) : List Text := Text.linesOf u.text

/-- the lines `joinUnits` writes -/
def unitsLines : List BodyUnit → List Text
  | [] => []
  | [u] => u.lines
  | u :: v :: us =>
    u.lines ++ (if u.kind = .item ∧ v.kind = .item then [] else [[]]) ++ unitsLines (v :: us)

theorem lines_ne_nil (u : BodyUnit) : u.lines ≠ [] := Text.linesOf_ne_nil u.text

theorem unlines_lines (u : BodyUnit) : Text.unlines u.lines = u.text := Text.unlines_linesOf u.text

theorem unitsLines_ne_nil {us : List BodyUnit} (h : us ≠ []) : unitsLines us ≠ [] := by
  cases us with
  | nil => exact absurd rfl h
  | cons u us =>
    cases us with
    | nil => exact lines_ne_nil u
    | cons v us =>
      refine List.append_ne_nil_of_left_ne_nil ?_ _
      exact List.append_ne_nil_of_left_ne_nil (lines_ne_nil u) _

theorem unitsLines_head (u : BodyUnit) (us : List BodyUnit) :
    ∃ more, unitsLines (u :: us) = u.lines ++ more := by
  cases us with
  | nil => exact ⟨[], (List.append_nil u.lines).symm⟩
  | cons v us => exact ⟨_, List.append_assoc _ _ _⟩

theorem joinUnits_eq {us : List BodyUnit} (h : us ≠ []) :
    joinUnits R false us = Text.unlines (unitsLines us) := by
  induction us with
  | nil => exact absurd rfl h
  | cons u us ih =>
    cases us with
    | nil => exact (unlines_lines u).symm
    | cons v us =>
      have hv := ih (List.cons_ne_nil v us)
      have hne := unitsLines_ne_nil (List.cons_ne_nil v us)
      rw [joinUnits, unitsLines, hv]
      show u.text ++ _ ++ _ = _
      rw [List.append_assoc, List.append_assoc, Text.unlines_append (lines_ne_nil u), unlines_lines]
      · split
        · rfl
        · rw [Text.unlines_append (List.cons_ne_nil [] []) hne]
          rfl
      · split
        · exact hne
        · exact List.cons_ne_nil _ _

theorem Solid.lines_eq {u : BodyUnit} {ls : List Text} (ht : u.text = Text.unlines ls)
    (hclean : ∀ l ∈ ls, '\n' ∉ l) (hne : ls ≠ []) : u.lines = ls := by
  unfold BodyUnit.lines
  rw [ht, Text.linesOf_unlines hclean hne]

theorem not_mem_newline_snoc {init : List Text} {l : Text} (h : ∀ a ∈ init, '\n' ∉ a)
    (hl : '\n' ∉ l) : ∀ a ∈ init ++ [l], '\n' ∉ a := fun a ha => by
  rcases List.mem_append.mp ha with ha | ha
  · exact h a ha
  · rw [List.mem_singleton.mp ha]
    exact hl

/-- a solid unit begins with a line that shows its kind -/
theorem Solid.head {u : BodyUnit} (h : Solid R u) : ∃ l rest, u.lines = l :: rest ∧
    Text.isBlank l = false ∧ (u.kind = .item → lineKind R l = .item) := by
  cases h with
  | prose ls hrun ht =>
    rw [Solid.lines_eq ht hrun.clean (hrun.ne_nil R)]
    exact hrun.head
  | callout init l hrun hl hn hk ht =>
    have hclean := not_mem_newline_snoc hrun.clean hn
    rw [Solid.lines_eq ht hclean (List.concat_ne_nil l init)]
    obtain ⟨a, rest, rfl, ha, -⟩ := hrun.head
    exact ⟨a, rest ++ [l], rfl, ha, fun e => by rw [hk] at e; exact nomatch e⟩

theorem Solid.last {u : BodyUnit} (h : Solid R u) : ∃ init l, u.lines = init ++ [l] ∧
    Text.isBlank l = false := by
  cases h with
  | prose ls hrun ht =>
    rw [Solid.lines_eq ht hrun.clean (hrun.ne_nil R)]
    exact hrun.last rfl
  | callout init l hrun hl hn hk ht =>
    have hclean := not_mem_newline_snoc hrun.clean hn
    rw [Solid.lines_eq ht hclean (List.concat_ne_nil l init)]
    exact ⟨init, l, rfl, not_blank_of_startsWith rfl hl⟩

/-! ## feeding units -/

/-- one more unit in the section that is open -/
def Parser.add (p : Parser) (us : List BodyUnit) : Parser :=
  { p with units := p.units ++ us.map fun u => { u with layer := p.layer } }

theorem Parser.add_fresh {p : Parser} (h : p.Fresh) (us : List BodyUnit) : (p.add us).Fresh := h

theorem Parser.add_add (p : Parser) (us vs : List BodyUnit) :
    (p.add us).add vs = p.add (us ++ vs) := by
  unfold Parser.add
  rw [List.map_append, ← List.append_assoc]

theorem feed_unit {p : Parser} (hp : p.Fresh) {u : BodyUnit} (h : Solid R u) :
    (u.lines.foldl (Parser.step R) p).mode = .prose ∧
      (u.lines.foldl (Parser.step R) p).flush = p.add [u] := by
  cases h with
  | prose ls hrun ht =>
    rw [Solid.lines_eq ht hrun.clean (hrun.ne_nil R), hrun.opens p hp]
    refine ⟨rfl, ?_⟩
    rw [flush_run R hrun, ← ht, Parser.add, ← hp.1, ← hp.2.1, ← hp.2.2]
    rfl
  | callout init l hrun hl hn hk ht =>
    have hclean := not_mem_newline_snoc hrun.clean hn
    rw [Solid.lines_eq ht hclean (List.concat_ne_nil l init), List.foldl_append, hrun.opens p hp]
    have hstep : Parser.step R { p with current := init, kind := some .callout, mode := .callout } l =
        p.add [u] := by
      unfold Parser.step
      simp only [hl, if_true]
      rw [← ht, Parser.add, ← hk, ← hp.1, ← hp.2.1, ← hp.2.2]
      rfl
    rw [List.foldl_cons, List.foldl_nil, hstep]
    exact ⟨hp.2.2, flush_fresh (p.add_fresh hp [u])⟩

theorem flush_flush (p : Parser) : p.flush.flush = p.flush := by
  unfold Parser.flush
  rfl

theorem step_blank {q : Parser} (hm : q.mode = .prose) : Parser.step R q [] = q.flush :=
  step_prose R hm rfl

/-- an item closes what is open -/
theorem foldl_item {q : Parser} (hm : q.mode = .prose) {l : Text} (hl : lineKind R l = .item)
    (rest : List Text) :
    (l :: rest).foldl (Parser.step R) q = (l :: rest).foldl (Parser.step R) q.flush := by
  have hflush : q.flush.flush = q.flush := flush_flush q
  have hm' : q.flush.mode = .prose := hm
  rw [List.foldl_cons, List.foldl_cons, step_prose R hm hl, step_prose R hm' hl]
  unfold Parser.proseStep
  dsimp only
  rw [hflush]

theorem feed_units {us : List BodyUnit} (hus : us ≠ []) (h : ∀ u ∈ us, Solid R u) {p : Parser}
    (hp : p.Fresh) : ((unitsLines us).foldl (Parser.step R) p).mode = .prose ∧
      ((unitsLines us).foldl (Parser.step R) p).flush = p.add us := by
  induction us generalizing p with
  | nil => exact absurd rfl hus
  | cons u us ih =>
    have hu := h u List.mem_cons_self
    cases us with
    | nil => exact feed_unit R hp hu
    | cons v us =>
      have hv := h v (List.mem_cons_of_mem u List.mem_cons_self)
      obtain ⟨hmode, hflush⟩ := feed_unit R hp hu
      have hrest := ih (List.cons_ne_nil v us) (fun w hw => h w (List.mem_cons_of_mem u hw))
        (p.add_fresh hp [u])
      rw [Parser.add_add, List.singleton_append] at hrest
      rw [unitsLines, List.append_assoc, List.foldl_append]
      by_cases hitem : u.kind = .item ∧ v.kind = .item
      · rw [if_pos hitem, List.nil_append]
        obtain ⟨l, rest, hl, -, hk⟩ := hv.head R
        obtain ⟨more, hmore⟩ := unitsLines_head v us
        rw [hmore, hl, List.cons_append] at hrest ⊢
        rw [foldl_item R hmode (hk hitem.2), hflush]
        exact hrest
      · rw [if_neg hitem, List.foldl_append, List.foldl_cons, List.foldl_nil, step_blank R hmode, hflush]
        exact hrest

/-! ## feeding sections -/

/-- the units of sections under their headings -/
def cores (ss : List BodySection) : List (Option Text × Kind × Text) :=
  ss.flatMap fun s => s.units.map fun u => (s.heading, u.kind, Text.rstrip u.text)

/-- the same after they are written and read: what has no heading falls under the one before it -/
def placed : Option Text → List BodySection → List (Option Text × Kind × Text)
  | _, [] => []
  | h, s :: ss =>
    if s.units.isEmpty then placed h ss
    else
      s.units.map (fun u => (s.heading.or h, u.kind, Text.rstrip u.text)) ++
        placed (s.heading.or h) ss

/-- the lines of a section, after a blank one -/
def sectionLines (s : BodySection) : List Text :=
  if s.units.isEmpty then [] else [] :: (s.heading.toList ++ unitsLines s.units)

def docLines (ss : List BodySection) : List Text := ss.flatMap sectionLines

def Parser.cores (p : Parser) : List (Option Text × Kind × Text) := Body.cores (p.sections ++ [p.last])

theorem Parser.cores_add (p : Parser) (us : List BodyUnit) : (p.add us).cores =
    p.cores ++ us.map fun u => (p.heading, u.kind, Text.rstrip u.text) := by
  unfold Parser.cores Body.cores Parser.add Parser.last
  simp [List.map_map, Function.comp_def]

/-- what the section that begins at a heading changes -/
theorem step_heading {q : Parser} (hm : q.mode = .prose) (hf : q.Fresh) {h : Text}
    (hh : IsHeading R h) : (Parser.step R q h).Fresh ∧ (Parser.step R q h).cores = q.cores ∧
      (Parser.step R q h).heading = some h := by
  rw [step_prose R hm hh.kind]
  unfold Parser.proseStep
  dsimp only
  rw [flush_fresh hf, hh.stripped]
  refine ⟨hf, ?_, rfl⟩
  unfold Parser.cores Body.cores Parser.last
  simp

/-- sections that can be written: solid units under headings -/
structure Written (ss : List BodySection) : Prop where
  units : ∀ s ∈ ss, ∀ u ∈ s.units, Solid R u
  headings : ∀ s ∈ ss, ∀ h, s.heading = some h → IsHeading R h

theorem feed_section {s : BodySection} (hu : ∀ u ∈ s.units, Solid R u)
    (hh : ∀ h, s.heading = some h → IsHeading R h) (hne : s.units ≠ []) {q : Parser}
    (hm : q.mode = .prose) (hf : q.flush.Fresh) :
    let q' := (sectionLines s).foldl (Parser.step R) q
    q'.mode = .prose ∧ q'.flush.Fresh ∧ q'.flush.heading = s.heading.or q.flush.heading ∧
      q'.flush.cores = q.flush.cores ++
        s.units.map fun u => (s.heading.or q.flush.heading, u.kind, Text.rstrip u.text) := by
  intro q'
  have hemp : ¬ s.units.isEmpty = true := by simpa using hne
  obtain ⟨p, hp, hcores, hhead, hq'⟩ : ∃ p : Parser, p.Fresh ∧ p.cores = q.flush.cores ∧
      p.heading = s.heading.or q.flush.heading ∧
      q' = (unitsLines s.units).foldl (Parser.step R) p := by
    show ∃ p : Parser, _ ∧ _ ∧ _ ∧ (sectionLines s).foldl (Parser.step R) q = _
    rw [sectionLines, if_neg hemp, List.foldl_cons, step_blank R hm, List.foldl_append]
    cases hs : s.heading with
    | none => exact ⟨q.flush, hf, rfl, rfl, rfl⟩
    | some h =>
      obtain ⟨hfresh, hcores, hhead⟩ := step_heading R hf.2.2 hf (hh h hs)
      exact ⟨Parser.step R q.flush h, hfresh, hcores, hhead, rfl⟩
  obtain ⟨hmode, hflush⟩ := feed_units R hne hu hp
  rw [← hq'] at hmode hflush
  rw [hflush, Parser.cores_add, hcores, ← hhead]
  exact ⟨hmode, p.add_fresh hp s.units, rfl, rfl⟩

theorem feed_doc {ss : List BodySection} (h : Written R ss) {q : Parser} (hm : q.mode = .prose)
    (hf : q.flush.Fresh) :
    let q' := (docLines ss).foldl (Parser.step R) q
    q'.mode = .prose ∧ q'.flush.Fresh ∧
      q'.flush.cores = q.flush.cores ++ placed q.flush.heading ss := by
  induction ss generalizing q with
  | nil =>
    refine ⟨hm, hf, ?_⟩
    rw [placed, List.append_nil]
    rfl
  | cons s ss ih =>
    have hw : Written R ss :=
      ⟨fun t ht => h.units t (List.mem_cons_of_mem s ht),
        fun t ht => h.headings t (List.mem_cons_of_mem s ht)⟩
    intro q'
    have hq' : q' = (docLines ss).foldl (Parser.step R) ((sectionLines s).foldl (Parser.step R) q) := by
      show (docLines (s :: ss)).foldl (Parser.step R) q = _
      rw [docLines, List.flatMap_cons, List.foldl_append]
      rfl
    rw [hq', placed]
    by_cases hne : s.units.isEmpty = true
    · rw [if_pos hne, sectionLines, if_pos hne]
      exact ih hw hm hf
    · obtain ⟨hm', hf', hhead, hcores⟩ := feed_section R (h.units s List.mem_cons_self)
        (h.headings s List.mem_cons_self) (by simpa using hne) hm hf
      obtain ⟨hmode, hfresh, hrest⟩ := ih hw hm' hf'
      rw [if_neg hne]
      refine ⟨hmode, hfresh, ?_⟩
      rw [hrest, hcores, hhead, List.append_assoc]

/-! ## rendered text -/

theorem isBlank_unlines_cons {l : Text} (hl : Text.isBlank l = false) (ls : List Text) :
    Text.isBlank (Text.unlines (l :: ls)) = false := by
  cases ls with
  | nil => rwa [Text.unlines_singleton]
  | cons m ls => rw [Text.unlines_cons (List.cons_ne_nil m ls), Text.isBlank_append, hl, Bool.false_and]

theorem Solid.text_ne_nil {u : BodyUnit} (h : Solid R u) : u.text ≠ [] := by
  obtain ⟨l, rest, hl, hb, -⟩ := h.head R
  rw [← unlines_lines u, hl]
  exact Text.ne_nil_of_not_blank (isBlank_unlines_cons hb rest)

theorem renderSection_eq {s : BodySection} (hu : ∀ u ∈ s.units, u.text ≠ []) :
    renderSection R false s =
      if s.units.isEmpty then none
      else some (Text.unlines (s.heading.toList ++ unitsLines s.units)) := by
  cases hs : s.units with
  | nil =>
    unfold renderSection
    rw [hs]
    cases s.heading with
    | none => rfl
    | some h => rfl
  | cons u us =>
    have hne : u :: us ≠ [] := List.cons_ne_nil u us
    have htext : u.text ≠ [] := hu u (by rw [hs]; exact List.mem_cons_self)
    have hemp : (joinUnits R false (u :: us)).isEmpty = false := by
      rw [List.isEmpty_eq_false_iff]
      cases us with
      | nil => exact htext
      | cons v us => exact List.append_ne_nil_of_left_ne_nil (List.append_ne_nil_of_left_ne_nil htext _) _
    unfold renderSection
    rw [hs]
    simp only [List.isEmpty_cons, Bool.false_and, Bool.false_eq_true, if_false, hemp]
    cases s.heading with
    | none => rw [joinUnits_eq R hne]; rfl
    | some h =>
      show some (h ++ '\n' :: _) = some (Text.unlines (h :: unitsLines (u :: us)))
      rw [joinUnits_eq R hne, Text.unlines_cons (unitsLines_ne_nil hne)]

/-- the parts joined by blank lines are the lines of the sections -/
theorem intercalate_sections {ss : List BodySection} (h : ∀ s ∈ ss, ∀ u ∈ s.units, u.text ≠ [])
    {ls : List Text} (hls : ls ≠ []) :
    ['\n', '\n'].intercalate (Text.unlines ls :: ss.filterMap (renderSection R false)) =
      Text.unlines (ls ++ docLines ss) := by
  induction ss generalizing ls with
  | nil =>
    rw [docLines, List.flatMap_nil, List.append_nil, List.filterMap_nil, List.intercalate_singleton]
  | cons s ss ih =>
    have hss := fun t ht => h t (List.mem_cons_of_mem s ht)
    have hs := renderSection_eq R (h s List.mem_cons_self)
    have hdoc : docLines (s :: ss) = sectionLines s ++ docLines ss := List.flatMap_cons
    rw [hdoc, sectionLines]
    by_cases hne : s.units.isEmpty = true
    · rw [if_pos hne] at hs ⊢
      rw [List.filterMap_cons_none hs, List.nil_append]
      exact ih hss hls
    · rw [if_neg hne] at hs ⊢
      have hchunk : s.heading.toList ++ unitsLines s.units ≠ [] :=
        List.append_ne_nil_of_right_ne_nil _ (unitsLines_ne_nil (by simpa using hne))
      rw [List.filterMap_cons_some hs, List.intercalate_cons_of_ne_nil (List.cons_ne_nil _ _),
        ih hss hchunk, List.cons_append, Text.unlines_append hls (List.cons_ne_nil _ _),
        Text.unlines_cons (List.append_ne_nil_of_left_ne_nil hchunk _)]
      simp

/-- a rendered body is its lines without the white space at its end -/
theorem renderBody_docLines {t : Text} {ss : List BodySection} (ht : ∃ u, t = '#' :: u)
    (h : ∀ s ∈ ss, ∀ u ∈ s.units, u.text ≠ []) :
    renderBody R false ⟨t, ss⟩ = Text.rstrip (Text.unlines (t :: docLines ss)) ++ ['\n'] := by
  obtain ⟨u, rfl⟩ := ht
  have hparts := intercalate_sections R h (List.cons_ne_nil ('#' :: u) [])
  rw [Text.unlines_singleton, List.singleton_append] at hparts
  have hlstrip : Text.lstrip (Text.unlines (('#' :: u) :: docLines ss)) =
      Text.unlines (('#' :: u) :: docLines ss) := by
    have hhead := Text.head?_unlines_cons (List.cons_ne_nil '#' u) (docLines ss)
    rw [List.head?_cons] at hhead
    obtain ⟨v, hv⟩ := List.head?_eq_some_iff.mp hhead
    rw [hv]
    exact Text.lstrip_eq_self rfl
  unfold renderBody
  simp only [List.isEmpty_cons, Bool.false_eq_true, if_false, List.singleton_append]
  rw [hparts, Text.strip, hlstrip]

/-- a title line as the parser keeps it -/
structure IsTitle (t : Text) : Prop where
  mark : Text.startsWith "# ".toList t = true
  stripped : Text.rstrip t = t
  clean : '\n' ∉ t

theorem IsTitle.head {t : Text} (h : IsTitle t) : ∃ u, t = '#' :: u := by
  obtain ⟨u, hu⟩ := List.isPrefixOf_iff_prefix.mp h.mark
  exact ⟨' ' :: u, hu.symm⟩

theorem IsTitle.not_blank {t : Text} (h : IsTitle t) : Text.isBlank t = false :=
  not_blank_of_startsWith rfl h.mark

theorem unitsLines_last {us : List BodyUnit} (hne : us ≠ []) (h : ∀ u ∈ us, Solid R u) :
    ∃ init l, unitsLines us = init ++ [l] ∧ Text.isBlank l = false := by
  induction us with
  | nil => exact absurd rfl hne
  | cons u us ih =>
    cases us with
    | nil => exact (h u List.mem_cons_self).last R
    | cons v us =>
      obtain ⟨init, l, hl, hb⟩ := ih (List.cons_ne_nil v us) fun w hw => h w (List.mem_cons_of_mem u hw)
      rw [unitsLines, hl, ← List.append_assoc]
      exact ⟨_, l, rfl, hb⟩

theorem docLines_last {ss : List BodySection} (h : ∀ s ∈ ss, ∀ u ∈ s.units, Solid R u) :
    docLines ss = [] ∨ ∃ init l, docLines ss = init ++ [l] ∧ Text.isBlank l = false := by
  induction ss with
  | nil => exact Or.inl rfl
  | cons s ss ih =>
    have hdoc : docLines (s :: ss) = sectionLines s ++ docLines ss := List.flatMap_cons
    rw [hdoc]
    rcases ih fun t ht => h t (List.mem_cons_of_mem s ht) with hnil | ⟨init, l, hl, hb⟩
    · rw [hnil, List.append_nil, sectionLines]
      by_cases hne : s.units.isEmpty = true
      · exact Or.inl (if_pos hne)
      · obtain ⟨init, l, hl, hb⟩ := unitsLines_last R (by simpa using hne) (h s List.mem_cons_self)
        refine Or.inr ⟨[] :: (s.heading.toList ++ init), l, ?_, hb⟩
        rw [if_neg hne, hl, List.cons_append, List.append_assoc]
    · exact Or.inr ⟨sectionLines s ++ init, l, by rw [hl, List.append_assoc], hb⟩

theorem unitsLines_clean (us : List BodyUnit) : ∀ l ∈ unitsLines us, '\n' ∉ l := by
  induction us with
  | nil => exact fun l hl => absurd hl List.not_mem_nil
  | cons u us ih =>
    cases us with
    | nil => exact fun l hl => Text.mem_linesOf_newline hl
    | cons v us =>
      intro l hl
      rw [unitsLines] at hl
      rcases List.mem_append.mp hl with hl | hl
      · rcases List.mem_append.mp hl with hl | hl
        · exact Text.mem_linesOf_newline hl
        · split at hl
          · exact absurd hl List.not_mem_nil
          · rw [List.mem_singleton.mp hl]
            exact List.not_mem_nil
      · exact ih l hl

theorem docLines_clean {ss : List BodySection} (h : Written R ss) : ∀ l ∈ docLines ss, '\n' ∉ l := by
  intro l hl
  obtain ⟨s, hs, hl⟩ := List.mem_flatMap.mp hl
  rw [sectionLines] at hl
  split at hl
  · exact absurd hl List.not_mem_nil
  · rcases List.mem_cons.mp hl with rfl | hl
    · exact List.not_mem_nil
    · rcases List.mem_append.mp hl with hl | hl
      · exact (h.headings s hs l (Option.mem_toList.mp hl)).clean
      · exact unitsLines_clean s.units l hl

/-- the title and the lines of a text that is lines -/
theorem titled_unlines {t : Text} {rest : List Text} {last : Text} {init : List Text} (ht : IsTitle t)
    (hrest : ∀ l ∈ rest, '\n' ∉ l) (hlast : t :: rest = init ++ [last])
    (hb : Text.isBlank last = false) : titled (Text.unlines (t :: rest) ++ ['\n']) = (t, rest) := by
  have hclean : ∀ a ∈ t :: rest, '\n' ∉ a := fun a ha => by
    rcases List.mem_cons.mp ha with rfl | ha
    · exact ht.clean
    · exact hrest a ha
  have hhead : (Text.unlines (t :: rest)).head? ≠ some '\n' := by
    obtain ⟨u, rfl⟩ := ht.head
    rw [Text.head?_unlines_cons (List.cons_ne_nil _ _), List.head?_cons]
    exact nofun
  have hstrip : Text.stripChar '\n' (Text.unlines (t :: rest) ++ ['\n']) =
      Text.unlines (t :: rest) := by
    rw [Text.stripChar_concat hhead
      (Text.ne_nil_of_not_blank (isBlank_unlines_cons ht.not_blank rest))]
    exact stripChar_unlines hlast ht.not_blank hb hclean
  unfold titled
  have hdrop : (t :: rest).dropWhile Text.isBlank = t :: rest :=
    List.dropWhile_cons_of_neg (by rw [ht.not_blank]; exact Bool.false_ne_true)
  rw [hstrip, Text.linesOf_unlines hclean (List.cons_ne_nil t rest), hdrop]
  dsimp only
  rw [if_pos ht.mark, ht.stripped]

/-- the lines of a rendered body: those of its sections, the last one without the white space after it -/
theorem titled_render {t : Text} {ss : List BodySection} (ht : IsTitle t) (h : Written R ss) :
    (docLines ss = [] ∧ titled (renderBody R false ⟨t, ss⟩) = (t, [])) ∨
      ∃ init l, docLines ss = init ++ [l] ∧ Text.isBlank l = false ∧
        titled (renderBody R false ⟨t, ss⟩) = (t, init ++ [Text.rstrip l]) := by
  have hrender := renderBody_docLines R ht.head fun s hs u hu => (h.units s hs u hu).text_ne_nil R
  rw [hrender]
  rcases docLines_last R h.units with hnil | ⟨init, l, hl, hb⟩
  · refine Or.inl ⟨hnil, ?_⟩
    rw [hnil, Text.unlines_singleton, ht.stripped]
    have htitled : titled (Text.unlines [t] ++ ['\n']) = (t, []) :=
      titled_unlines ht (fun _ hl => absurd hl List.not_mem_nil) (List.nil_append [t]).symm ht.not_blank
    rwa [Text.unlines_singleton] at htitled
  · refine Or.inr ⟨init, l, hl, hb, ?_⟩
    rw [hl, ← List.cons_append, Text.rstrip_unlines_concat _ hb]
    refine titled_unlines ht ?_ (List.cons_append ..).symm (Text.not_blank_rstrip hb)
    intro a ha
    rcases List.mem_append.mp ha with ha | ha
    · exact docLines_clean R h a (by rw [hl]; exact List.mem_append_left _ ha)
    · rw [List.mem_singleton.mp ha]
      intro hn
      exact docLines_clean R h l (by rw [hl]; exact List.mem_append_right _ (List.mem_singleton_self l))
        ((Text.rstrip_prefix l).subset hn)

/-! ## reading it back -/

theorem flush_open (p : Parser) (cs : List Text) {l : Text} (hl : Text.isBlank l = false)
    (k : Option Kind) (m : Mode) :
    Parser.flush { p with current := cs ++ [l], kind := k, mode := m } =
      { p with
        units := p.units ++
          [⟨k.getD .paragraph, Text.stripChar '\n' (Text.unlines (cs ++ [l])), p.layer⟩]
        current := []
        kind := none
        mode := m } := by
  have hany : ((cs ++ [l]).any fun line => !Text.isBlank line) = true := by
    rw [List.any_append, List.any_cons, hl]
    simp
  unfold Parser.flush
  simp only [hany, if_true]

theorem flush_trim (p : Parser) (cs : List Text) {l : Text} (hl : Text.isBlank l = false)
    (k : Option Kind) (m : Mode) :
    (Parser.flush { p with current := cs ++ [Text.rstrip l], kind := k, mode := m }).cores =
      (Parser.flush { p with current := cs ++ [l], kind := k, mode := m }).cores := by
  obtain ⟨w, hw, hlw⟩ := Text.rstrip_append l
  have htext : Text.rstrip (Text.stripChar '\n' (Text.unlines (cs ++ [l]))) =
      Text.rstrip (Text.stripChar '\n' (Text.unlines (cs ++ [Text.rstrip l]))) := by
    have hb : Text.isBlank (Text.unlines (cs ++ [Text.rstrip l])) = false := by
      refine Bool.eq_false_iff.mpr fun hall => ?_
      refine Bool.eq_false_iff.mp (Text.not_blank_rstrip hl) (Text.isBlank_iff.mpr fun c hc => ?_)
      refine Text.isBlank_iff.mp hall c ?_
      have hlast := Text.unlines_concat_append cs [] (Text.rstrip l)
      rw [List.nil_append] at hlast
      rw [hlast]
      exact List.mem_append_right _ hc
    nth_rewrite 1 [hlw]
    rw [Text.unlines_concat_append]
    exact Text.rstrip_stripChar_append hb hw
  rw [flush_open p cs hl, flush_open p cs (Text.not_blank_rstrip hl)]
  unfold Parser.cores Body.cores Parser.last
  simp [htext]

/-- the white space after the last line does not matter -/
theorem step_trim {q : Parser} {l : Text} (hl : Text.isBlank l = false)
    (hk : q.mode = .prose → lineKind R (Text.rstrip l) = lineKind R l)
    (ha : (Parser.step R q l).mode = .prose) : (Parser.step R q (Text.rstrip l)).mode = .prose ∧
      (Parser.step R q (Text.rstrip l)).flush.cores = (Parser.step R q l).flush.cores := by
  cases hm : q.mode with
  | fence =>
    unfold Parser.step at ha ⊢
    rw [hm] at ha ⊢
    dsimp only at ha ⊢
    rw [fenceLine_rstrip]
    exact ⟨ha, flush_trim q q.current hl q.kind _⟩
  | callout =>
    unfold Parser.step at ha ⊢
    rw [hm] at ha ⊢
    dsimp only at ha ⊢
    have hend : Text.startsWith CALLOUT_END (Text.rstrip l) = Text.startsWith CALLOUT_END l :=
      startsWith_rstrip rfl
    rw [hend]
    by_cases he : Text.startsWith CALLOUT_END l = true
    · rw [if_pos he, if_pos he]
      refine ⟨rfl, ?_⟩
      obtain ⟨w, hw, hlw⟩ := Text.rstrip_append l
      have htext : Text.rstrip (Text.unlines (q.current ++ [l])) =
          Text.rstrip (Text.unlines (q.current ++ [Text.rstrip l])) := by
        nth_rewrite 1 [hlw]
        rw [Text.unlines_concat_append, Text.rstrip_append_blank hw]
      rw [flush_fresh ⟨rfl, rfl, rfl⟩, flush_fresh ⟨rfl, rfl, rfl⟩]
      unfold Parser.cores Body.cores Parser.last
      simp [htext]
    · rw [if_neg he] at ha
      cases ha
  | prose =>
    have hkind := hk hm
    cases hlk : lineKind R l with
    | calloutStart =>
      rw [step_prose R hm hlk] at ha
      cases ha
    | fence =>
      rw [step_prose R hm hlk, Parser.proseStep] at ha
      split at ha <;> cases ha
    | heading =>
      rw [step_prose R hm hlk, step_prose R hm (hkind.trans hlk), Parser.proseStep, Parser.proseStep,
        Text.rstrip_rstrip]
      exact ⟨hm, rfl⟩
    | blank =>
      rw [step_prose R hm hlk, step_prose R hm (hkind.trans hlk)]
      exact ⟨hm, rfl⟩
    | item =>
      rw [step_prose R hm hlk, step_prose R hm (hkind.trans hlk)]
      exact ⟨hm, flush_trim q.flush [] hl (some .item) q.mode⟩
    | text =>
      rw [step_prose R hm hlk, step_prose R hm (hkind.trans hlk)]
      exact ⟨hm, flush_trim q q.current hl _ q.mode⟩

/-- no unit is a list marker with nothing after it -/
def NoBare (cs : List (Option Text × Kind × Text)) : Prop :=
  ∀ c ∈ cs, c.2.1 = .item → itemLine R c.2.2 = true

instance (cs : List (Option Text × Kind × Text)) : Decidable (NoBare R cs) :=
  inferInstanceAs (Decidable (∀ c ∈ cs, _ → _))

theorem Parser.start_fresh (layer : Text) : (Parser.start layer).flush = Parser.start layer := rfl

theorem reparse {t : Text} {ss : List BodySection} (ht : IsTitle t) (h : Written R ss)
    (hbare : NoBare R (placed none ss)) (layer : Text) :
    (titled (renderBody R false ⟨t, ss⟩)).1 = t ∧
      (parsed R layer (renderBody R false ⟨t, ss⟩)).mode = .prose ∧
      (parsed R layer (renderBody R false ⟨t, ss⟩)).flush.cores = placed none ss := by
  obtain ⟨hmode, -, hcores⟩ := feed_doc R h (q := Parser.start layer) rfl ⟨rfl, rfl, rfl⟩
  have hnone : (Parser.start layer).flush.cores ++ placed (Parser.start layer).flush.heading ss =
      placed none ss := rfl
  rw [hnone] at hcores
  unfold parsed
  rcases titled_render R ht h with ⟨hnil, htitled⟩ | ⟨init, l, hl, hb, htitled⟩
  · rw [htitled]
    rw [hnil] at hmode hcores
    exact ⟨rfl, hmode, hcores⟩
  · rw [htitled]
    refine ⟨rfl, ?_⟩
    rw [hl, List.foldl_append, List.foldl_cons, List.foldl_nil] at hmode hcores
    rw [List.foldl_append, List.foldl_cons, List.foldl_nil]
    set q := init.foldl (Parser.step R) (Parser.start layer) with hq
    have hclean : '\n' ∉ l :=
      docLines_clean R h l (by rw [hl]; exact List.mem_append_right _ (List.mem_singleton_self l))
    have hk : q.mode = .prose → lineKind R (Text.rstrip l) = lineKind R l := by
      intro hm
      refine lineKind_rstrip R fun hitem => ?_
      rw [step_prose R hm hitem, Parser.proseStep] at hcores
      have hflush := flush_open q.flush [] hb (some .item) q.flush.mode
      rw [List.nil_append, Text.unlines_singleton] at hflush
      rw [hflush] at hcores
      have hstrip : Text.stripChar '\n' l = l :=
        Text.stripChar_eq_self (fun e => hclean (List.mem_of_head? e))
          (fun e => hclean (List.mem_of_getLast? e))
      refine hbare (q.flush.heading, .item, Text.rstrip l) ?_ rfl
      rw [← hcores, hstrip]
      unfold Parser.cores Body.cores Parser.last
      simp
    obtain ⟨hmode', hcores'⟩ := step_trim R hb hk hmode
    exact ⟨hmode', hcores'.trans hcores⟩

/-! ## what a parse is made of -/

theorem cores_filter (ss : List BodySection) :
    cores (ss.filter fun s => s.heading.isSome || !s.units.isEmpty) = cores ss := by
  induction ss with
  | nil => rfl
  | cons s ss ih =>
    unfold cores at ih ⊢
    by_cases hs : (s.heading.isSome || !s.units.isEmpty) = true
    · rw [List.filter_cons, if_pos hs, List.flatMap_cons, List.flatMap_cons, ih]
    · have hnil : s.units = [] := by
        simp only [Bool.or_eq_true, not_or] at hs
        simpa using hs.2
      rw [List.filter_cons, if_neg hs, List.flatMap_cons, ih, hnil]
      rfl

theorem finish_eq {p : Parser} (hm : p.mode = .prose) : p.finish =
    (p.flush.sections ++ [p.flush.last]).filter fun s => s.heading.isSome || !s.units.isEmpty := by
  unfold Parser.finish
  rw [hm]
  rfl

theorem cores_finish {p : Parser} (hm : p.mode = .prose) : cores p.finish = p.flush.cores := by
  rw [finish_eq hm, cores_filter]
  rfl

theorem cores_parse {layer body : Text} (h : (parsed R layer body).mode = .prose) :
    cores (parseBody R layer body).sections = (parsed R layer body).flush.cores := cores_finish h

theorem good_start (layer : Text) : Good R (Parser.start layer) where
  opened := Or.inl ⟨rfl, rfl, rfl⟩
  units := fun _ hu => absurd hu List.not_mem_nil
  sections := fun _ hs => absurd hs List.not_mem_nil
  heading := nofun
  headings := fun _ hs => absurd hs List.not_mem_nil

theorem titled_clean (body : Text) : ∀ l ∈ (titled body).2, '\n' ∉ l := by
  intro l hl
  refine Text.mem_linesOf_newline (t := Text.stripChar '\n' body) ?_
  have hsub : ((Text.linesOf (Text.stripChar '\n' body)).dropWhile Text.isBlank).Sublist
      (Text.linesOf (Text.stripChar '\n' body)) := List.dropWhile_sublist _
  unfold titled at hl
  split at hl
  · rename_i line lines hlines
    rw [hlines] at hsub
    split at hl
    · exact hsub.subset (List.mem_cons_of_mem line hl)
    · exact hsub.subset hl
  · exact absurd hl List.not_mem_nil

theorem good_foldl {p : Parser} (h : Good R p) {ls : List Text} (hls : ∀ l ∈ ls, '\n' ∉ l) :
    Good R (ls.foldl (Parser.step R) p) := by
  induction ls generalizing p with
  | nil => exact h
  | cons l ls ih =>
    exact ih (good_step R h (hls l List.mem_cons_self)) fun m hm => hls m (List.mem_cons_of_mem l hm)

/-- only the first section of a parse may have no heading -/
def Headed (ss : List BodySection) : Prop := ∀ s ∈ ss.tail, s.heading ≠ none

theorem Headed.sublist {ss ts : List BodySection} (h : Headed ss) (hsub : ts.Sublist ss) : Headed ts :=
  fun s hs => h s (hsub.tail.subset hs)

theorem Parser.headed_step {p : Parser} (h : Headed (p.sections ++ [p.last])) (l : Text) :
    Headed ((Parser.step R p l).sections ++ [(Parser.step R p l).last]) := by
  -- a section begins at a heading only; any other line leaves the headings as they are
  have hsame : ∀ q : Parser, q.sections = p.sections → q.heading = p.heading →
      Headed (q.sections ++ [q.last]) := by
    intro q hs hh t ht
    rw [hs] at ht
    cases hp : p.sections with
    | nil =>
      rw [hp] at ht
      exact absurd ht List.not_mem_nil
    | cons s ss =>
      rw [hp, List.cons_append, List.tail_cons] at ht
      rw [hp] at h
      rcases List.mem_append.mp ht with ht | ht
      · exact h t (List.mem_append_left _ ht)
      · rw [List.mem_singleton.mp ht]
        show q.heading ≠ none
        rw [hh]
        exact h p.last (List.mem_append_right _ (List.mem_singleton_self _))
  cases hm : p.mode with
  | fence =>
    unfold Parser.step
    rw [hm]
    exact hsame _ rfl rfl
  | callout =>
    unfold Parser.step
    rw [hm]
    dsimp only
    split
    · exact hsame _ rfl rfl
    · exact hsame _ rfl rfl
  | prose =>
    cases hk : lineKind R l with
    | heading =>
      rw [step_prose R hm hk]
      intro t ht
      have hsec : (p.sections ++ [p.flush.last]) ≠ [] := List.concat_ne_nil _ _
      rw [Parser.proseStep, List.tail_append_of_ne_nil hsec] at ht
      rcases List.mem_append.mp ht with ht | ht
      · exact hsame p.flush rfl rfl t ht
      · rw [List.mem_singleton.mp ht]
        intro hnone
        cases hnone
    | fence =>
      rw [step_prose R hm hk, Parser.proseStep]
      split
      · exact hsame _ rfl rfl
      · exact hsame _ rfl rfl
    | calloutStart => rw [step_prose R hm hk]; exact hsame _ rfl rfl
    | blank => rw [step_prose R hm hk]; exact hsame _ rfl rfl
    | item => rw [step_prose R hm hk]; exact hsame _ rfl rfl
    | text => rw [step_prose R hm hk]; exact hsame _ rfl rfl

theorem Parser.headed_foldl {p : Parser} (h : Headed (p.sections ++ [p.last])) (ls : List Text) :
    Headed ((ls.foldl (Parser.step R) p).sections ++ [(ls.foldl (Parser.step R) p).last]) := by
  induction ls generalizing p with
  | nil => exact h
  | cons l ls ih => exact ih (Parser.headed_step R h l)

/-- a page whose title is not empty, whose fences and callouts are closed and whose items are not empty -/
structure Page (layer body : Text) : Prop where
  title : Text.startsWith "# ".toList (titled body).1 = true
  closed : (parsed R layer body).mode = .prose
  bare : NoBare R (cores (parseBody R layer body).sections)

theorem Page.isTitle {layer body : Text} (h : Page R layer body) : IsTitle (titled body).1 := by
  refine ⟨h.title, ?_, ?_⟩
  · unfold titled
    split
    · split
      · exact Text.rstrip_rstrip _
      · exact Text.rstrip_nil
    · exact Text.rstrip_nil
  · unfold titled
    split
    · rename_i line lines hlines
      split
      · intro hn
        refine Text.mem_linesOf_newline (t := Text.stripChar '\n' body) (l := line) ?_
          ((Text.rstrip_prefix line).subset hn)
        have hsub : ((Text.linesOf (Text.stripChar '\n' body)).dropWhile Text.isBlank).Sublist
            (Text.linesOf (Text.stripChar '\n' body)) := List.dropWhile_sublist _
        rw [hlines] at hsub
        exact hsub.subset List.mem_cons_self
      · exact List.not_mem_nil
    · exact List.not_mem_nil

theorem written_parse {layer body : Text} (h : (parsed R layer body).mode = .prose) :
    Written R (parseBody R layer body).sections := by
  have hgood : Good R (parsed R layer body) := good_foldl R (good_start R layer) (titled_clean body)
  obtain ⟨-, hflush⟩ := hgood.fresh_flush R h
  have hmem : ∀ s ∈ (parseBody R layer body).sections,
      s ∈ (parsed R layer body).flush.sections ∨ s = (parsed R layer body).flush.last := by
    intro s hs
    unfold parseBody at hs
    rw [finish_eq h] at hs
    rcases List.mem_append.mp (List.mem_of_mem_filter hs) with hs | hs
    · exact Or.inl hs
    · exact Or.inr (List.mem_singleton.mp hs)
  constructor
  · intro s hs
    rcases hmem s hs with hs | rfl
    · exact hflush.sections s hs
    · exact hflush.units
  · intro s hs
    rcases hmem s hs with hs | rfl
    · exact hflush.headings s hs
    · exact hflush.heading

theorem headed_parse {layer body : Text} (h : (parsed R layer body).mode = .prose) :
    Headed (parseBody R layer body).sections := by
  unfold parseBody
  rw [finish_eq h]
  have hstart : Headed ((Parser.start layer).sections ++ [(Parser.start layer).last]) :=
    fun s hs => absurd hs List.not_mem_nil
  have hall := Parser.headed_foldl R hstart (titled body).2
  refine Headed.sublist ?_ List.filter_sublist
  -- closing the last unit changes no heading
  have htail : ((parsed R layer body).flush.sections ++ [(parsed R layer body).flush.last]).map
      BodySection.heading =
      ((parsed R layer body).sections ++ [(parsed R layer body).last]).map BodySection.heading := by
    rw [List.map_append, List.map_append]
    rfl
  intro s hs hn
  have hmem : none ∈ (((parsed R layer body).flush.sections ++
      [(parsed R layer body).flush.last]).map BodySection.heading).tail := by
    rw [← List.map_tail, ← hn]
    exact List.mem_map_of_mem hs
  rw [htail, ← List.map_tail] at hmem
  obtain ⟨t, ht, htn⟩ := List.mem_map.mp hmem
  exact hall t ht htn

/-! ## units in place -/

theorem cores_cons (s : BodySection) (ss : List BodySection) : cores (s :: ss) =
    s.units.map (fun u => (s.heading, u.kind, Text.rstrip u.text)) ++ cores ss := List.flatMap_cons

theorem placed_of_headed (h : Option Text) {ss : List BodySection} (hs : ∀ s ∈ ss, s.heading ≠ none) :
    placed h ss = cores ss := by
  induction ss generalizing h with
  | nil => rfl
  | cons s ss ih =>
    have hrest := fun k => ih k fun t ht => hs t (List.mem_cons_of_mem s ht)
    obtain ⟨a, ha⟩ := Option.ne_none_iff_exists'.mp (hs s List.mem_cons_self)
    rw [placed, hrest, hrest, cores_cons, ha, Option.some_or]
    split
    · rename_i hemp
      rw [List.isEmpty_iff.mp hemp]
      rfl
    · rfl

theorem placed_none_of_headed {ss : List BodySection} (h : Headed ss) : placed none ss = cores ss := by
  cases ss with
  | nil => rfl
  | cons s ss =>
    have hss : ∀ t ∈ ss, t.heading ≠ none := h
    rw [placed, placed_of_headed none hss, placed_of_headed _ hss, cores_cons, Option.or_none]
    split
    · rename_i hemp
      rw [List.isEmpty_iff.mp hemp]
      rfl
    · rfl

/-- sections without units leave no trace -/
theorem placed_empty_append (h : Option Text) {as : List BodySection} (ha : ∀ s ∈ as, s.units = [])
    (ss : List BodySection) : placed h (as ++ ss) = placed h ss ∧ cores (as ++ ss) = cores ss := by
  induction as with
  | nil => exact ⟨rfl, rfl⟩
  | cons a as ih =>
    obtain ⟨hplaced, hcores⟩ := ih fun s hs => ha s (List.mem_cons_of_mem a hs)
    have hnil := ha a List.mem_cons_self
    refine ⟨?_, ?_⟩
    · rw [List.cons_append, placed, hnil]
      exact hplaced
    · unfold cores at hcores ⊢
      rw [List.cons_append, List.flatMap_cons, hcores, hnil]
      rfl

/-- what is filtered out may stand anywhere -/
theorem placed_filter (f : Option Text × Kind × Text → Bool) (h : Option Text) {ss : List BodySection}
    (hs : ∀ s ∈ ss, s.heading = none → ∀ u ∈ s.units, ∀ k, f (k, u.kind, Text.rstrip u.text) = false) :
    (placed h ss).filter f = (cores ss).filter f := by
  induction ss generalizing h with
  | nil => rfl
  | cons s ss ih =>
    have hrest := fun k => ih k fun t ht => hs t (List.mem_cons_of_mem s ht)
    rw [placed, cores_cons, List.filter_append]
    split
    · rename_i hemp
      rw [hrest, List.isEmpty_iff.mp hemp]
      rfl
    · rw [List.filter_append, hrest]
      congr 1
      cases hh : s.heading with
      | some a => rfl
      | none =>
        have hnil : ∀ k : Option Text,
            (s.units.map fun u => (k, u.kind, Text.rstrip u.text)).filter f = [] := by
          intro k
          refine List.filter_eq_nil_iff.mpr fun c hc => ?_
          obtain ⟨u, hu, rfl⟩ := List.mem_map.mp hc
          rw [hs s List.mem_cons_self hh u hu k]
          exact Bool.false_ne_true
        rw [hnil, hnil]

theorem placed_heading {h : Option Text} (hh : h ≠ none) (ss : List BodySection) :
    ∀ c ∈ placed h ss, c.1 ≠ none := by
  induction ss generalizing h with
  | nil => exact fun c hc => absurd hc List.not_mem_nil
  | cons s ss ih =>
    have hor : s.heading.or h ≠ none := by
      cases s.heading with
      | none => exact hh
      | some a => exact nofun
    intro c hc
    rw [placed] at hc
    split at hc
    · exact ih hh c hc
    · rcases List.mem_append.mp hc with hc | hc
      · obtain ⟨u, -, rfl⟩ := List.mem_map.mp hc
        exact hor
      · exact ih hor c hc

/-- after a section that has a heading and units, nothing is without a heading -/
theorem placed_after (h : Option Text) {as : List BodySection} (ha : ∀ s ∈ as, s.heading ≠ none)
    (hne : ∃ s ∈ as, s.units ≠ []) (ss : List BodySection) : ∀ c ∈ placed h (as ++ ss), c.1 ≠ none := by
  induction as with
  | nil =>
    obtain ⟨s, hs, -⟩ := hne
    exact absurd hs List.not_mem_nil
  | cons a as ih =>
    intro c hc
    rw [List.cons_append, placed] at hc
    by_cases hemp : a.units.isEmpty = true
    · rw [if_pos hemp] at hc
      refine ih (fun s hs => ha s (List.mem_cons_of_mem a hs)) ?_ c hc
      obtain ⟨s, hs, hu⟩ := hne
      rcases List.mem_cons.mp hs with rfl | hs
      · exact absurd (List.isEmpty_iff.mp hemp) hu
      · exact ⟨s, hs, hu⟩
    · rw [if_neg hemp] at hc
      have hor : a.heading.or h ≠ none := by
        obtain ⟨b, hb⟩ := Option.ne_none_iff_exists'.mp (ha a List.mem_cons_self)
        rw [hb]
        exact nofun
      rcases List.mem_append.mp hc with hc | hc
      · obtain ⟨u, -, rfl⟩ := List.mem_map.mp hc
        exact hor
      · exact placed_heading hor _ c hc

theorem mem_placed {h : Option Text} {ss : List BodySection} {c : Option Text × Kind × Text}
    (hc : c ∈ placed h ss) : ∃ s ∈ ss, ∃ u ∈ s.units, c.2 = (u.kind, Text.rstrip u.text) := by
  induction ss generalizing h with
  | nil => exact absurd hc List.not_mem_nil
  | cons s ss ih =>
    have hrest : ∀ k, c ∈ placed k ss →
        ∃ t ∈ s :: ss, ∃ u ∈ t.units, c.2 = (u.kind, Text.rstrip u.text) := fun k hk => by
      obtain ⟨t, ht, hu⟩ := ih hk
      exact ⟨t, List.mem_cons_of_mem s ht, hu⟩
    rw [placed] at hc
    split at hc
    · exact hrest h hc
    · rcases List.mem_append.mp hc with hc | hc
      · obtain ⟨u, hu, rfl⟩ := List.mem_map.mp hc
        exact ⟨s, List.mem_cons_self, u, hu, rfl⟩
      · exact hrest _ hc

theorem mem_cores {ss : List BodySection} {s : BodySection} (hs : s ∈ ss) {u : BodyUnit}
    (hu : u ∈ s.units) : (s.heading, u.kind, Text.rstrip u.text) ∈ cores ss :=
  List.mem_flatMap.mpr ⟨s, hs, List.mem_map.mpr ⟨u, hu, rfl⟩⟩

/-! ## units by their keys -/

theorem isSpace_punctuation {c : Char} (h : Text.isSpace c = true) :
    Text.isSpace (punctuation c) = true := by
  have hsame : punctuation c = c := by
    unfold Text.isSpace at h
    unfold punctuation
    simp only [Bool.or_eq_true, Bool.and_eq_true, decide_eq_true_eq, beq_iff_eq] at h ⊢
    rw [if_neg (by omega), if_neg (by omega), if_neg (by omega)]
  rw [hsame]
  exact h

/-- white space at the end of a unit is not part of its key -/
theorem unitKey_rstrip (t : Text) : unitKey R (Text.rstrip t) = unitKey R t := by
  obtain ⟨w, hw, ht⟩ := Text.rstrip_append t
  obtain ⟨v, hv, hn⟩ := R.nfkc_append_blank (Text.rstrip t) w hw
  have hblank : Text.isBlank (v.map punctuation) = true := Text.isBlank_iff.mpr fun c hc => by
    obtain ⟨d, hd, rfl⟩ := List.mem_map.mp hc
    exact isSpace_punctuation (Text.isBlank_iff.mp hv d hd)
  unfold unitKey Text.oneLine
  nth_rewrite 2 [ht]
  rw [hn, List.map_append, Text.words_append_space hblank]

/-- the units of sections, each with the key of its section -/
def pairs (ss : List BodySection) : List (Option Text × Text) :=
  ss.flatMap fun s => s.units.map fun u => (s.key R, u.key R)

def pairOf (c : Option Text × Kind × Text) : Option Text × Text :=
  (c.1.map fun h => R.casefold (unitKey R h), unitKey R c.2.2)

theorem pairs_eq (ss : List BodySection) : pairs R ss = (cores ss).map (pairOf R) := by
  unfold pairs cores
  rw [List.map_flatMap]
  congr 1
  funext s
  rw [List.map_map]
  refine List.map_congr_left fun u _ => ?_
  show (s.key R, u.key R) = (_, unitKey R (Text.rstrip u.text))
  rw [unitKey_rstrip]
  rfl

theorem key_none {s : BodySection} : s.key R = none ↔ s.heading = none := by
  unfold BodySection.key
  exact Option.map_eq_none_iff

end

end Body
