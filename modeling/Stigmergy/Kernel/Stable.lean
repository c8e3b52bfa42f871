import Stigmergy.Kernel.Ascii
import Stigmergy.Kernel.Rendered

/-!
# Bodies rendered and parsed again

`parse_body(render_body(parse_body(b)))` against `parse_body(b)`, also where a code fence or a callout is
still open at the end of the text.

* `shape`          what of a body is compared: its title, and its non-empty sections with their headings and the
                   kinds and keys of their units;
* `EndsBare`       the text ends in a list marker with nothing after it;
* `Run.trim`       lines that keep together do so without the white space at their end, but for such a marker;
* `feed_lead`      the lines before the last unit;
* `bare_iff`       the last unit of a parse is such a marker exactly when the text ends in one;
* `stable_iff`     the shape is the same exactly when the title says something and the text does not end so.
-/

set_option linter.unusedSectionVars false

namespace Body

section
variable (R : Runtime)

/-! ## What is compared -/

/-- title; heading, kinds and keys of each section that has units -/
def shape (b : Parsed) : Text × List (Option Text × List (Kind × Text)) :=
  (b.titleLine, (b.sections.filter fun s => !s.units.isEmpty).map fun s =>
    (s.heading, s.units.map fun u => (u.kind, u.key R)))

def Stable (layer body : Text) : Prop :=
  shape R (parseBody R layer (renderBody R false (parseBody R layer body))) = shape R (parseBody R layer body)

/-- inside a code fence or a callout after some lines -/
def modeStep (m : Mode) (line : Text) : Mode :=
  match m with
  | .fence => if fenceLine line then .prose else .fence
  | .callout => if Text.startsWith CALLOUT_END line then .prose else .callout
  | .prose =>
    match lineKind R line with
    | .calloutStart => .callout
    | .fence => .fence
    | _ => .prose

def modeAfter (lines : List Text) : Mode := lines.foldl (modeStep R) .prose

/-- outside fences and callouts a list marker with nothing after it, and only blank lines and headings follow -/
def EndsBare (lines : List Text) : Prop :=
  ∃ init l rest, lines = init ++ l :: rest ∧ modeAfter R init = .prose ∧ lineKind R l = .item ∧
    itemLine R (Text.rstrip l) = false ∧ ∀ b ∈ rest, lineKind R b = .blank ∨ lineKind R b = .heading

/-- the same with texts up to white space at their end, for the state of a parse -/
def groups (ss : List BodySection) : List (Option Text × List (Kind × Text)) :=
  (ss.filter fun s => !s.units.isEmpty).map fun s => (s.heading, s.units.map fun u => (u.kind, Text.rstrip u.text))

def Parser.groups (p : Parser) : List (Option Text × List (Kind × Text)) := Body.groups (p.sections ++ [p.last])

/-- the parser after the end of the text -/
def Parser.close (p : Parser) : Parser :=
  if p.mode = .callout then { p with units := p.units ++ [⟨.callout, Text.unlines p.current, p.layer⟩] } else p.flush

theorem groups_append (ss ts : List BodySection) : groups (ss ++ ts) = groups ss ++ groups ts := by
  unfold groups
  rw [List.filter_append, List.map_append]

theorem groups_filter (ss : List BodySection) :
    groups (ss.filter fun s => s.heading.isSome || !s.units.isEmpty) = groups ss := by
  unfold groups
  rw [List.filter_filter]
  refine congrArg _ (List.filter_congr fun s _ => ?_)
  cases s.units.isEmpty with
  | true => rfl
  | false => rw [Bool.not_false, Bool.or_true, Bool.and_true]

theorem groups_finish (p : Parser) : groups p.finish = p.close.groups := groups_filter _

/-- a section without units leaves no trace -/
theorem groups_singleton_nil (h : Option Text) : groups [⟨h, []⟩] = [] := rfl

theorem groups_singleton {s : BodySection} (h : s.units ≠ []) :
    groups [s] = [(s.heading, s.units.map fun u => (u.kind, Text.rstrip u.text))] := by
  unfold groups
  rw [List.filter_cons_of_pos (by simpa using h)]
  rfl

/-- the shape of a parse is that of its groups -/
theorem shape_eq (b : Parsed) :
    shape R b = (b.titleLine, (groups b.sections).map fun g => (g.1, g.2.map fun u => (u.1, unitKey R u.2))) := by
  unfold shape groups
  rw [List.map_map]
  refine congrArg _ (List.map_congr_left fun s _ => ?_)
  show _ = (s.heading, (s.units.map fun u => (u.kind, Text.rstrip u.text)).map fun u => (u.1, unitKey R u.2))
  rw [List.map_map]
  refine congrArg _ (List.map_congr_left fun u _ => ?_)
  show _ = (u.kind, unitKey R (Text.rstrip u.text))
  rw [unitKey_rstrip]
  rfl

/-! ## The mode of a parse -/

theorem mode_step (p : Parser) (line : Text) : (Parser.step R p line).mode = modeStep R p.mode line := by
  unfold Parser.step modeStep
  cases hm : p.mode with
  | fence => rfl
  | callout =>
    dsimp only
    split
    · rfl
    · rfl
  | prose =>
    dsimp only
    cases lineKind R line with
    | fence =>
      unfold Parser.proseStep
      dsimp only
      split <;> rfl
    | calloutStart => rfl
    | heading => exact hm
    | blank => exact hm
    | item => exact hm
    | text => exact hm

theorem mode_foldl (p : Parser) (lines : List Text) :
    (lines.foldl (Parser.step R) p).mode = lines.foldl (modeStep R) p.mode := by
  induction lines generalizing p with
  | nil => rfl
  | cons line lines ih =>
    rw [List.foldl_cons, List.foldl_cons, ih, mode_step]

/-! ## Runs without the white space at their end -/

theorem lineKind_of_blank {l : Text} (h : Text.isBlank l = true) : lineKind R l = .blank := by
  by_contra hne
  rw [lineKind_not_blank R hne] at h
  exact nomatch h

theorem fenceLine_of_blank {l : Text} (h : Text.isBlank l = true) : fenceLine l = false :=
  Bool.eq_false_iff.mpr fun hf => by
    rw [not_blank_of_fenceLine hf] at h
    exact nomatch h

theorem calloutEnd_of_blank {l : Text} (h : Text.isBlank l = true) : Text.startsWith CALLOUT_END l = false :=
  Bool.eq_false_iff.mpr fun hs => by
    rw [not_blank_of_startsWith rfl hs] at h
    exact nomatch h

/-- the state before the last line of a run -/
theorem Run.before {init : List Text} {l : Text} {k : Kind} {m : Mode} (h : Run R (init ++ [l]) k m) {p : Parser}
    (hp : p.Fresh) : Parser.step R (init.foldl (Parser.step R) p) l =
      { p with current := init ++ [l], kind := some k, mode := m } := by
  have hopens := h.opens p hp
  rw [List.foldl_append] at hopens
  exact hopens

/-- the state before a line that was added to what is open -/
theorem Parser.of_concat {p q : Parser} {init : List Text} {b : Text} {k : Kind} {m m' : Mode}
    (h : { q with current := q.current ++ [b], mode := m' } =
      { p with current := init ++ [b], kind := some k, mode := m }) :
    { q with mode := m } = { p with current := init, kind := some k, mode := m } := by
  cases p
  cases q
  obtain ⟨rfl, rfl, rfl, rfl, hc, rfl, rfl⟩ := Parser.mk.inj h
  obtain ⟨rfl, -⟩ := List.append_inj' hc rfl
  rfl

/-- a blank line at the end of an open fence or callout changes nothing but its text -/
theorem Run.init_of_blank {init : List Text} {b : Text} {k : Kind} {m : Mode} (h : Run R (init ++ [b]) k m)
    (hb : Text.isBlank b = true) (hm : m ≠ .prose) : Run R init k m := by
  have hne : init ≠ [] := by
    obtain ⟨l, rest, heq, hl, -⟩ := h.head
    intro hnil
    rw [hnil, List.nil_append] at heq
    rw [(List.cons.inj heq).1, hl] at hb
    exact nomatch hb
  refine ⟨fun p hp => ?_, fun l hl => h.clean l (List.mem_append_left _ hl), ?_, fun hp => absurd hp hm, h.callout⟩
  · have hstep := h.before R hp
    set q := init.foldl (Parser.step R) p
    unfold Parser.step at hstep
    cases hq : q.mode with
    | fence =>
      rw [hq, fenceLine_of_blank hb] at hstep
      have hmode : Mode.fence = m := (Parser.mk.inj hstep).2.2.2.2.2.2
      rw [← Parser.of_concat hstep, ← hmode, ← hq]
    | callout =>
      rw [hq, calloutEnd_of_blank hb] at hstep
      have hmode : Mode.callout = m := (Parser.mk.inj hstep).2.2.2.2.2.2
      rw [← Parser.of_concat hstep, ← hmode, ← hq]
    | prose =>
      rw [hq, lineKind_of_blank R hb] at hstep
      have hc : ([] : List Text) = init ++ [b] := congrArg Parser.current hstep
      exact absurd hc.symm (List.concat_ne_nil b init)
  · obtain ⟨l, rest, heq, hl, hk⟩ := h.head
    obtain ⟨a, more, hinit⟩ := List.exists_cons_of_ne_nil hne
    rw [hinit, List.cons_append] at heq
    obtain ⟨rfl, -⟩ := List.cons.inj heq
    exact ⟨a, more, hinit, hl, hk⟩

/-- another last line in its place -/
theorem Parser.concat_of {p q : Parser} {c init : List Text} {b : Text} {k k' : Option Kind} {m m' : Mode}
    (h : { q with current := c ++ [b], kind := k', mode := m' } =
      { p with current := init ++ [b], kind := k, mode := m }) (y : Text) :
    { q with current := c ++ [y], kind := k', mode := m' } = { p with current := init ++ [y], kind := k, mode := m } := by
  cases p
  cases q
  obtain ⟨rfl, rfl, rfl, rfl, hc, rfl, rfl⟩ := Parser.mk.inj h
  obtain ⟨rfl, -⟩ := List.append_inj' hc rfl
  rfl

theorem Run.rstrip_last {init : List Text} {x : Text} {k : Kind} {m : Mode} (h : Run R (init ++ [x]) k m)
    (hx : Text.isBlank x = false) (hbare : init = [] → k = .item → itemLine R (Text.rstrip x) = true) :
    Run R (init ++ [Text.rstrip x]) k m := by
  refine ⟨fun p hp => ?_, fun l hl => ?_, ?_, fun _ => ⟨init, _, rfl, Text.not_blank_rstrip hx⟩, h.callout⟩
  · rw [List.foldl_append, List.foldl_cons, List.foldl_nil]
    have hstep := h.before R hp
    set q := init.foldl (Parser.step R) p
    unfold Parser.step at hstep ⊢
    cases hq : q.mode with
    | fence =>
      rw [hq] at hstep
      dsimp only at hstep ⊢
      rw [fenceLine_rstrip]
      exact Parser.concat_of hstep _
    | callout =>
      rw [hq] at hstep
      dsimp only at hstep ⊢
      rw [startsWith_rstrip rfl]
      by_cases he : Text.startsWith CALLOUT_END x = true
      · rw [if_pos he] at hstep
        exact absurd (congrArg Parser.current hstep).symm (List.concat_ne_nil x init)
      · rw [if_neg he] at hstep ⊢
        exact Parser.concat_of hstep _
    | prose =>
      rw [hq] at hstep
      dsimp only at hstep ⊢
      have hkind : lineKind R (Text.rstrip x) = lineKind R x := by
        refine lineKind_rstrip R fun hitem => ?_
        rw [hitem] at hstep
        have hc : [x] = init ++ [x] := congrArg Parser.current hstep
        have hk : some Kind.item = some k := congrArg Parser.kind hstep
        exact hbare (List.append_left_eq_self.mp hc.symm) (Option.some.inj hk).symm
      rw [hkind]
      cases hl : lineKind R x with
      | calloutStart =>
        rw [hl] at hstep
        exact Parser.concat_of (q := q.flush) (c := []) hstep _
      | fence =>
        rw [hl] at hstep
        unfold Parser.proseStep at hstep ⊢
        dsimp only at hstep ⊢
        by_cases hi : q.kind = some .item
        · rw [if_pos hi] at hstep ⊢
          exact Parser.concat_of hstep _
        · rw [if_neg hi] at hstep ⊢
          exact Parser.concat_of (q := q.flush) (c := []) hstep _
      | heading =>
        rw [hl] at hstep
        have hc : ([] : List Text) = init ++ [x] := congrArg Parser.current hstep
        exact absurd hc.symm (List.concat_ne_nil x init)
      | blank =>
        rw [hl] at hstep
        have hc : ([] : List Text) = init ++ [x] := congrArg Parser.current hstep
        exact absurd hc.symm (List.concat_ne_nil x init)
      | item =>
        rw [hl] at hstep
        exact Parser.concat_of (q := q.flush) (c := []) hstep _
      | text =>
        rw [hl] at hstep
        exact Parser.concat_of hstep _
  · rcases List.mem_append.mp hl with hl | hl
    · exact h.clean l (List.mem_append_left _ hl)
    · rw [List.mem_singleton.mp hl]
      exact fun hn => h.clean x (List.mem_append_right _ (List.mem_singleton_self x)) ((Text.rstrip_prefix x).subset hn)
  · obtain ⟨l, rest, heq, hl, hk⟩ := h.head
    cases init with
    | nil =>
      obtain ⟨rfl, -⟩ := List.cons.inj heq
      refine ⟨Text.rstrip x, [], rfl, Text.not_blank_rstrip hx, fun hitem => ?_⟩
      rw [lineKind_rstrip R fun _ => hbare rfl hitem]
      exact hk hitem
    | cons a more =>
      obtain ⟨rfl, -⟩ := List.cons.inj heq
      exact ⟨a, more ++ [Text.rstrip x], rfl, hl, hk⟩

theorem rstrip_unlines_blank {init : List Text} (hne : init ≠ []) {b : Text} (hb : Text.isBlank b = true) :
    Text.rstrip (Text.unlines (init ++ [b])) = Text.rstrip (Text.unlines init) := by
  rw [Text.unlines_append hne (List.cons_ne_nil b []), Text.unlines_singleton]
  refine Text.rstrip_append_blank ?_
  show Text.isBlank (['\n'] ++ b) = true
  rw [Text.isBlank_append, hb]
  rfl

/-- lines that keep together do so without the white space at their end, but for a marker alone -/
theorem Run.trim {ls : List Text} {k : Kind} {m : Mode} (h : Run R ls k m)
    (hbare : k = .item → itemLine R (Text.rstrip (Text.unlines ls)) = true) :
    ∃ init l, Run R (init ++ [l]) k m ∧ Text.isBlank l = false ∧
      Text.unlines (init ++ [l]) = Text.rstrip (Text.unlines ls) := by
  induction ls using List.reverseRecOn with
  | nil => exact absurd rfl (h.ne_nil R)
  | append_singleton init x ih =>
    by_cases hx : Text.isBlank x = true
    · have hm : m ≠ .prose := by
        intro hm
        obtain ⟨_, y, heq, hy⟩ := h.last hm
        obtain ⟨-, hxy⟩ := List.append_inj' heq rfl
        rw [(List.cons.inj hxy).1, hy] at hx
        exact nomatch hx
      have hrun := h.init_of_blank R hx hm
      have htext := rstrip_unlines_blank (hrun.ne_nil R) hx
      rw [htext] at hbare ⊢
      exact ih hrun hbare
    · have hx : Text.isBlank x = false := Bool.eq_false_iff.mpr hx
      refine ⟨init, Text.rstrip x, h.rstrip_last R hx ?_, Text.not_blank_rstrip hx, (Text.rstrip_unlines_concat init hx).symm⟩
      intro hinit hk
      have hitem := hbare hk
      rw [hinit, List.nil_append, Text.unlines_singleton] at hitem
      exact hitem

/-! ## The last unit of a text -/

/-- a unit that is closed, or as much of it as the text has -/
inductive Ends (u : BodyUnit) : Prop where
  | run (ls : List Text) (m : Mode) (h : Run R ls u.kind m) (ht : Text.rstrip u.text = Text.rstrip (Text.unlines ls))
  | callout (init : List Text) (l : Text) (h : Run R init .callout .callout)
      (hl : Text.startsWith CALLOUT_END l = true) (hn : '\n' ∉ l) (hk : u.kind = .callout)
      (ht : u.text = Text.unlines (init ++ [l]))

theorem Solid.ends {u : BodyUnit} (h : Solid R u) : Ends R u := by
  cases h with
  | prose ls h ht => exact .run ls .prose h (by rw [ht])
  | callout init l h hl hn hk ht => exact .callout init l h hl hn hk ht

/-- an item that is a list marker alone -/
def Bare (k : Kind) (t : Text) : Prop := k = .item ∧ itemLine R (Text.rstrip t) = false

/-- the units of a state, up to white space at their end, make its groups -/
theorem groups_congr {p q : Parser} (hs : p.sections = q.sections) (hh : p.heading = q.heading)
    (hu : p.units.map (fun u => (u.kind, Text.rstrip u.text)) = q.units.map fun u => (u.kind, Text.rstrip u.text)) :
    p.groups = q.groups := by
  unfold Parser.groups
  rw [groups_append, groups_append, hs]
  refine congrArg _ ?_
  by_cases hp : p.units = []
  · have hq : q.units = [] := by
      rw [hp] at hu
      exact List.map_eq_nil_iff.mp hu.symm
    unfold Parser.last
    rw [hp, hq, groups_singleton_nil, groups_singleton_nil]
  · have hq : q.units ≠ [] := by
      intro hq
      rw [hq] at hu
      exact hp (List.map_eq_nil_iff.mp hu)
    rw [groups_singleton hp, groups_singleton hq]
    show [(p.heading, _)] = [(q.heading, _)]
    rw [hh]
    exact congrArg (fun us => [(q.heading, us)]) hu

theorem Parser.close_prose {p : Parser} (h : p.mode = .prose) : p.close = p.flush := by
  unfold Parser.close
  rw [h]
  rfl

/-- a text that ends with a run ends with its unit -/
theorem close_run {init : List Text} {l : Text} {k : Kind} {m : Mode} (h : Run R (init ++ [l]) k m)
    (hl : Text.isBlank l = false) (p : Parser) :
    (Parser.close { p with current := init ++ [l], kind := some k, mode := m }).groups =
      (p.add [⟨k, Text.unlines (init ++ [l]), p.layer⟩]).groups := by
  by_cases hm : m = .callout
  · have hk : k = .callout := h.callout.mp hm
    unfold Parser.close
    rw [if_pos hm]
    exact groups_congr rfl rfl (by rw [hk]; rfl)
  · unfold Parser.close
    rw [if_neg hm, flush_open p init hl]
    refine groups_congr rfl rfl ?_
    obtain ⟨a, rest, heq, ha, -⟩ := h.head
    have hstrip := stripChar_unlines heq.symm ha hl (heq ▸ h.clean)
    rw [heq, hstrip]
    rfl

theorem feed_last {u : BodyUnit} (h : Ends R u) (hbare : ¬ Bare R u.kind u.text) {p : Parser} (hp : p.Fresh) :
    ((Text.linesOf (Text.rstrip u.text)).foldl (Parser.step R) p).close.groups = (p.add [u]).groups := by
  cases h with
  | run ls m h ht =>
    have hitem : u.kind = .item → itemLine R (Text.rstrip (Text.unlines ls)) = true := by
      intro hk
      rw [← ht]
      exact Bool.of_not_eq_false fun hb => hbare ⟨hk, hb⟩
    obtain ⟨init, l, hrun, hl, htext⟩ := h.trim R hitem
    rw [ht, ← htext, Text.linesOf_unlines hrun.clean (List.concat_ne_nil l init), hrun.opens p hp,
      close_run R hrun hl]
    refine groups_congr rfl rfl ?_
    unfold Parser.add
    rw [List.map_append, List.map_append]
    show _ ++ [(u.kind, Text.rstrip (Text.unlines (init ++ [l])))] = _ ++ [(u.kind, Text.rstrip u.text)]
    rw [htext, Text.rstrip_rstrip, ht]
  | callout init l h hl hn hk ht =>
    have hb : Text.isBlank l = false := not_blank_of_startsWith rfl hl
    have hclean : ∀ a ∈ init ++ [Text.rstrip l], '\n' ∉ a :=
      not_mem_newline_snoc h.clean fun hm => hn ((Text.rstrip_prefix l).subset hm)
    rw [ht, Text.rstrip_unlines_concat init hb, Text.linesOf_unlines hclean (List.concat_ne_nil _ init),
      List.foldl_append, h.opens p hp]
    have hend : Text.startsWith CALLOUT_END (Text.rstrip l) = true := by
      rw [startsWith_rstrip rfl]
      exact hl
    have hstep : Parser.step R { p with current := init, kind := some .callout, mode := .callout } (Text.rstrip l) =
        p.add [⟨.callout, Text.unlines (init ++ [Text.rstrip l]), p.layer⟩] := by
      unfold Parser.step
      simp only [hend, if_true]
      rw [Parser.add, ← hp.1, ← hp.2.1, ← hp.2.2]
      rfl
    rw [List.foldl_cons, List.foldl_nil, hstep,
      Parser.close_prose (p := p.add [⟨.callout, Text.unlines (init ++ [Text.rstrip l]), p.layer⟩]) hp.2.2,
      flush_fresh (p.add_fresh hp _)]
    refine groups_congr rfl rfl ?_
    unfold Parser.add
    rw [List.map_append, List.map_append]
    show _ ++ [(Kind.callout, Text.rstrip (Text.unlines (init ++ [Text.rstrip l])))] = _ ++ [(u.kind, Text.rstrip u.text)]
    rw [← Text.rstrip_unlines_concat init hb, Text.rstrip_rstrip, hk, ht]

/-! ## The lines before it -/

/-- the lines of units, and the blank line before a unit of a kind that follows them -/
def lead : List BodyUnit → Kind → List Text
  | [], _ => []
  | [u], k => u.lines ++ (if u.kind = .item ∧ k = .item then [] else [[]])
  | u :: v :: us, k => u.lines ++ (if u.kind = .item ∧ v.kind = .item then [] else [[]]) ++ lead (v :: us) k

theorem unitsLines_snoc (us : List BodyUnit) (w : BodyUnit) : unitsLines (us ++ [w]) = lead us w.kind ++ w.lines := by
  induction us with
  | nil => rfl
  | cons u us ih =>
    cases us with
    | nil => rfl
    | cons v us =>
      show u.lines ++ _ ++ unitsLines (v :: us ++ [w]) = u.lines ++ _ ++ lead (v :: us) w.kind ++ w.lines
      rw [ih]
      exact (List.append_assoc _ _ _).symm

/-- the units before a unit are closed, but for an item before another -/
theorem feed_lead {us : List BodyUnit} (h : ∀ u ∈ us, Solid R u) (k : Kind) {p : Parser} (hp : p.Fresh) :
    ((lead us k).foldl (Parser.step R) p).mode = .prose ∧ ((lead us k).foldl (Parser.step R) p).flush = p.add us ∧
      ((lead us k).foldl (Parser.step R) p = p.add us ∨ k = .item) := by
  have hadd : p = p.add [] := by
    unfold Parser.add
    rw [List.map_nil, List.append_nil]
  induction us generalizing p with
  | nil =>
    rw [← hadd]
    exact ⟨hp.2.2, flush_fresh hp, Or.inl rfl⟩
  | cons u us ih =>
    have hu := h u List.mem_cons_self
    obtain ⟨hmode, hflush⟩ := feed_unit R hp hu
    cases us with
    | nil =>
      unfold lead
      rw [List.foldl_append]
      by_cases hitem : u.kind = .item ∧ k = .item
      · rw [if_pos hitem]
        exact ⟨hmode, hflush, Or.inr hitem.2⟩
      · rw [if_neg hitem, List.foldl_cons, List.foldl_nil, step_blank R hmode, hflush]
        exact ⟨hp.2.2, flush_fresh (p.add_fresh hp [u]), Or.inl rfl⟩
    | cons v us =>
      have hv := h v (List.mem_cons_of_mem u List.mem_cons_self)
      have hrest := ih (fun w hw => h w (List.mem_cons_of_mem u hw)) (p.add_fresh hp [u])
        (by rw [Parser.add_add]; rfl)
      rw [Parser.add_add, List.singleton_append] at hrest
      unfold lead
      rw [List.append_assoc, List.foldl_append]
      by_cases hitem : u.kind = .item ∧ v.kind = .item
      · rw [if_pos hitem, List.nil_append]
        obtain ⟨l, rest, hl, -, hk⟩ := hv.head R
        obtain ⟨more, hmore⟩ : ∃ more, lead (v :: us) k = v.lines ++ more := by
          cases us with
          | nil => exact ⟨_, rfl⟩
          | cons w us => exact ⟨_, List.append_assoc _ _ _⟩
        rw [hmore, hl, List.cons_append] at hrest ⊢
        rw [foldl_item R hmode (hk hitem.2), hflush]
        exact hrest
      · rw [if_neg hitem, List.foldl_append, List.foldl_cons, List.foldl_nil, step_blank R hmode, hflush]
        exact hrest

/-- an item that says something begins with its marker -/
theorem Ends.head_item {u : BodyUnit} (h : Ends R u) (hk : u.kind = .item) (hbare : ¬ Bare R u.kind u.text) :
    ∃ l rest, Text.linesOf (Text.rstrip u.text) = l :: rest ∧ lineKind R l = .item := by
  cases h with
  | callout init l h hl hn hc ht =>
    rw [hk] at hc
    exact nomatch hc
  | run ls m h ht =>
    have hitem : u.kind = .item → itemLine R (Text.rstrip (Text.unlines ls)) = true := by
      intro hk
      rw [← ht]
      exact Bool.of_not_eq_false fun hb => hbare ⟨hk, hb⟩
    obtain ⟨init, l, hrun, hl, htext⟩ := h.trim R hitem
    obtain ⟨a, rest, heq, -, ha⟩ := hrun.head
    refine ⟨a, rest, ?_, ha hk⟩
    rw [ht, ← htext, heq]
    exact Text.linesOf_unlines (heq ▸ hrun.clean) (List.cons_ne_nil a rest)

/-- units after others that are closed -/
theorem feed_end {us : List BodyUnit} (hus : ∀ u ∈ us, Solid R u) {w : BodyUnit} (hw : Ends R w)
    (hbare : ¬ Bare R w.kind w.text) {p : Parser} (hp : p.Fresh) :
    ((lead us w.kind ++ Text.linesOf (Text.rstrip w.text)).foldl (Parser.step R) p).close.groups =
      (p.add (us ++ [w])).groups := by
  obtain ⟨hmode, hflush, hor⟩ := feed_lead R hus w.kind hp
  have hlast := feed_last R hw hbare (p.add_fresh hp us)
  rw [Parser.add_add] at hlast
  rw [List.foldl_append]
  rcases hor with heq | hk
  · rw [heq]
    exact hlast
  · obtain ⟨l, rest, hlines, hl⟩ := hw.head_item R hk hbare
    rw [hlines] at hlast ⊢
    rw [foldl_item R hmode hl, hflush]
    exact hlast

/-! ## Sections -/

theorem add_groups {p : Parser} (hp : p.units = []) (us : List BodyUnit) :
    (p.add us).groups = Body.groups p.sections ++ Body.groups [⟨p.heading, us⟩] := by
  have hsame : (p.add us).groups =
      Parser.groups ⟨p.layer, p.sections, p.heading, us, p.current, p.kind, p.mode⟩ := by
    refine groups_congr rfl rfl ?_
    unfold Parser.add
    rw [hp, List.nil_append, List.map_map]
    rfl
  rw [hsame]
  exact groups_append p.sections [⟨p.heading, us⟩]

/-- a section is opened by its heading; one without a heading stands first -/
theorem feed_opening {h : Option Text} (hh : ∀ a, h = some a → IsHeading R a) {q : Parser} (hm : q.mode = .prose)
    (hf : q.flush.Fresh) (hnone : h = none → q.flush.heading = none ∧ q.flush.units = []) :
    ∃ p : Parser, p.Fresh ∧ p.heading = h ∧ p.units = [] ∧ Body.groups p.sections = q.flush.groups ∧
      ([] :: h.toList).foldl (Parser.step R) q = p := by
  rw [List.foldl_cons, step_blank R hm]
  cases h with
  | none =>
    obtain ⟨hheading, hunits⟩ := hnone rfl
    refine ⟨q.flush, hf, hheading, hunits, ?_, rfl⟩
    unfold Parser.groups Parser.last
    rw [hunits, groups_append, groups_singleton_nil, List.append_nil]
  | some a =>
    have ha := hh a rfl
    have hstep : Parser.step R q.flush a =
        { q.flush with sections := q.flush.sections ++ [q.flush.last], heading := some a, units := [] } := by
      rw [step_prose R hf.2.2 ha.kind]
      unfold Parser.proseStep
      dsimp only
      rw [flush_flush, ha.stripped]
    rw [Option.toList_some, List.foldl_cons, List.foldl_nil, hstep]
    exact ⟨{ q.flush with sections := q.flush.sections ++ [q.flush.last], heading := some a, units := [] }, hf, rfl, rfl,
      rfl, rfl⟩

theorem docLines_append (ss ts : List BodySection) : docLines (ss ++ ts) = docLines ss ++ docLines ts :=
  List.flatMap_append

theorem Headed.init {ss : List BodySection} {s : BodySection} (h : Headed (ss ++ [s])) : Headed ss :=
  h.sublist (List.sublist_append_left ss [s])

/-- only the first section has no heading -/
theorem Headed.last {ss : List BodySection} {s : BodySection} (h : Headed (ss ++ [s])) (hs : s.heading = none) :
    ss = [] := by
  cases ss with
  | nil => rfl
  | cons t ss => exact absurd hs (h s (List.mem_append_right ss (List.mem_singleton_self s)))

/-- sections whose units are all closed -/
theorem feed_groups {ss : List BodySection} (hw : Written R ss) (hh : Headed ss) (layer : Text) :
    ((docLines ss).foldl (Parser.step R) (Parser.start layer)).mode = .prose ∧
      ((docLines ss).foldl (Parser.step R) (Parser.start layer)).flush.Fresh ∧
      ((docLines ss).foldl (Parser.step R) (Parser.start layer)).flush.groups = groups ss := by
  induction ss using List.reverseRecOn with
  | nil => exact ⟨rfl, ⟨rfl, rfl, rfl⟩, rfl⟩
  | append_singleton ss s ih =>
    have hss : Written R ss :=
      ⟨fun t ht => hw.units t (List.mem_append_left _ ht), fun t ht => hw.headings t (List.mem_append_left _ ht)⟩
    have hs : s ∈ ss ++ [s] := List.mem_append_right _ (List.mem_singleton_self s)
    obtain ⟨hm, hf, hgroups⟩ := ih hss hh.init
    rw [docLines_append, List.foldl_append, groups_append]
    have hdoc : docLines [s] = sectionLines s := List.append_nil _
    rw [hdoc, sectionLines]
    by_cases hne : s.units.isEmpty = true
    · rw [if_pos hne]
      have hnil : groups [s] = [] := by
        unfold groups
        rw [List.filter_cons_of_neg (by rw [hne]; exact Bool.false_ne_true)]
        rfl
      rw [hnil, List.append_nil]
      exact ⟨hm, hf, hgroups⟩
    · have hopen := feed_opening R (h := s.heading) (fun a ha => hw.headings s hs a ha) hm hf fun hnone => by
        rw [hh.last hnone]
        exact ⟨rfl, rfl⟩
      obtain ⟨p, hp, hheading, hunits, hsections, hfold⟩ := hopen
      obtain ⟨hmode, hflush⟩ := feed_units R (by simpa using hne) (hw.units s hs) hp
      rw [if_neg hne, ← List.cons_append, List.foldl_append, hfold, hflush, add_groups hunits, hsections, hgroups,
        hheading]
      exact ⟨hmode, p.add_fresh hp s.units, rfl⟩

/-- the lines up to the units of a last section -/
theorem feed_before {ss : List BodySection} {h : Option Text} {us : List BodyUnit}
    (hw : Written R (ss ++ [⟨h, us⟩])) (hh : Headed (ss ++ [⟨h, us⟩])) (layer : Text) :
    ∃ p : Parser, p.Fresh ∧ (docLines ss ++ [] :: h.toList).foldl (Parser.step R) (Parser.start layer) = p ∧
      ∀ vs, (p.add vs).groups = groups ss ++ groups [⟨h, vs⟩] := by
  have hss : Written R ss :=
    ⟨fun t ht => hw.units t (List.mem_append_left _ ht), fun t ht => hw.headings t (List.mem_append_left _ ht)⟩
  obtain ⟨hm, hf, hgroups⟩ := feed_groups R hss hh.init layer
  have hopen := feed_opening R (h := h)
    (fun a ha => hw.headings ⟨h, us⟩ (List.mem_append_right _ (List.mem_singleton_self _)) a ha) hm hf fun hnone => by
      rw [hh.last hnone]
      exact ⟨rfl, rfl⟩
  obtain ⟨p, hp, hheading, hunits, hsections, hfold⟩ := hopen
  refine ⟨p, hp, ?_, fun vs => ?_⟩
  · rw [List.foldl_append, hfold]
  · rw [add_groups hunits, hsections, hgroups, hheading]

/-! ## What a parse ends with -/

theorem Ends.not_blank {u : BodyUnit} (h : Ends R u) : Text.isBlank u.text = false := by
  cases h with
  | run ls m h ht =>
    obtain ⟨l, rest, rfl, hl, -⟩ := h.head
    rw [← isBlank_rstrip, ht, isBlank_rstrip]
    exact isBlank_unlines_cons hl rest
  | callout init l h hl hn hk ht =>
    obtain ⟨a, rest, rfl, ha, -⟩ := h.head
    rw [ht]
    exact isBlank_unlines_cons ha (rest ++ [l])

theorem headed_congr {ss ts : List BodySection} (h : ss.map BodySection.heading = ts.map BodySection.heading)
    (hs : Headed ss) : Headed ts := by
  intro t ht hnone
  have hmem : none ∈ (ts.map BodySection.heading).tail := by
    rw [← List.map_tail, ← hnone]
    exact List.mem_map_of_mem ht
  rw [← h, ← List.map_tail] at hmem
  obtain ⟨s, hs', hsn⟩ := List.mem_map.mp hmem
  exact hs s hs' hsn

theorem headed_parsed (layer body : Text) :
    Headed ((parsed R layer body).sections ++ [(parsed R layer body).last]) :=
  Parser.headed_foldl R (fun _ hs => absurd hs List.not_mem_nil) (titled body).2

theorem good_parsed (layer body : Text) : Good R (parsed R layer body) :=
  good_foldl R (good_start R layer) (titled_clean body)

theorem rstrip_stripChar_unlines {l : Text} {rest : List Text} (hl : Text.isBlank l = false) (hclean : '\n' ∉ l) :
    Text.rstrip (Text.stripChar '\n' (Text.unlines (l :: rest))) = Text.rstrip (Text.unlines (l :: rest)) := by
  have hhead : (Text.unlines (l :: rest)).head? ≠ some '\n' := by
    rw [Text.head?_unlines_cons (Text.ne_nil_of_not_blank hl)]
    exact fun h => hclean (List.mem_of_head? h)
  rw [Text.stripChar, Text.rstrip_rdropWhile_newline]
  cases hu : Text.unlines (l :: rest) with
  | nil => rfl
  | cons c u =>
    rw [hu, List.head?_cons] at hhead
    rw [List.dropWhile_cons_of_neg]
    rw [beq_iff_eq]
    exact fun h => hhead (congrArg some h)

/-- what is open at the end of a text becomes its last unit -/
theorem close_open {p : Parser} {k : Kind} (hk : p.kind = some k) (h : Run R p.current k p.mode) :
    ∃ w : BodyUnit, w.kind = k ∧ Text.rstrip w.text = Text.rstrip (Text.unlines p.current) ∧
      p.close.sections = p.sections ∧ p.close.last = ⟨p.heading, p.units ++ [w]⟩ := by
  obtain ⟨l, rest, hcur, hl, -⟩ := h.head
  by_cases hm : p.mode = .callout
  · have hcallout : k = .callout := h.callout.mp hm
    refine ⟨⟨.callout, Text.unlines p.current, p.layer⟩, hcallout.symm, rfl, ?_⟩
    unfold Parser.close
    rw [if_pos hm]
    exact ⟨rfl, rfl⟩
  · refine ⟨⟨k, Text.stripChar '\n' (Text.unlines p.current), p.layer⟩, rfl, ?_, ?_⟩
    · show Text.rstrip (Text.stripChar '\n' (Text.unlines p.current)) = _
      rw [hcur]
      exact rstrip_stripChar_unlines hl (h.clean l (hcur ▸ List.mem_cons_self))
    · have hany : (p.current.any fun line => !Text.isBlank line) = true := by
        rw [hcur, List.any_cons, hl]
        rfl
      unfold Parser.close
      rw [if_neg hm]
      unfold Parser.flush Parser.last
      dsimp only
      rw [if_pos hany, hk]
      exact ⟨rfl, rfl⟩

theorem exists_last {ss : List BodySection} : (∀ s ∈ ss, s.units = []) ∨
    ∃ before s after, ss = before ++ s :: after ∧ s.units ≠ [] ∧ ∀ t ∈ after, t.units = [] := by
  induction ss using List.reverseRecOn with
  | nil => exact Or.inl fun s hs => absurd hs List.not_mem_nil
  | append_singleton ss s ih =>
    by_cases hs : s.units = []
    · rcases ih with hall | ⟨before, t, after, rfl, ht, hafter⟩
      · refine Or.inl fun t ht => ?_
        rcases List.mem_append.mp ht with ht | ht
        · exact hall t ht
        · rw [List.mem_singleton.mp ht]
          exact hs
      · refine Or.inr ⟨before, t, after ++ [s], List.append_assoc _ _ _, ht, fun u hu => ?_⟩
        rcases List.mem_append.mp hu with hu | hu
        · exact hafter u hu
        · rw [List.mem_singleton.mp hu]
          exact hs
    · exact Or.inr ⟨ss, s, [], rfl, hs, fun t ht => absurd ht List.not_mem_nil⟩

/-- the sections of a parse: no unit at all, or closed units and a last one -/
theorem parse_ends (layer body : Text) :
    (∀ s ∈ (parseBody R layer body).sections, s.units = []) ∨
      ∃ (before : List BodySection) (h : Option Text) (us : List BodyUnit) (w : BodyUnit) (after : List BodySection),
        (parseBody R layer body).sections = before ++ ⟨h, us ++ [w]⟩ :: after ∧ (∀ s ∈ after, s.units = []) ∧
        Written R (before ++ [⟨h, us⟩]) ∧ Headed (before ++ [⟨h, us⟩]) ∧ Ends R w := by
  have hgood := good_parsed R layer body
  rcases hgood.opened with hfresh | ⟨k, hk, hrun⟩
  · have hw : Written R (parseBody R layer body).sections := written_parse R hfresh.2.2
    have hh : Headed (parseBody R layer body).sections := headed_parse R hfresh.2.2
    have hcut := @exists_last (parseBody R layer body).sections
    rcases hcut with hall | ⟨before, s, after, heq, hs, hafter⟩
    · exact Or.inl hall
    · right
      obtain ⟨us, w, hunits⟩ := (List.eq_nil_or_concat' s.units).resolve_left hs
      obtain ⟨h, units⟩ := s
      obtain rfl : units = us ++ [w] := hunits
      rw [heq] at hw hh
      have hmem : (⟨h, us ++ [w]⟩ : BodySection) ∈ before ++ ⟨h, us ++ [w]⟩ :: after :=
        List.mem_append_right _ List.mem_cons_self
      refine ⟨before, h, us, w, after, heq, hafter, ⟨fun t ht => ?_, fun t ht => ?_⟩, ?_, ?_⟩
      · rcases List.mem_append.mp ht with ht | ht
        · exact hw.units t (List.mem_append_left _ ht)
        · rw [List.mem_singleton.mp ht]
          exact fun u hu => hw.units _ hmem u (List.mem_append_left _ hu)
      · rcases List.mem_append.mp ht with ht | ht
        · exact hw.headings t (List.mem_append_left _ ht)
        · rw [List.mem_singleton.mp ht]
          exact hw.headings ⟨h, us ++ [w]⟩ hmem
      · have hsub : (before ++ [(⟨h, us ++ [w]⟩ : BodySection)]).Sublist (before ++ ⟨h, us ++ [w]⟩ :: after) :=
          (List.Sublist.refl before).append ((List.nil_sublist after).cons_cons _)
        refine headed_congr ?_ (hh.sublist hsub)
        rw [List.map_append, List.map_append]
        rfl
      · exact (hw.units _ hmem w (List.mem_append_right _ (List.mem_singleton_self w))).ends R
  · right
    obtain ⟨w, hkind, htext, hsections, hlast⟩ := close_open R hk hrun
    have hends : Ends R w := by
      refine .run (parsed R layer body).current (parsed R layer body).mode ?_ htext
      rw [hkind]
      exact hrun
    refine ⟨(parsed R layer body).sections.filter fun s => s.heading.isSome || !s.units.isEmpty,
      (parsed R layer body).heading, (parsed R layer body).units, w, [], ?_, fun s hs => absurd hs List.not_mem_nil,
      ⟨fun t ht => ?_, fun t ht => ?_⟩, ?_, hends⟩
    · show ((parsed R layer body).close.sections ++ [(parsed R layer body).close.last]).filter _ = _
      rw [hsections, hlast, List.filter_append]
      refine congrArg _ (List.filter_cons_of_pos ?_)
      show (_ || !((parsed R layer body).units ++ [w]).isEmpty) = true
      rw [List.isEmpty_eq_false_iff.mpr (List.concat_ne_nil w _), Bool.not_false, Bool.or_true]
    · rcases List.mem_append.mp ht with ht | ht
      · exact hgood.sections t (List.mem_filter.mp ht).1
      · rw [List.mem_singleton.mp ht]
        exact hgood.units
    · rcases List.mem_append.mp ht with ht | ht
      · exact hgood.headings t (List.mem_filter.mp ht).1
      · rw [List.mem_singleton.mp ht]
        exact hgood.heading
    · exact (headed_parsed R layer body).sublist (List.filter_sublist.append (List.Sublist.refl _))

/-! ## A marker at the end of the text -/

theorem itemLine_of_lineKind {l : Text} (h : lineKind R l = .item) : itemLine R l = true := by
  unfold lineKind at h
  split at h
  · exact nomatch h
  · split at h
    · exact nomatch h
    · split at h
      · exact nomatch h
      · split at h
        · exact nomatch h
        · split at h
          · next hi => exact hi
          · exact nomatch h

/-- blank lines after nothing open leave nothing open -/
theorem foldl_blank {p : Parser} (hp : p.Fresh) {ls : List Text} (h : ∀ l ∈ ls, Text.isBlank l = true) :
    ls.foldl (Parser.step R) p = p := by
  induction ls with
  | nil => rfl
  | cons l ls ih =>
    have hstep : Parser.step R p l = p := by
      rw [step_prose R hp.2.2 (lineKind_of_blank R (h l List.mem_cons_self))]
      exact flush_fresh hp
    rw [List.foldl_cons, hstep]
    exact ih fun m hm => h m (List.mem_cons_of_mem l hm)

theorem mem_unlines {l : Text} {ls : List Text} (hl : l ∈ ls) {c : Char} (hc : c ∈ l) : c ∈ Text.unlines ls := by
  induction ls with
  | nil => exact absurd hl List.not_mem_nil
  | cons m ls ih =>
    by_cases hls : ls = []
    · rw [hls] at hl ⊢
      rw [Text.unlines_singleton, ← List.mem_singleton.mp hl]
      exact hc
    · rw [Text.unlines_cons hls]
      rcases List.mem_cons.mp hl with rfl | hl
      · exact List.mem_append_left _ hc
      · exact List.mem_append_right _ (List.mem_cons_of_mem _ (ih hl))

/-- an item that is nothing but its marker is one line -/
theorem Run.of_bare {ls : List Text} {m : Mode} (h : Run R ls .item m)
    (hbare : itemLine R (Text.rstrip (Text.unlines ls)) = false) : ∃ f, ls = [f] ∧ lineKind R f = .item := by
  obtain ⟨f, rest, rfl, hf, hk⟩ := h.head
  have hitem := hk rfl
  cases rest with
  | nil => exact ⟨f, rfl, hitem⟩
  | cons b rest =>
    exfalso
    by_cases hblank : ∀ l ∈ b :: rest, Text.isBlank l = true
    · -- a blank line ends an item, and nothing of it is open any more
      have hopens := h.opens (Parser.start []) ⟨rfl, rfl, rfl⟩
      have hfirst : ((f :: b :: rest).foldl (Parser.step R) (Parser.start [])).current = [] := by
        rw [List.foldl_cons, step_prose R rfl hitem, List.foldl_cons,
          step_prose R rfl (lineKind_of_blank R (hblank b List.mem_cons_self))]
        rw [foldl_blank R ⟨rfl, rfl, rfl⟩ fun l hl => hblank l (List.mem_cons_of_mem b hl)]
        rfl
      rw [hopens] at hfirst
      exact List.cons_ne_nil _ _ hfirst
    · have hrest : Text.isBlank ('\n' :: Text.unlines (b :: rest)) = false := by
        refine Bool.eq_false_iff.mpr fun hall => hblank fun l hl => Text.isBlank_iff.mpr fun c hc => ?_
        exact Text.isBlank_iff.mp hall c (List.mem_cons_of_mem _ (mem_unlines hl hc))
      have hprefix : f <+: Text.rstrip (Text.unlines (f :: b :: rest)) := by
        rw [Text.unlines_cons (List.cons_ne_nil b rest), Text.rstrip_append_of_ne hrest]
        exact List.prefix_append f _
      rw [itemLine_mono R hprefix (itemLine_of_lineKind R hitem)] at hbare
      exact nomatch hbare

/-- all units of a state -/
def Parser.allUnits (p : Parser) : List BodyUnit := (p.sections ++ [p.last]).flatMap BodySection.units

/-- the last unit is a list marker alone -/
def LastBare (us : List BodyUnit) : Prop := ∃ init u, us = init ++ [u] ∧ Bare R u.kind u.text

theorem allUnits_eq (p : Parser) : p.allUnits = p.sections.flatMap BodySection.units ++ p.units := by
  unfold Parser.allUnits Parser.last
  rw [List.flatMap_append]
  exact congrArg _ (List.append_nil _)

theorem lastBare_concat {us : List BodyUnit} {u : BodyUnit} : LastBare R (us ++ [u]) ↔ Bare R u.kind u.text := by
  constructor
  · intro h
    obtain ⟨init, v, heq, hv⟩ := h
    obtain ⟨-, huv⟩ := List.append_inj' heq rfl
    rw [(List.cons.inj huv).1]
    exact hv
  · exact fun h => ⟨us, u, rfl, h⟩

/-- a heading keeps all units -/
theorem allUnits_heading (p : Parser) (h : Option Text) :
    Parser.allUnits { p.flush with sections := p.sections ++ [p.flush.last], heading := h, units := [] } =
      p.flush.allUnits := by
  rw [allUnits_eq]
  exact List.append_nil _

/-- only blank lines and headings after a marker alone keep it last -/
theorem lastBare_of_endsBare {lines : List Text} (hclean : ∀ l ∈ lines, '\n' ∉ l) (h : EndsBare R lines)
    (layer : Text) : LastBare R (lines.foldl (Parser.step R) (Parser.start layer)).close.allUnits := by
  obtain ⟨init, l, rest, rfl, hmode, hitem, hbare, hrest⟩ := h
  have hm : (init.foldl (Parser.step R) (Parser.start layer)).mode = .prose := by
    rw [mode_foldl]
    exact hmode
  have hl : '\n' ∉ l := hclean l (List.mem_append_right _ List.mem_cons_self)
  rw [List.foldl_append, List.foldl_cons, step_prose R hm hitem]
  generalize init.foldl (Parser.step R) (Parser.start layer) = q at hm
  have hfirst : (q.proseStep l .item).mode = .prose ∧ LastBare R (q.proseStep l .item).flush.allUnits := by
    refine ⟨hm, ?_⟩
    have hflush := flush_open q.flush [] (lineKind_not_blank R (by rw [hitem]; exact nofun)) (l := l) (some .item) q.mode
    rw [List.nil_append, Text.unlines_singleton] at hflush
    have hstrip : Text.stripChar '\n' l = l :=
      Text.stripChar_eq_self (fun e => hl (List.mem_of_head? e)) (fun e => hl (List.mem_of_getLast? e))
    show LastBare R (Parser.flush { q.flush with current := [l], kind := some .item, mode := q.mode }).allUnits
    rw [hflush, hstrip, allUnits_eq, ← List.append_assoc]
    exact (lastBare_concat R).mpr ⟨rfl, hbare⟩
  generalize q.proseStep l .item = p at hfirst
  clear hclean hmode hitem hbare hm hl
  induction rest generalizing p with
  | nil =>
    rw [List.foldl_nil, Parser.close_prose hfirst.1]
    exact hfirst.2
  | cons b rest ih =>
    refine ih (fun c hc => hrest c (List.mem_cons_of_mem b hc)) _ ?_
    rcases hrest b List.mem_cons_self with hb | hb
    · rw [step_prose R hfirst.1 hb]
      refine ⟨hfirst.1, ?_⟩
      show LastBare R p.flush.flush.allUnits
      rw [flush_flush]
      exact hfirst.2
    · rw [step_prose R hfirst.1 hb]
      refine ⟨hfirst.1, ?_⟩
      have hkeeps := allUnits_heading p (some (Text.rstrip b))
      rw [← hkeeps] at hfirst
      exact hfirst.2

/-- what a line does to a last unit that is a marker alone -/
theorem lastBare_step {p : Parser} (hp : Good R p) {x : Text} (hx : '\n' ∉ x)
    (h : LastBare R (Parser.step R p x).close.allUnits) :
    p.mode = .prose ∧ ((lineKind R x = .blank ∨ lineKind R x = .heading) ∧ LastBare R p.close.allUnits ∨
      lineKind R x = .item ∧ itemLine R (Text.rstrip x) = false) := by
  rcases (good_step R hp hx).opened with hfresh | ⟨k, hk, hrun⟩
  · have hclose : (Parser.step R p x).close = Parser.step R p x := by
      rw [Parser.close_prose hfresh.2.2, flush_fresh hfresh]
    rw [hclose] at h
    have hcurrent := hfresh.1
    cases hm : p.mode with
    | fence =>
      unfold Parser.step at hcurrent
      rw [hm] at hcurrent
      exact absurd hcurrent (List.concat_ne_nil x _)
    | callout =>
      unfold Parser.step at hcurrent h
      rw [hm] at hcurrent h
      dsimp only at hcurrent h
      split at hcurrent
      · next he =>
        rw [if_pos he, allUnits_eq, ← List.append_assoc, lastBare_concat] at h
        cases h.1
      · exact absurd hcurrent (List.concat_ne_nil x _)
    | prose =>
      refine ⟨rfl, ?_⟩
      rw [Parser.close_prose hm]
      cases hl : lineKind R x with
      | calloutStart =>
        rw [step_prose R hm hl] at hcurrent
        exact absurd hcurrent (List.cons_ne_nil x [])
      | fence =>
        rw [step_prose R hm hl, Parser.proseStep] at hcurrent
        split at hcurrent
        · exact absurd hcurrent (List.concat_ne_nil x _)
        · exact absurd hcurrent (List.cons_ne_nil x [])
      | heading =>
        rw [step_prose R hm hl] at h
        have hkeeps := allUnits_heading p (some (Text.rstrip x))
        rw [← hkeeps]
        exact Or.inl ⟨Or.inr rfl, h⟩
      | blank =>
        rw [step_prose R hm hl] at h
        exact Or.inl ⟨Or.inl rfl, h⟩
      | item =>
        rw [step_prose R hm hl] at hcurrent
        exact absurd hcurrent (List.cons_ne_nil x [])
      | text =>
        rw [step_prose R hm hl] at hcurrent
        exact absurd hcurrent (List.concat_ne_nil x _)
  · obtain ⟨w, hkind, htext, hsections, hlast⟩ := close_open R hk hrun
    have hlastBare : Bare R w.kind w.text := by
      unfold Parser.allUnits at h
      rw [hsections, hlast, List.flatMap_append, List.flatMap_singleton, ← List.append_assoc, lastBare_concat] at h
      exact h
    obtain ⟨hitem, hbare⟩ := hlastBare
    rw [hkind] at hitem
    rw [htext] at hbare
    subst hitem
    obtain ⟨f, hcur, -⟩ := hrun.of_bare R hbare
    have hopen : ∀ {k' : Kind}, p.kind = some k' → p.current ≠ [] := by
      intro k' hk' hnil
      rcases hp.opened with hf | ⟨k₂, hk₂, hrun₂⟩
      · rw [hf.2.1] at hk'
        cases hk'
      · exact hrun₂.ne_nil R hnil
    have hone : ∀ c : List Text, c ≠ [] → c ++ [x] ≠ [f] := by
      intro c hc heq
      have hlen := congrArg List.length heq
      rw [List.length_append, List.length_singleton, List.length_singleton] at hlen
      exact hc (List.length_eq_zero_iff.mp (by omega))
    cases hm : p.mode with
    | fence =>
      rcases hp.opened with hf | ⟨k₂, hk₂, -⟩
      · rw [hf.2.2] at hm
        cases hm
      · unfold Parser.step at hcur
        rw [hm] at hcur
        exact absurd hcur (hone _ (hopen hk₂))
    | callout =>
      rcases hp.opened with hf | ⟨k₂, hk₂, -⟩
      · rw [hf.2.2] at hm
        cases hm
      · unfold Parser.step at hcur
        rw [hm] at hcur
        dsimp only at hcur
        split at hcur
        · cases hcur
        · exact absurd hcur (hone _ (hopen hk₂))
    | prose =>
      refine ⟨rfl, Or.inr ?_⟩
      cases hl : lineKind R x with
      | calloutStart =>
        rw [step_prose R hm hl] at hk
        cases hk
      | fence =>
        rw [step_prose R hm hl, Parser.proseStep] at hk hcur
        split at hk
        · next hi =>
          rw [if_pos hi] at hcur
          exact absurd hcur (hone _ (hopen hi))
        · cases hk
      | heading =>
        rw [step_prose R hm hl] at hcur
        cases hcur
      | blank =>
        rw [step_prose R hm hl] at hcur
        cases hcur
      | item =>
        rw [step_prose R hm hl] at hbare
        have hx' : itemLine R (Text.rstrip (Text.unlines [x])) = false := hbare
        rw [Text.unlines_singleton] at hx'
        exact ⟨rfl, hx'⟩
      | text =>
        rw [step_prose R hm hl, Parser.proseStep] at hk hcur
        dsimp only at hk hcur
        by_cases hc : p.current.isEmpty = true
        · rw [if_pos hc] at hk
          cases hk
        · exact absurd hcur (hone _ fun hnil => hc (by rw [hnil]; rfl))

theorem endsBare_of_lastBare {lines : List Text} (hclean : ∀ l ∈ lines, '\n' ∉ l) (layer : Text)
    (h : LastBare R (lines.foldl (Parser.step R) (Parser.start layer)).close.allUnits) : EndsBare R lines := by
  induction lines using List.reverseRecOn with
  | nil =>
    obtain ⟨init, u, heq, -⟩ := h
    exact absurd heq.symm (List.concat_ne_nil u init)
  | append_singleton lines x ih =>
    have hlines : ∀ l ∈ lines, '\n' ∉ l := fun l hl => hclean l (List.mem_append_left _ hl)
    rw [List.foldl_append, List.foldl_cons, List.foldl_nil] at h
    obtain ⟨hm, hor⟩ := lastBare_step R (good_foldl R (good_start R layer) hlines)
      (hclean x (List.mem_append_right _ (List.mem_singleton_self x))) h
    rcases hor with ⟨hx, hlast⟩ | ⟨hitem, hbare⟩
    · obtain ⟨init, l, rest, rfl, hmode, hl, hbare, hrest⟩ := ih hlines hlast
      refine ⟨init, l, rest ++ [x], by rw [List.append_assoc, List.cons_append], hmode, hl, hbare, fun b hb => ?_⟩
      rcases List.mem_append.mp hb with hb | hb
      · exact hrest b hb
      · rw [List.mem_singleton.mp hb]
        exact hx
    · refine ⟨lines, x, [], rfl, ?_, hitem, hbare, fun b hb => absurd hb List.not_mem_nil⟩
      rw [mode_foldl] at hm
      exact hm

/-! ## Rendered and parsed again -/

theorem docLines_empty {ss : List BodySection} (h : ∀ s ∈ ss, s.units = []) : docLines ss = [] := by
  refine List.flatMap_eq_nil_iff.mpr fun s hs => ?_
  unfold sectionLines
  rw [h s hs]
  rfl

theorem groups_empty {ss : List BodySection} (h : ∀ s ∈ ss, s.units = []) : groups ss = [] := by
  unfold groups
  rw [List.map_eq_nil_iff, List.filter_eq_nil_iff]
  intro s hs
  rw [h s hs]
  exact Bool.false_ne_true

/-- a text without white space at its end has a last line that is not blank -/
theorem last_line {t : Text} (h : Text.isBlank t = false) :
    ∃ init l, Text.linesOf (Text.rstrip t) = init ++ [l] ∧ Text.isBlank l = false := by
  have hne : Text.linesOf (Text.rstrip t) ≠ [] := Text.linesOf_ne_nil _
  obtain ⟨init, l, heq⟩ := (List.eq_nil_or_concat' _).resolve_left hne
  refine ⟨init, l, heq, Bool.eq_false_iff.mpr fun hl => ?_⟩
  have htext : Text.rstrip t = Text.unlines (init ++ [l]) := by rw [← heq, Text.unlines_linesOf]
  cases init with
  | nil =>
    rw [List.nil_append, Text.unlines_singleton] at htext
    rw [← htext, isBlank_rstrip, h] at hl
    exact nomatch hl
  | cons a init =>
    have hshort := rstrip_unlines_blank (List.cons_ne_nil a init) hl
    rw [← htext, Text.rstrip_rstrip, htext, Text.unlines_append (List.cons_ne_nil a init) (List.cons_ne_nil l [])]
      at hshort
    have hlen := congrArg List.length hshort
    have hle := (Text.rstrip_prefix (Text.unlines (a :: init))).length_le
    rw [List.length_append, List.length_cons] at hlen
    omega

/-- the parts of sections that can be written with their last unit -/
structure Writable (before : List BodySection) (h : Option Text) (us : List BodyUnit) (w : BodyUnit)
    (after : List BodySection) : Prop where
  written : Written R (before ++ [⟨h, us⟩])
  headed : Headed (before ++ [⟨h, us⟩])
  ends : Ends R w
  after : ∀ s ∈ after, s.units = []

theorem Writable.units {before after : List BodySection} {h : Option Text} {us : List BodyUnit} {w : BodyUnit}
    (hs : Writable R before h us w after) : ∀ u ∈ us, Solid R u :=
  hs.written.units ⟨h, us⟩ (List.mem_append_right _ (List.mem_singleton_self _))

theorem Writable.text_ne_nil {before after : List BodySection} {h : Option Text} {us : List BodyUnit} {w : BodyUnit}
    (hs : Writable R before h us w after) :
    ∀ s ∈ before ++ ⟨h, us ++ [w]⟩ :: after, ∀ u ∈ s.units, u.text ≠ [] := by
  intro s hmem u hu
  rcases List.mem_append.mp hmem with hmem | hmem
  · exact (hs.written.units s (List.mem_append_left _ hmem) u hu).text_ne_nil R
  · rcases List.mem_cons.mp hmem with rfl | hmem
    · rcases List.mem_append.mp hu with hu | hu
      · exact (hs.units R u hu).text_ne_nil R
      · rw [List.mem_singleton.mp hu]
        exact Text.ne_nil_of_not_blank hs.ends.not_blank
    · rw [hs.after s hmem] at hu
      exact absurd hu List.not_mem_nil

/-- the lines before the last unit -/
def opening (before : List BodySection) (h : Option Text) (us : List BodyUnit) (k : Kind) : List Text :=
  docLines before ++ [] :: h.toList ++ lead us k

theorem Writable.docLines_eq {before after : List BodySection} {h : Option Text} {us : List BodyUnit} {w : BodyUnit}
    (hs : Writable R before h us w after) :
    docLines (before ++ ⟨h, us ++ [w]⟩ :: after) = opening before h us w.kind ++ w.lines := by
  have hne : ¬ (us ++ [w]).isEmpty = true := by
    rw [List.isEmpty_iff]
    exact List.concat_ne_nil w us
  have hcons : docLines (⟨h, us ++ [w]⟩ :: after) = sectionLines ⟨h, us ++ [w]⟩ ++ docLines after := List.flatMap_cons
  rw [docLines_append, hcons, docLines_empty hs.after, List.append_nil, sectionLines, if_neg hne, unitsLines_snoc]
  unfold opening
  rw [List.append_assoc, List.append_assoc, List.cons_append]

theorem Writable.opening_clean {before after : List BodySection} {h : Option Text} {us : List BodyUnit} {w : BodyUnit}
    (hs : Writable R before h us w after) : ∀ l ∈ opening before h us w.kind, '\n' ∉ l := by
  intro l hl
  rcases List.mem_append.mp hl with hl | hl
  · rcases List.mem_append.mp hl with hl | hl
    · have hw : Written R before :=
        ⟨fun s hm => hs.written.units s (List.mem_append_left _ hm),
          fun s hm => hs.written.headings s (List.mem_append_left _ hm)⟩
      exact docLines_clean R hw l hl
    · rcases List.mem_cons.mp hl with rfl | hl
      · exact List.not_mem_nil
      · exact (hs.written.headings ⟨h, us⟩ (List.mem_append_right _ (List.mem_singleton_self _)) l
          (Option.mem_toList.mp hl)).clean
  · refine unitsLines_clean (us ++ [w]) l ?_
    rw [unitsLines_snoc]
    exact List.mem_append_left _ hl

/-- the text of a body, cut into its title and its lines -/
theorem Writable.titled_eq {before after : List BodySection} {h : Option Text} {us : List BodyUnit} {w : BodyUnit}
    (hs : Writable R before h us w after) {t : Text} (ht : IsTitle t) :
    titled (renderBody R false ⟨t, before ++ ⟨h, us ++ [w]⟩ :: after⟩) =
      (t, opening before h us w.kind ++ Text.linesOf (Text.rstrip w.text)) := by
  have hw := hs.ends.not_blank
  have hlast : Text.isBlank ('\n' :: w.text) = false := by
    show Text.isBlank (['\n'] ++ w.text) = false
    rw [Text.isBlank_append, hw, Bool.and_false]
  have hrstrip : Text.rstrip (Text.unlines (t :: (opening before h us w.kind ++ w.lines))) =
      Text.unlines (t :: (opening before h us w.kind ++ Text.linesOf (Text.rstrip w.text))) := by
    rw [← List.cons_append, ← List.cons_append, Text.unlines_append (List.cons_ne_nil _ _) (lines_ne_nil w),
      Text.unlines_append (List.cons_ne_nil _ _) (Text.linesOf_ne_nil _), unlines_lines, Text.unlines_linesOf,
      Text.rstrip_append_of_ne hlast]
    have hcons : Text.rstrip (['\n'] ++ w.text) = ['\n'] ++ Text.rstrip w.text := Text.rstrip_append_of_ne hw
    exact congrArg _ hcons
  rw [renderBody_docLines R ht.head (hs.text_ne_nil R), hs.docLines_eq, hrstrip]
  obtain ⟨init, l, hl, hb⟩ := last_line hw
  have hcut : t :: (opening before h us w.kind ++ Text.linesOf (Text.rstrip w.text)) =
      t :: (opening before h us w.kind ++ init) ++ [l] := by
    rw [hl, List.cons_append, List.append_assoc]
  refine titled_unlines ht (fun a ha => ?_) hcut hb
  · rcases List.mem_append.mp ha with ha | ha
    · exact hs.opening_clean R a ha
    · exact Text.mem_linesOf_newline ha

theorem Writable.groups_eq {before after : List BodySection} {h : Option Text} {us : List BodyUnit} {w : BodyUnit}
    (hs : Writable R before h us w after) :
    groups (before ++ ⟨h, us ++ [w]⟩ :: after) = groups before ++ groups [⟨h, us ++ [w]⟩] := by
  rw [groups_append, ← List.singleton_append, groups_append, groups_empty hs.after, List.append_nil]

/-- a body whose last unit says something is read as it is -/
theorem Writable.reparse {before after : List BodySection} {h : Option Text} {us : List BodyUnit} {w : BodyUnit}
    (hs : Writable R before h us w after) (hbare : ¬ Bare R w.kind w.text) {t : Text} (ht : IsTitle t) (layer : Text) :
    groups (parseBody R layer (renderBody R false ⟨t, before ++ ⟨h, us ++ [w]⟩ :: after⟩)).sections =
      groups (before ++ ⟨h, us ++ [w]⟩ :: after) := by
  obtain ⟨p, hp, hfold, hgroups⟩ := feed_before R hs.written hs.headed layer
  show groups (Parser.finish (parsed R layer _)) = _
  rw [groups_finish]
  unfold parsed
  rw [hs.titled_eq R ht, opening, List.append_assoc, List.foldl_append, hfold, feed_end R (hs.units R) hs.ends hbare hp,
    hgroups, hs.groups_eq]

/-! ## The number of items -/

def items (gs : List (Option Text × List (Kind × Text))) : ℕ :=
  (gs.map fun g => g.2.countP fun u => u.1 == .item).sum

theorem items_append (gs hs : List (Option Text × List (Kind × Text))) : items (gs ++ hs) = items gs + items hs := by
  unfold items
  rw [List.map_append, List.sum_append]

theorem items_section (h : Option Text) (us : List BodyUnit) :
    items (groups [⟨h, us⟩]) = us.countP fun u => u.kind == .item := by
  by_cases hus : us = []
  · rw [hus]
    rfl
  · rw [groups_singleton hus]
    show (us.map fun u => (u.kind, Text.rstrip u.text)).countP (fun u => u.1 == .item) + 0 = _
    rw [List.countP_map]
    rfl

/-- a line of text goes on with what is open, or begins a paragraph -/
theorem items_text {q : Parser} (hq : Good R q) (hm : q.mode = .prose) {x : Text} (hx : Text.isBlank x = false) :
    items (q.proseStep x .text).flush.groups = items q.flush.groups := by
  have hcount : ∀ (p : Parser) (us : List BodyUnit),
      items (Parser.groups { p with units := us }) = items (Body.groups p.sections) + us.countP fun u => u.kind == .item := by
    intro p us
    unfold Parser.groups
    rw [groups_append, items_append]
    exact congrArg _ (items_section p.heading us)
  have hstep : (q.proseStep x .text).flush.groups = Parser.groups { q with
      units := q.units ++ [⟨(if q.current.isEmpty then some Kind.paragraph else q.kind).getD .paragraph,
        Text.stripChar '\n' (Text.unlines (q.current ++ [x])), q.layer⟩] } := by
    have hflush := flush_open q q.current hx (if q.current.isEmpty then some Kind.paragraph else q.kind) q.mode
    show (Parser.flush { q with
      current := q.current ++ [x]
      kind := if q.current.isEmpty then some Kind.paragraph else q.kind
      mode := q.mode }).groups = _
    rw [hflush]
    rfl
  rw [hstep, hcount, List.countP_append]
  rcases hq.opened with hf | ⟨k, hk, hrun⟩
  · rw [flush_fresh hf, hf.1]
    exact (hcount q q.units).symm
  · rw [hm] at hrun
    have hne : ¬ q.current.isEmpty = true := by
      rw [List.isEmpty_iff]
      exact hrun.ne_nil R
    have hp : q = { q with current := q.current, kind := some k, mode := .prose } := by rw [← hk, ← hm]
    have hflush := flush_run R (p := q) hrun
    rw [← hp] at hflush
    rw [hflush, if_neg hne, hk]
    have hsame := hcount q (q.units ++ [⟨k, Text.unlines q.current, q.layer⟩])
    rw [List.countP_append] at hsame
    exact hsame.symm

/-- the number of items is part of the shape -/
theorem items_shape {b c : Parsed} (h : shape R b = shape R c) : items (groups b.sections) = items (groups c.sections) := by
  have hcount : ∀ d : Parsed, items (groups d.sections) =
      ((shape R d).2.map fun g => g.2.countP fun u => u.1 == .item).sum := by
    intro d
    rw [shape_eq]
    show _ = (((groups d.sections).map fun g => (g.1, g.2.map fun u => (u.1, unitKey R u.2))).map _).sum
    rw [List.map_map]
    refine congrArg List.sum (List.map_congr_left fun g _ => ?_)
    show _ = (g.2.map fun u => (u.1, unitKey R u.2)).countP _
    rw [List.countP_map]
    rfl
  rw [hcount b, hcount c, h]

/-- a marker alone is text without its white space -/
theorem lineKind_bare {f : Text} (h : lineKind R f = .item) (hbare : itemLine R (Text.rstrip f) = false) :
    lineKind R (Text.rstrip f) = .text := by
  have hblank := lineKind_not_blank R (l := f) (by rw [h]; exact nofun)
  have hheading : headingLine (Text.rstrip f) = headingLine f :=
    Bool.eq_iff_iff.mpr ⟨headingLine_mono (Text.rstrip_prefix f), headingLine_rstrip⟩
  have hstart : Text.startsWith CALLOUT_START (Text.rstrip f) = Text.startsWith CALLOUT_START f :=
    startsWith_rstrip rfl
  unfold lineKind at h ⊢
  rw [hstart, fenceLine_rstrip, hheading, isBlank_rstrip, hbare]
  split at h
  · exact nomatch h
  · split at h
    · exact nomatch h
    · split at h
      · exact nomatch h
      · next h₁ h₂ h₃ =>
        rw [if_neg h₁, if_neg h₂, if_neg h₃, hblank]
        rfl

/-- a body that ends in a marker alone is read with one item less -/
theorem Writable.reparse_bare {before after : List BodySection} {h : Option Text} {us : List BodyUnit} {w : BodyUnit}
    (hs : Writable R before h us w after) (hbare : Bare R w.kind w.text) {t : Text} (ht : IsTitle t) (layer : Text) :
    items (Body.groups (parseBody R layer (renderBody R false ⟨t, before ++ ⟨h, us ++ [w]⟩ :: after⟩)).sections) <
      items (Body.groups (before ++ ⟨h, us ++ [w]⟩ :: after)) := by
  obtain ⟨p, hp, hfold, hgroups⟩ := feed_before R hs.written hs.headed layer
  obtain ⟨hmode, hflush, -⟩ := feed_lead R (hs.units R) w.kind hp
  obtain ⟨f, hf, hitem, hnb⟩ : ∃ f, Text.linesOf (Text.rstrip w.text) = [Text.rstrip f] ∧ lineKind R f = .item ∧
      itemLine R (Text.rstrip f) = false := by
    cases hs.ends with
    | callout init l hrun hl hn hk => exact nomatch hk.symm.trans hbare.1
    | run ls m hrun htext =>
      rw [hbare.1] at hrun
      have hnb := hbare.2
      rw [htext] at hnb
      obtain ⟨f, rfl, hitem⟩ := hrun.of_bare R hnb
      rw [Text.unlines_singleton] at htext hnb
      refine ⟨f, ?_, hitem, hnb⟩
      rw [htext]
      have hclean : ∀ l ∈ [Text.rstrip f], '\n' ∉ l := fun l hl hn => by
        rw [List.mem_singleton.mp hl] at hn
        exact hrun.clean f (List.mem_singleton_self f) ((Text.rstrip_prefix f).subset hn)
      have hlines := Text.linesOf_unlines hclean (List.cons_ne_nil (Text.rstrip f) [])
      rwa [Text.unlines_singleton] at hlines
  have hblank : Text.isBlank (Text.rstrip f) = false :=
    Text.not_blank_rstrip (lineKind_not_blank R (by rw [hitem]; exact nofun))
  have hgood : Good R ((opening before h us w.kind).foldl (Parser.step R) (Parser.start layer)) :=
    good_foldl R (good_start R layer) (hs.opening_clean R)
  have hopening : (opening before h us w.kind).foldl (Parser.step R) (Parser.start layer) =
      (lead us w.kind).foldl (Parser.step R) p := by
    unfold opening
    rw [List.foldl_append, hfold]
  have hstep : (parsed R layer (renderBody R false ⟨t, before ++ ⟨h, us ++ [w]⟩ :: after⟩)) =
      ((opening before h us w.kind).foldl (Parser.step R) (Parser.start layer)).proseStep (Text.rstrip f) .text := by
    unfold parsed
    rw [hs.titled_eq R ht, hf, List.foldl_append, List.foldl_cons, List.foldl_nil, hopening,
      step_prose R hmode (lineKind_bare R hitem hnb)]
  have hread : items (Body.groups (parseBody R layer (renderBody R false ⟨t, before ++ ⟨h, us ++ [w]⟩ :: after⟩)).sections) =
      items (Body.groups before ++ Body.groups [⟨h, us⟩]) := by
    show items (Body.groups (Parser.finish (parsed R layer _))) = _
    rw [groups_finish, hstep, Parser.close_prose (by rw [hopening]; exact hmode),
      items_text R hgood (by rw [hopening]; exact hmode) hblank, hopening, hflush, hgroups]
  rw [hread, hs.groups_eq, items_append, items_append, items_section, items_section, List.countP_append]
  have hone : [w].countP (fun u => u.kind == .item) = 1 := by
    rw [List.countP_singleton, hbare.1]
    rfl
  omega

/-! ## The title and the end of the text -/

theorem titled_of {body line : Text} {rest : List Text}
    (hlines : (Text.linesOf (Text.stripChar '\n' body)).dropWhile Text.isBlank = line :: rest)
    (htitle : Text.startsWith "# ".toList line = true) : titled body = (Text.rstrip line, rest) := by
  unfold titled
  rw [hlines]
  exact if_pos htitle

/-- a title line that is only a mark -/
theorem rstrip_title {line : Text} (h : Text.startsWith "# ".toList line = true)
    (hnot : Text.startsWith "# ".toList (Text.rstrip line) = false) : Text.rstrip line = ['#'] := by
  obtain ⟨u, rfl⟩ := List.isPrefixOf_iff_prefix.mp h
  by_cases hu : Text.isBlank u = true
  · exact Text.rstrip_append_blank (t := ['#']) (w := ' ' :: u) hu
  · have hu : Text.isBlank u = false := Bool.eq_false_iff.mpr hu
    rw [Text.rstrip_append_of_ne hu] at hnot
    have hmark : Text.startsWith "# ".toList ("# ".toList ++ Text.rstrip u) = true :=
      List.isPrefixOf_iff_prefix.mpr (List.prefix_append _ _)
    rw [hmark] at hnot
    exact nomatch hnot

/-- such a line is not read as a title again -/
theorem titled_mark (u : Text) : (titled ('#' :: '\n' :: u)).1 = [] := by
  have hprefix : Text.stripChar '\n' ('#' :: '\n' :: u) <+: '#' :: '\n' :: u := List.rdropWhile_prefix _ _
  have hnone : ∀ ls : List Text, (Text.linesOf (Text.stripChar '\n' ('#' :: '\n' :: u))).dropWhile Text.isBlank =
      ['#'] :: ls ∨ (Text.linesOf (Text.stripChar '\n' ('#' :: '\n' :: u))).dropWhile Text.isBlank = [] →
      (titled ('#' :: '\n' :: u)).1 = [] := by
    intro ls h
    unfold titled
    rcases h with h | h
    · rw [h]
      rfl
    · rw [h]
  rcases List.prefix_cons_iff.mp hprefix with hnil | ⟨t, ht, hpre⟩
  · exact hnone [] (Or.inr (by rw [hnil]; rfl))
  · rcases List.prefix_cons_iff.mp hpre with rfl | ⟨v, rfl, -⟩
    · exact hnone [] (Or.inl (by rw [ht]; rfl))
    · refine hnone (Text.linesOf v) (Or.inl ?_)
      rw [ht]
      have hclean : ∀ l ∈ ['#'] :: Text.linesOf v, '\n' ∉ l := fun l hl => by
        rcases List.mem_cons.mp hl with rfl | hl
        · decide
        · exact Text.mem_linesOf_newline hl
      have hsplit := Text.linesOf_unlines hclean (List.cons_ne_nil _ _)
      rw [Text.unlines_cons (Text.linesOf_ne_nil v), Text.unlines_linesOf] at hsplit
      exact congrArg (List.dropWhile Text.isBlank) hsplit

theorem finish_units (p : Parser) : p.finish.flatMap BodySection.units = p.close.allUnits := by
  show ((p.close.sections ++ [p.close.last]).filter _).flatMap BodySection.units = _
  unfold Parser.allUnits
  induction p.close.sections ++ [p.close.last] with
  | nil => rfl
  | cons s ss ih =>
    rw [List.filter_cons]
    split
    · rw [List.flatMap_cons, List.flatMap_cons, ih]
    · next hs =>
      have hnil : s.units = [] := by
        simp only [Bool.or_eq_true, not_or] at hs
        simpa using hs.2
      rw [List.flatMap_cons, hnil, ih]
      rfl

/-- the last unit of a parse is a marker alone exactly when the text ends in one -/
theorem bare_iff (layer body : Text) :
    LastBare R ((parseBody R layer body).sections.flatMap BodySection.units) ↔ EndsBare R (titled body).2 := by
  show LastBare R ((parsed R layer body).finish.flatMap BodySection.units) ↔ _
  rw [finish_units]
  exact ⟨endsBare_of_lastBare R (titled_clean body) layer, fun h => lastBare_of_endsBare R (titled_clean body) h layer⟩

/-- a rendered body under such a line -/
theorem render_mark {ss : List BodySection} (h : ∀ s ∈ ss, ∀ u ∈ s.units, u.text ≠ []) :
    ∃ u, renderBody R false ⟨['#'], ss⟩ = '#' :: '\n' :: u := by
  rw [renderBody_docLines R ⟨[], rfl⟩ h]
  cases docLines ss with
  | nil => exact ⟨[], rfl⟩
  | cons l ls =>
    rw [Text.unlines_cons (List.cons_ne_nil l ls)]
    by_cases hb : Text.isBlank (Text.unlines (l :: ls)) = true
    · have hrest : Text.isBlank ('\n' :: Text.unlines (l :: ls)) = true := by
        show Text.isBlank (['\n'] ++ Text.unlines (l :: ls)) = true
        rw [Text.isBlank_append, hb]
        rfl
      rw [Text.rstrip_append_blank hrest]
      exact ⟨[], rfl⟩
    · have hcons := Text.rstrip_append_of_ne (s := ['#', '\n']) (Bool.eq_false_iff.mpr hb)
      refine ⟨Text.rstrip (Text.unlines (l :: ls)) ++ ['\n'], ?_⟩
      exact congrArg (· ++ ['\n']) hcons

/-- the title and the non-empty sections that are read again make the shape -/
theorem shape_congr {b c : Parsed} (htitle : b.titleLine = c.titleLine) (h : groups b.sections = groups c.sections) :
    shape R b = shape R c := by
  rw [shape_eq, shape_eq, htitle, h]

/-- a title with sections that hold nothing -/
theorem stable_empty {t : Text} (ht : IsTitle t) {ss : List BodySection} (h : ∀ s ∈ ss, s.units = []) (layer : Text) :
    shape R (parseBody R layer (renderBody R false ⟨t, ss⟩)) = shape R ⟨t, ss⟩ := by
  have htitled : titled (renderBody R false ⟨t, ss⟩) = (t, []) := by
    rw [renderBody_docLines R ht.head fun s hs u hu => absurd hu (by rw [h s hs]; exact List.not_mem_nil),
      docLines_empty h, Text.unlines_singleton, ht.stripped]
    have hone := titled_unlines ht (fun _ hl => absurd hl List.not_mem_nil) (List.nil_append [t]).symm ht.not_blank
    rwa [Text.unlines_singleton] at hone
  refine shape_congr R (congrArg Prod.fst htitled) ?_
  rw [groups_empty h]
  show groups (Parser.finish (parsed R layer _)) = _
  rw [groups_finish]
  unfold parsed
  rw [htitled]
  rfl

/-- a body that begins with a title is the same after it was rendered and parsed again, unless its title is
    only a mark or its text ends in a list marker alone -/
theorem stable_iff (layer body : Text) {line : Text} {rest : List Text}
    (hlines : (Text.linesOf (Text.stripChar '\n' body)).dropWhile Text.isBlank = line :: rest)
    (htitle : Text.startsWith "# ".toList line = true) :
    Stable R layer body ↔ Text.startsWith "# ".toList (Text.rstrip line) = true ∧ ¬ EndsBare R rest := by
  have htitled := titled_of hlines htitle
  have hclean : '\n' ∉ line := Text.mem_linesOf_newline (t := Text.stripChar '\n' body)
    ((List.dropWhile_sublist _).subset (by rw [hlines]; exact List.mem_cons_self))
  have hbody : parseBody R layer body = ⟨Text.rstrip line, (parseBody R layer body).sections⟩ :=
    congrArg (Parsed.mk · _) (congrArg Prod.fst htitled)
  have hbare := bare_iff R layer body
  rw [htitled] at hbare
  have hparts := parse_ends R layer body
  have htext : ∀ s ∈ (parseBody R layer body).sections, ∀ u ∈ s.units, u.text ≠ [] := by
    rcases hparts with hall | ⟨before, h, us, w, after, heq, hafter, hw, hh, hends⟩
    · exact fun s hs u hu => absurd hu (by rw [hall s hs]; exact List.not_mem_nil)
    · rw [heq]
      exact Writable.text_ne_nil R ⟨hw, hh, hends, hafter⟩
  unfold Stable
  rw [hbody]
  generalize (parseBody R layer body).sections = ss at *
  cases hmark : Text.startsWith "# ".toList (Text.rstrip line) with
  | false =>
    refine ⟨fun h => ?_, fun h => absurd h.1 Bool.false_ne_true⟩
    obtain ⟨u, hu⟩ := render_mark R htext
    rw [rstrip_title htitle hmark, hu] at h
    have hfirst : (titled ('#' :: '\n' :: u)).1 = ['#'] := congrArg Prod.fst h
    rw [titled_mark] at hfirst
    exact absurd hfirst (List.cons_ne_nil _ _).symm
  | true =>
    have ht : IsTitle (Text.rstrip line) :=
      ⟨hmark, Text.rstrip_rstrip line, fun hn => hclean ((Text.rstrip_prefix line).subset hn)⟩
    rcases hparts with hall | ⟨before, h, us, w, after, rfl, hafter, hw, hh, hends⟩
    · refine ⟨fun _ => ⟨rfl, fun he => ?_⟩, fun _ => stable_empty R ht hall layer⟩
      obtain ⟨init, u, hunits, -⟩ := hbare.mpr he
      rw [List.flatMap_eq_nil_iff.mpr hall] at hunits
      exact List.concat_ne_nil u init hunits.symm
    · have hs : Writable R before h us w after := ⟨hw, hh, hends, hafter⟩
      have hlast : LastBare R ((before ++ ⟨h, us ++ [w]⟩ :: after).flatMap BodySection.units) ↔ Bare R w.kind w.text := by
        rw [List.flatMap_append, List.flatMap_cons, List.flatMap_eq_nil_iff.mpr hafter, List.append_nil,
          ← List.append_assoc, lastBare_concat]
      rw [← hbare, hlast]
      refine ⟨fun h => ⟨rfl, fun hb => ?_⟩, fun h => ?_⟩
      · exact absurd (items_shape R h) (Nat.ne_of_lt (hs.reparse_bare R hb ht layer))
      · exact shape_congr R (congrArg Prod.fst (hs.titled_eq R ht)) (hs.reparse R h.2 ht layer)

end

theorem stable_iff_fence : Stable ascii [] "# T\n\n- a\n  b\n\n```\n- x".toList ↔
    Text.startsWith "# ".toList (Text.rstrip "# T".toList) = true ∧
      ¬ EndsBare ascii [[], "- a".toList, "  b".toList, [], "```".toList, "- x".toList] :=
  stable_iff ascii [] "# T\n\n- a\n  b\n\n```\n- x".toList (by decide +kernel) (by decide +kernel)

/-- a list marker at the end of the text comes back as a paragraph -/
theorem not_stable : ¬ Stable ascii [] "# T\n\n- ".toList := by
  unfold Stable
  decide +kernel

end Body
