import Stigmergy.Kernel.Body

/-!
# Units that keep together

Lines that keep together when they are parsed once keep together whenever they are parsed: the parser
closes only units that it would read back as one.

* `headingLine_mono`, `itemLine_mono`   a line is a heading or an item by its front;
* `Run`, `Solid`     lines that keep together, and the units they make;
* `good_step`        every unit the parser closes is solid.
-/

set_option linter.unusedSectionVars false

namespace Body

section
variable (R : Runtime)

/-! ## lines and their fronts -/

theorem startsWith_mono {p s t : Text} (hst : s <+: t) (h : Text.startsWith p s = true) :
    Text.startsWith p t = true :=
  List.isPrefixOf_iff_prefix.mpr ((List.isPrefixOf_iff_prefix.mp h).trans hst)

theorem not_blank_of_startsWith {p t : Text} (hp : Text.isBlank p = false)
    (h : Text.startsWith p t = true) : Text.isBlank t = false := by
  obtain ⟨s, rfl⟩ := List.isPrefixOf_iff_prefix.mp h
  rw [Text.isBlank_append, hp]
  rfl

theorem not_blank_of_strip {t : Text} (h : Text.isBlank (Text.strip t) = false) :
    Text.isBlank t = false := by
  cases hb : Text.isBlank t with
  | false => rfl
  | true =>
    have hall : Text.lstrip t = [] := List.dropWhile_eq_nil_iff.mpr (Text.isBlank_iff.mp hb)
    unfold Text.strip at h
    rw [hall, Text.rstrip_nil] at h
    exact Bool.noConfusion h

theorem not_blank_of_fenceLine {l : Text} (h : fenceLine l = true) : Text.isBlank l = false :=
  not_blank_of_strip (not_blank_of_startsWith rfl h)

theorem fenceLine_rstrip (l : Text) : fenceLine (Text.rstrip l) = fenceLine l := by
  unfold fenceLine
  rw [Text.strip_rstrip]

theorem takeWhile_append_cons {p : Char → Bool} {s : Text} {c : Char} (t : Text)
    (hs : ∀ d ∈ s, p d = true) (hc : p c = false) :
    (s ++ c :: t).takeWhile p = s ∧ (s ++ c :: t).dropWhile p = c :: t := by
  have hneg : ¬ p c = true := by rw [hc]; exact Bool.false_ne_true
  constructor
  · rw [List.takeWhile_append_of_pos hs, List.takeWhile_cons_of_neg hneg, List.append_nil]
  · rw [List.dropWhile_append_of_pos hs, List.dropWhile_cons_of_neg hneg]

theorem dropWhile_eq_cons {p : Char → Bool} {t u : Text} {c : Char} (h : t.dropWhile p = c :: u) :
    p c = false := by
  have hne : t.dropWhile p ≠ [] := by rw [h]; exact List.cons_ne_nil c u
  have hhead := List.head_dropWhile_not p hne
  simp only [h, List.head_cons] at hhead
  exact hhead

/-- a text whose front of `p` is followed by `d` -/
theorem split_takeWhile {p : Char → Bool} {t u : Text} {d : Char}
    (h : t.drop (t.takeWhile p).length = d :: u) : t = t.takeWhile p ++ d :: u ∧ p d = false := by
  have happ : t.takeWhile p ++ t.dropWhile p = t := List.takeWhile_append_dropWhile
  have hdrop : t.drop (t.takeWhile p).length = t.dropWhile p := by
    nth_rewrite 2 [← happ]
    rw [List.drop_left]
  rw [hdrop] at h
  refine ⟨?_, dropWhile_eq_cons h⟩
  rw [← h]
  exact happ.symm

/-- the shape of a heading: hashes, white space, and more -/
theorem headingLine_iff {l : Text} : headingLine l = true ↔ ∃ n c ws x,
    2 ≤ n ∧ n ≤ 6 ∧ l = List.replicate n '#' ++ c :: (ws ++ x) ∧ Text.isSpace c = true ∧
      Text.isBlank ws = true ∧ ∃ d y, x = d :: y ∧ Text.isSpace d = false := by
  unfold headingLine
  simp only [Bool.and_eq_true, decide_eq_true_eq, Bool.not_eq_true', List.isEmpty_eq_false_iff]
  constructor
  · rintro ⟨⟨⟨h2, h6⟩, hsp⟩, hx⟩
    obtain ⟨c, ws, hws⟩ := List.exists_cons_of_ne_nil hsp
    obtain ⟨d, y, hy⟩ := List.exists_cons_of_ne_nil hx
    have hspaces : ∀ e ∈ c :: ws, Text.isSpace e = true := fun e he =>
      List.mem_takeWhile_imp (by rw [hws]; exact he)
    have hhash : l.takeWhile (· == '#') =
        List.replicate (l.takeWhile (· == '#')).length '#' := by
      refine List.eq_replicate_iff.mpr ⟨rfl, fun e he => ?_⟩
      have heq := List.mem_takeWhile_imp (p := fun c => c == '#') he
      exact beq_iff_eq.mp heq
    refine ⟨_, c, ws, d :: y, h2, h6, ?_, hspaces c List.mem_cons_self,
      Text.isBlank_iff.mpr fun e he => hspaces e (List.mem_cons_of_mem c he), d, y, rfl,
      dropWhile_eq_cons hy⟩
    have hrest : l.dropWhile (· == '#') = c :: ws ++ d :: y := by
      rw [← hws, ← hy]
      exact List.takeWhile_append_dropWhile.symm
    calc l = l.takeWhile (· == '#') ++ l.dropWhile (· == '#') :=
          List.takeWhile_append_dropWhile.symm
      _ = List.replicate (l.takeWhile (· == '#')).length '#' ++ (c :: ws ++ d :: y) := by
          rw [hrest, ← hhash]
  · rintro ⟨n, c, ws, x, h2, h6, rfl, hc, hws, d, y, rfl, hd⟩
    have hc' : (c == '#') = false := by
      rw [beq_eq_false_iff_ne]
      rintro rfl
      exact Bool.noConfusion hc
    have hsplit := takeWhile_append_cons (p := (· == '#')) (s := List.replicate n '#')
      (ws ++ d :: y) (fun e he => beq_iff_eq.mpr (List.eq_of_mem_replicate he)) hc'
    have hspaces := takeWhile_append_cons (p := Text.isSpace) (s := c :: ws) y (fun e he => by
      rcases List.mem_cons.mp he with rfl | he
      · exact hc
      · exact Text.isBlank_iff.mp hws e he) hd
    rw [hsplit.1, hsplit.2, List.length_replicate]
    have hcw : c :: (ws ++ d :: y) = c :: ws ++ d :: y := rfl
    rw [hcw, hspaces.1, hspaces.2]
    exact ⟨⟨⟨h2, h6⟩, List.cons_ne_nil c ws⟩, List.cons_ne_nil d y⟩

theorem headingLine_mono {s t : Text} (hst : s <+: t) (h : headingLine s = true) :
    headingLine t = true := by
  obtain ⟨u, rfl⟩ := hst
  obtain ⟨n, c, ws, x, h2, h6, rfl, hc, hws, d, y, rfl, hd⟩ := headingLine_iff.mp h
  exact headingLine_iff.mpr ⟨n, c, ws, d :: y ++ u, h2, h6, by simp, hc, hws, d, y ++ u, rfl, hd⟩

theorem headingLine_rstrip {l : Text} (h : headingLine l = true) :
    headingLine (Text.rstrip l) = true := by
  obtain ⟨n, c, ws, x, h2, h6, rfl, hc, hws, d, y, rfl, hd⟩ := headingLine_iff.mp h
  refine headingLine_iff.mpr
    ⟨n, c, ws, d :: Text.rstrip y, h2, h6, ?_, hc, hws, d, Text.rstrip y, rfl, hd⟩
  have happ : List.replicate n '#' ++ c :: (ws ++ d :: y) =
      (List.replicate n '#' ++ c :: ws) ++ (d :: y) := by simp
  rw [happ, Text.rstrip_append_of_ne (Text.not_blank_cons hd y), Text.rstrip_cons_of_not_space hd]
  simp

theorem not_blank_of_headingLine {l : Text} (h : headingLine l = true) : Text.isBlank l = false := by
  obtain ⟨n, c, ws, x, h2, h6, rfl, hc, hws, d, y, rfl, hd⟩ := headingLine_iff.mp h
  have happ : List.replicate n '#' ++ c :: (ws ++ d :: y) =
      (List.replicate n '#' ++ c :: ws) ++ (d :: y) := by simp
  rw [happ, Text.isBlank_append, Text.not_blank_cons hd y, Bool.and_false]

theorem blanks_isSome {k : ℕ} {t : Text} :
    (blanks k t).isSome = true ↔ ∃ c u, t = c :: u ∧ Text.isSpace c = true := by
  unfold blanks
  cases t with
  | nil => simp
  | cons c u =>
    cases hc : Text.isSpace c with
    | true => simp [hc]
    | false => simp [hc]

theorem blanks_mono {k : ℕ} {t : Text} (h : (blanks k t).isSome = true) (u : Text) :
    (blanks k (t ++ u)).isSome = true := by
  obtain ⟨c, v, rfl, hc⟩ := blanks_isSome.mp h
  exact blanks_isSome.mpr ⟨c, v ++ u, rfl, hc⟩

/-- a numbered marker -/
theorem itemPrefix_digits {a d : Char} {t ds rest : Text}
    (ha : (a == '-' || a == '*' || a == '+') = false) (ht : a :: t = ds ++ d :: rest)
    (hds : ∀ c ∈ ds, R.isDecimal c = true) (hd : R.isDecimal d = false) :
    itemPrefix R (a :: t) =
      if 1 ≤ ds.length && ds.length ≤ 9 && (d == '.' || d == ')') then blanks (ds.length + 1) rest
      else none := by
  unfold itemPrefix
  simp only [ha, Bool.false_eq_true, if_false]
  rw [ht, (takeWhile_append_cons rest hds hd).1, List.drop_left]

theorem itemLine_mono {s t : Text} (hst : s <+: t) (h : itemLine R s = true) :
    itemLine R t = true := by
  obtain ⟨u, rfl⟩ := hst
  cases s with
  | nil => exact Bool.noConfusion h
  | cons a s =>
    unfold itemLine at h ⊢
    cases ha : (a == '-' || a == '*' || a == '+') with
    | true =>
      rw [List.cons_append]
      simp only [itemPrefix, ha, if_true] at h ⊢
      exact blanks_mono h u
    | false =>
      cases hd : (a :: s).drop ((a :: s).takeWhile R.isDecimal).length with
      | nil =>
        simp only [itemPrefix, ha, Bool.false_eq_true, if_false, hd] at h
        exact Bool.noConfusion h
      | cons d rest =>
        obtain ⟨hsplit, hdec⟩ := split_takeWhile hd
        have hds : ∀ c ∈ (a :: s).takeWhile R.isDecimal, R.isDecimal c = true := fun c hc =>
          List.mem_takeWhile_imp hc
        have hsplit' : a :: (s ++ u) = (a :: s).takeWhile R.isDecimal ++ d :: (rest ++ u) :=
          calc a :: (s ++ u) = ((a :: s).takeWhile R.isDecimal ++ d :: rest) ++ u :=
                congrArg (· ++ u) hsplit
            _ = (a :: s).takeWhile R.isDecimal ++ d :: (rest ++ u) := List.append_assoc _ _ _
        rw [itemPrefix_digits R ha hsplit hds hdec] at h
        rw [List.cons_append, itemPrefix_digits R ha hsplit' hds hdec]
        split at h
        · rename_i hcond
          rw [if_pos hcond]
          exact blanks_mono h u
        · exact Bool.noConfusion h

theorem lineKind_not_blank {l : Text} (h : lineKind R l ≠ .blank) : Text.isBlank l = false := by
  unfold lineKind at h
  split at h
  · rename_i hs
    exact not_blank_of_startsWith rfl hs
  · split at h
    · rename_i hf
      exact not_blank_of_fenceLine hf
    · split at h
      · rename_i hh
        exact not_blank_of_headingLine hh
      · split at h
        · exact absurd rfl h
        · rename_i hb
          exact Bool.eq_false_iff.mpr hb

theorem startsWith_rstrip {p l : Text} (hp : Text.rstrip p = p) :
    Text.startsWith p (Text.rstrip l) = Text.startsWith p l := by
  refine Bool.eq_iff_iff.mpr ⟨startsWith_mono (Text.rstrip_prefix l), fun h => ?_⟩
  obtain ⟨s, rfl⟩ := List.isPrefixOf_iff_prefix.mp h
  refine List.isPrefixOf_iff_prefix.mpr ?_
  cases hs : Text.isBlank s with
  | true =>
    simp only [Text.rstrip_append_blank hs, hp, List.prefix_rfl]
  | false =>
    rw [Text.rstrip_append_of_ne hs]
    exact List.prefix_append p _

theorem isBlank_rstrip (l : Text) : Text.isBlank (Text.rstrip l) = Text.isBlank l := by
  obtain ⟨w, hw, hl⟩ := Text.rstrip_append l
  nth_rewrite 2 [hl]
  rw [Text.isBlank_append, hw, Bool.and_true]

/-- white space at its end changes no line, but for an item that is nothing but its marker -/
theorem lineKind_rstrip {l : Text} (h : lineKind R l = .item → itemLine R (Text.rstrip l) = true) :
    lineKind R (Text.rstrip l) = lineKind R l := by
  have hheading : headingLine (Text.rstrip l) = headingLine l :=
    Bool.eq_iff_iff.mpr ⟨headingLine_mono (Text.rstrip_prefix l), headingLine_rstrip⟩
  have hstart : Text.startsWith CALLOUT_START (Text.rstrip l) = Text.startsWith CALLOUT_START l :=
    startsWith_rstrip rfl
  unfold lineKind at h ⊢
  rw [hstart, fenceLine_rstrip, hheading, isBlank_rstrip]
  cases hi : itemLine R l with
  | false =>
    have hr : itemLine R (Text.rstrip l) = false := Bool.eq_false_iff.mpr fun hr => by
      rw [itemLine_mono R (Text.rstrip_prefix l) hr] at hi
      exact Bool.noConfusion hi
    rw [hr]
  | true =>
    rw [hi] at h
    split
    · rfl
    · split
      · rfl
      · split
        · rfl
        · split
          · rfl
          · rename_i hs hf hh hb
            rw [if_neg hs, if_neg hf, if_neg hh, if_neg hb] at h
            rw [h rfl]

/-! ## units that keep together -/

/-- nothing is open -/
def Parser.Fresh (p : Parser) : Prop := p.current = [] ∧ p.kind = none ∧ p.mode = .prose

/-- the lines of one open unit: from nothing open they lead to `k` and `m` and close no unit -/
structure Run (ls : List Text) (k : Kind) (m : Mode) : Prop where
  opens : ∀ p : Parser, p.Fresh →
    ls.foldl (Parser.step R) p = { p with current := ls, kind := some k, mode := m }
  clean : ∀ l ∈ ls, '\n' ∉ l
  head : ∃ l rest, ls = l :: rest ∧ Text.isBlank l = false ∧ (k = .item → lineKind R l = .item)
  last : m = .prose → ∃ init l, ls = init ++ [l] ∧ Text.isBlank l = false
  callout : m = .callout ↔ k = .callout

inductive Solid (u : BodyUnit) : Prop where
  | prose (ls : List Text) (h : Run R ls u.kind .prose) (ht : u.text = Text.unlines ls)
  | callout (init : List Text) (l : Text) (h : Run R init .callout .callout)
      (hl : Text.startsWith CALLOUT_END l = true) (hn : '\n' ∉ l) (hk : u.kind = .callout)
      (ht : u.text = Text.unlines (init ++ [l]))

/-- a heading as the parser keeps it -/
structure IsHeading (h : Text) : Prop where
  kind : lineKind R h = .heading
  stripped : Text.rstrip h = h
  clean : '\n' ∉ h

theorem flush_fresh {p : Parser} (h : p.Fresh) : p.flush = p := by
  obtain ⟨hc, hk, hm⟩ := h
  cases p with
  | mk layer sections heading units current kind mode =>
    simp only at hc hk
    subst hc hk
    rfl

theorem Run.ne_nil {ls : List Text} {k : Kind} {m : Mode} (h : Run R ls k m) : ls ≠ [] := by
  obtain ⟨l, rest, rfl, -, -⟩ := h.head
  exact List.cons_ne_nil l rest

theorem stripChar_unlines {l m : Text} {init rest : List Text} (hlm : l :: rest = init ++ [m])
    (hl : Text.isBlank l = false) (hm : Text.isBlank m = false)
    (hclean : ∀ a ∈ l :: rest, '\n' ∉ a) :
    Text.stripChar '\n' (Text.unlines (l :: rest)) = Text.unlines (l :: rest) := by
  apply Text.stripChar_eq_self
  · rw [Text.head?_unlines_cons (Text.ne_nil_of_not_blank hl)]
    intro h
    exact hclean l List.mem_cons_self (List.mem_of_head? h)
  · rw [hlm, Text.getLast?_unlines_append (Text.ne_nil_of_not_blank hm)]
    intro h
    refine hclean m ?_ (List.mem_of_getLast? h)
    rw [hlm]
    exact List.mem_append_right init (List.mem_singleton_self m)

/-- closing a run in prose makes one unit of its lines -/
theorem flush_run {p : Parser} {ls : List Text} {k : Kind} (h : Run R ls k .prose) :
    Parser.flush { p with current := ls, kind := some k, mode := .prose } =
      { p with
        units := p.units ++ [⟨k, Text.unlines ls, p.layer⟩]
        current := []
        kind := none
        mode := .prose } := by
  obtain ⟨l, rest, rfl, hl, -⟩ := h.head
  obtain ⟨init, m, hlm, hm⟩ := h.last rfl
  have hany : ((l :: rest).any fun line => !Text.isBlank line) = true := by
    rw [List.any_cons, hl]
    rfl
  unfold Parser.flush
  simp only [hany, if_true, Option.getD_some]
  rw [stripChar_unlines hlm hl hm h.clean]

theorem solid_run {ls : List Text} {k : Kind} (h : Run R ls k .prose) (layer : Text) :
    Solid R ⟨k, Text.unlines ls, layer⟩ := Solid.prose ls h rfl

/-- one more line of a run -/
theorem Run.snoc {ls : List Text} {k : Kind} {m m' : Mode} {l : Text} (h : Run R ls k m)
    (hl : '\n' ∉ l)
    (hstep : ∀ p : Parser, Parser.step R { p with current := ls, kind := some k, mode := m } l =
      { p with current := ls ++ [l], kind := some k, mode := m' })
    (hlast : m' = .prose → Text.isBlank l = false) (hcall : m' = .callout ↔ k = .callout) :
    Run R (ls ++ [l]) k m' where
  opens := fun p hp => by
    rw [List.foldl_append, h.opens p hp]
    exact hstep p
  clean := fun a ha => by
    rcases List.mem_append.mp ha with ha | ha
    · exact h.clean a ha
    · rw [List.mem_singleton.mp ha]
      exact hl
  head := by
    obtain ⟨b, rest, rfl, hb, hk⟩ := h.head
    exact ⟨b, rest ++ [l], rfl, hb, hk⟩
  last := fun hm => ⟨ls, l, rfl, hlast hm⟩
  callout := hcall

/-- the first line of a run -/
theorem Run.single {k : Kind} {m : Mode} {l : Text} (hl : '\n' ∉ l) (hb : Text.isBlank l = false)
    (hstep : ∀ p : Parser, p.Fresh →
      Parser.step R p l = { p with current := [l], kind := some k, mode := m })
    (hitem : k = .item → lineKind R l = .item) (hcall : m = .callout ↔ k = .callout) :
    Run R [l] k m where
  opens := hstep
  clean := fun a ha => by
    rw [List.mem_singleton.mp ha]
    exact hl
  head := ⟨l, [], rfl, hb, hitem⟩
  last := fun _ => ⟨[], l, rfl, hb⟩
  callout := hcall

theorem step_prose {p : Parser} (hm : p.mode = .prose) {l : Text} {k : LineKind}
    (hk : lineKind R l = k) : Parser.step R p l = p.proseStep l k := by
  unfold Parser.step
  rw [hm]
  exact congrArg (p.proseStep l) hk

/-- a run begins at a line that a fresh parser takes in -/
theorem run_of_kind {l : Text} (hl : '\n' ∉ l) {k : Kind} {m : Mode}
    (h : lineKind R l = .calloutStart ∧ k = .callout ∧ m = .callout ∨
      lineKind R l = .fence ∧ k = .paragraph ∧ m = .fence ∨
      lineKind R l = .item ∧ k = .item ∧ m = .prose ∨
      lineKind R l = .text ∧ k = .paragraph ∧ m = .prose) : Run R [l] k m := by
  have hstep : ∀ p : Parser, p.Fresh →
      Parser.step R p l = { p with current := [l], kind := some k, mode := m } := by
    intro p hp
    rcases h with ⟨hk, rfl, rfl⟩ | ⟨hk, rfl, rfl⟩ | ⟨hk, rfl, rfl⟩ | ⟨hk, rfl, rfl⟩
    · rw [step_prose R hp.2.2 hk, Parser.proseStep, flush_fresh hp]
    · rw [step_prose R hp.2.2 hk, Parser.proseStep, flush_fresh hp, hp.2.1, if_neg nofun]
    · rw [step_prose R hp.2.2 hk, Parser.proseStep, flush_fresh hp, ← hp.2.2]
    · rw [step_prose R hp.2.2 hk, Parser.proseStep, hp.1, ← hp.2.2]
      rfl
  refine Run.single R hl (lineKind_not_blank R ?_) hstep ?_ ?_
  · rcases h with ⟨hk, -⟩ | ⟨hk, -⟩ | ⟨hk, -⟩ | ⟨hk, -⟩ <;> rw [hk] <;> exact nofun
  · rintro rfl
    rcases h with ⟨-, hk, -⟩ | ⟨-, hk, -⟩ | ⟨hk, -, -⟩ | ⟨-, hk, -⟩
    · exact nomatch hk
    · exact nomatch hk
    · exact hk
    · exact nomatch hk
  · rcases h with ⟨-, rfl, rfl⟩ | ⟨-, rfl, rfl⟩ | ⟨-, rfl, rfl⟩ | ⟨-, rfl, rfl⟩ <;> simp

/-! ## what the parser keeps -/

/-- every unit is solid, every heading a heading, and what is open keeps together -/
structure Good (p : Parser) : Prop where
  opened : p.Fresh ∨ ∃ k, p.kind = some k ∧ Run R p.current k p.mode
  units : ∀ u ∈ p.units, Solid R u
  sections : ∀ s ∈ p.sections, ∀ u ∈ s.units, Solid R u
  heading : ∀ h, p.heading = some h → IsHeading R h
  headings : ∀ s ∈ p.sections, ∀ h, s.heading = some h → IsHeading R h

theorem Good.fresh_flush {p : Parser} (h : Good R p) (hm : p.mode = .prose) :
    p.flush.Fresh ∧ Good R p.flush := by
  rcases h.opened with hf | ⟨k, hk, hrun⟩
  · rw [flush_fresh hf]
    exact ⟨hf, h⟩
  · rw [hm] at hrun
    have hp : p = { p with current := p.current, kind := some k, mode := .prose } := by
      rw [← hk, ← hm]
    have hflush := flush_run R (p := p) hrun
    rw [← hp] at hflush
    rw [hflush]
    refine ⟨⟨rfl, rfl, rfl⟩, Or.inl ⟨rfl, rfl, rfl⟩, ?_, h.sections, h.heading, h.headings⟩
    intro u hu
    rcases List.mem_append.mp hu with hu | hu
    · exact h.units u hu
    · rw [List.mem_singleton.mp hu]
      exact solid_run R hrun p.layer

/-- a parser with a run open -/
theorem Good.open_run {p : Parser} (h : Good R p) {ls : List Text} {k : Kind} {m : Mode}
    (hrun : Run R ls k m) : Good R { p with current := ls, kind := some k, mode := m } where
  opened := Or.inr ⟨k, rfl, hrun⟩
  units := h.units
  sections := h.sections
  heading := h.heading
  headings := h.headings

theorem lineKind_heading {l : Text} : lineKind R l = .heading ↔
    Text.startsWith CALLOUT_START l = false ∧ fenceLine l = false ∧ headingLine l = true := by
  unfold lineKind
  cases Text.startsWith CALLOUT_START l with
  | true => simp
  | false =>
    cases fenceLine l with
    | true => simp
    | false =>
      cases headingLine l with
      | true => simp
      | false =>
        simp only [Bool.false_eq_true, if_false, and_false, iff_false]
        split
        · exact nofun
        · split <;> exact nofun

theorem isHeading_rstrip {l : Text} (hl : '\n' ∉ l) (hk : lineKind R l = .heading) :
    IsHeading R (Text.rstrip l) := by
  obtain ⟨hs, hf, hh⟩ := (lineKind_heading R).mp hk
  refine ⟨(lineKind_heading R).mpr ⟨?_, ?_, headingLine_rstrip hh⟩, Text.rstrip_rstrip l, ?_⟩
  · refine Bool.eq_false_iff.mpr fun h => ?_
    rw [startsWith_mono (Text.rstrip_prefix l) h] at hs
    exact Bool.noConfusion hs
  · rw [fenceLine_rstrip, hf]
  · exact fun h => hl ((Text.rstrip_prefix l).subset h)

theorem good_step_prose {p : Parser} (h : Good R p) (hm : p.mode = .prose) {l : Text}
    (hl : '\n' ∉ l) : Good R (Parser.step R p l) := by
  obtain ⟨hfresh, hgood⟩ := h.fresh_flush R hm
  cases hk : lineKind R l with
  | calloutStart =>
    rw [step_prose R hm hk]
    exact hgood.open_run R (run_of_kind R hl (Or.inl ⟨hk, rfl, rfl⟩))
  | fence =>
    rw [step_prose R hm hk, Parser.proseStep]
    by_cases hi : p.kind = some .item
    · rw [if_pos hi]
      rcases h.opened with hf | ⟨k, hpk, hrun⟩
      · rw [hf.2.1] at hi
        exact nomatch hi
      · obtain rfl : Kind.item = k := Option.some.inj (hi.symm.trans hpk)
        rw [hm] at hrun
        have hnext : Run R (p.current ++ [l]) .item .fence := by
          refine hrun.snoc R hl (fun q => ?_) nofun (by simp)
          rw [step_prose R rfl hk, Parser.proseStep, if_pos rfl]
        have hp := h.open_run R hnext
        rwa [← hi] at hp
    · rw [if_neg hi]
      exact hgood.open_run R (run_of_kind R hl (Or.inr (Or.inl ⟨hk, rfl, rfl⟩)))
  | heading =>
    rw [step_prose R hm hk]
    refine ⟨Or.inl hfresh, fun u hu => absurd hu List.not_mem_nil, ?_, ?_, ?_⟩
    · intro s hs
      rcases List.mem_append.mp hs with hs | hs
      · exact h.sections s hs
      · rw [List.mem_singleton.mp hs]
        exact hgood.units
    · intro a ha
      rw [← Option.some.inj ha]
      exact isHeading_rstrip R hl hk
    · intro s hs
      rcases List.mem_append.mp hs with hs | hs
      · exact h.headings s hs
      · rw [List.mem_singleton.mp hs]
        exact h.heading
  | blank =>
    rw [step_prose R hm hk]
    exact hgood
  | item =>
    rw [step_prose R hm hk]
    have hp := hgood.open_run R (run_of_kind R hl (Or.inr (Or.inr (Or.inl ⟨hk, rfl, rfl⟩))))
    rwa [← hfresh.2.2] at hp
  | text =>
    rw [step_prose R hm hk, Parser.proseStep]
    rcases h.opened with hf | ⟨k, hpk, hrun⟩
    · have hp := h.open_run R (run_of_kind R hl (Or.inr (Or.inr (Or.inr ⟨hk, rfl, rfl⟩))))
      rw [← hm] at hp
      rw [hf.1]
      exact hp
    · rw [hm] at hrun
      have hne : p.current.isEmpty = false := by
        simpa using hrun.ne_nil R
      have hnext : Run R (p.current ++ [l]) k .prose := by
        refine hrun.snoc R hl (fun q => ?_) (fun _ => lineKind_not_blank R ?_) hrun.callout
        · rw [step_prose R rfl hk, Parser.proseStep]
          simp only [hne]
          rfl
        · rw [hk]; exact nofun
      have hp := h.open_run R hnext
      rw [← hpk, ← hm] at hp
      rw [hne, if_neg Bool.false_ne_true]
      exact hp

theorem good_step {p : Parser} (h : Good R p) {l : Text} (hl : '\n' ∉ l) :
    Good R (Parser.step R p l) := by
  cases hm : p.mode with
  | prose => exact good_step_prose R h hm hl
  | fence =>
    rcases h.opened with hf | ⟨k, hk, hrun⟩
    · rw [hf.2.2] at hm
      exact nomatch hm
    · rw [hm] at hrun
      have hk' : k ≠ .callout := fun e => nomatch hrun.callout.mpr e
      have hnext : Run R (p.current ++ [l]) k (if fenceLine l then .prose else .fence) := by
        refine hrun.snoc R hl (fun q => rfl) (fun he => ?_) ⟨fun he => ?_, fun e => absurd e hk'⟩
        · split at he
          · rename_i hfence
            exact not_blank_of_fenceLine hfence
          · exact nomatch he
        · split at he <;> exact nomatch he
      have hp := h.open_run R hnext
      rw [← hk] at hp
      unfold Parser.step
      rw [hm]
      exact hp
  | callout =>
    rcases h.opened with hf | ⟨k, hk, hrun⟩
    · rw [hf.2.2] at hm
      exact nomatch hm
    · rw [hm] at hrun
      obtain rfl : k = .callout := hrun.callout.mp rfl
      unfold Parser.step
      rw [hm]
      by_cases hend : Text.startsWith CALLOUT_END l = true
      · simp only [hend, if_true]
        refine ⟨Or.inl ⟨rfl, rfl, rfl⟩, ?_, h.sections, h.heading, h.headings⟩
        intro u hu
        rcases List.mem_append.mp hu with hu | hu
        · exact h.units u hu
        · rw [List.mem_singleton.mp hu]
          exact Solid.callout p.current l hrun hend hl rfl rfl
      · simp only [hend, if_false, Bool.false_eq_true]
        have hnext : Run R (p.current ++ [l]) .callout .callout := by
          refine hrun.snoc R hl (fun q => ?_) nofun (by simp)
          simp [Parser.step, hend]
        have hp := h.open_run R hnext
        rw [← hk] at hp
        exact hp

end

end Body
