import Stigmergy.Lib.Text

/-!
# Lines with their ends

The lines of a text as `str.splitlines(keepends=True)` cuts it.

* `flatten_keptLines`   the lines together are the text;
* `FirstLine`           where the first line stops (`keptLines_append_of_firstLine`, `keptLines_eq_cons`);
* `keptLines_infix`     lines in a row, as a text of their own, are the same lines;
* `keptLines_append`    a text that ends a line, and what follows.
-/

set_option linter.unusedSectionVars false

namespace Text

/-- `str.splitlines(keepends=True)` -/
def keptLines : Text → List Text
  | [] => []
  | '\r' :: '\n' :: t => ['\r', '\n'] :: keptLines t
  | c :: t =>
    if isLineEnd c then [c] :: keptLines t
    else
      match keptLines t with
      | [] => [[c]]
      | l :: ls => (c :: l) :: ls

theorem flatten_keptLines (t : Text) : (keptLines t).flatten = t := by
  fun_induction keptLines t with
  | case1 => rfl
  | case2 t ih => rw [List.flatten_cons, ih]; rfl
  | case3 c t hc hend ih => rw [List.flatten_cons, ih]; rfl
  | case4 c t hc hend hnil ih =>
    rw [hnil] at ih
    rw [← ih]
    rfl
  | case5 c t hc hend l ls hcons ih =>
    rw [hcons] at ih
    rw [← ih]
    rfl

theorem ne_nil_of_mem_keptLines {t l : Text} (h : l ∈ keptLines t) : l ≠ [] := by
  fun_induction keptLines t with
  | case1 => exact nomatch h
  | case2 t ih =>
    rcases List.mem_cons.mp h with rfl | h
    · exact List.cons_ne_nil _ _
    · exact ih h
  | case3 c t hc hend ih =>
    rcases List.mem_cons.mp h with rfl | h
    · exact List.cons_ne_nil _ _
    · exact ih h
  | case4 c t hc hend hnil ih =>
    rw [List.mem_singleton.mp h]
    exact List.cons_ne_nil _ _
  | case5 c t hc hend l' ls hcons ih =>
    rcases List.mem_cons.mp h with rfl | h
    · exact List.cons_ne_nil _ _
    · exact ih (hcons ▸ List.mem_cons_of_mem l' h)

/-- a line, with what may follow it -/
def FirstLine (l t : Text) : Prop :=
  ∃ u : Text, (∀ c ∈ u, isLineEnd c = false) ∧
    ((∃ c, isLineEnd c = true ∧ l = u ++ [c] ∧ (c = '\r' → t.head? ≠ some '\n')) ∨
      l = u ++ ['\r', '\n'] ∨ l = u ∧ u ≠ [] ∧ t = [])

theorem keptLines_cons {c : Char} {t : Text} (hc : isLineEnd c = false) :
    keptLines (c :: t) = match keptLines t with
      | [] => [[c]]
      | l :: ls => (c :: l) :: ls := by
  have hr : ∀ t', c = '\r' → t = '\n' :: t' → False := by
    rintro t' rfl
    exact absurd hc (by decide)
  rw [keptLines, if_neg (Bool.eq_false_iff.mp hc)]
  exact hr

theorem keptLines_append_of_firstLine {l t : Text} (h : FirstLine l t) : keptLines (l ++ t) = l :: keptLines t := by
  obtain ⟨u, hu, h⟩ := h
  induction u generalizing l with
  | nil =>
    rcases h with ⟨c, hc, rfl, hr⟩ | rfl | ⟨_, hne, _⟩
    · have hnot : ∀ t', c = '\r' → t = '\n' :: t' → False := by
        rintro t' hcr rfl
        exact hr hcr rfl
      show keptLines (c :: t) = _
      rw [keptLines, if_pos hc]
      · rfl
      · exact hnot
    · show keptLines ('\r' :: '\n' :: t) = _
      rw [keptLines]
      rfl
    · exact absurd rfl hne
  | cons d u ih =>
    have hd := hu d List.mem_cons_self
    have hu := fun c hc => hu c (List.mem_cons_of_mem d hc)
    rcases h with ⟨c, hc, rfl, hr⟩ | rfl | ⟨rfl, _, rfl⟩
    · rw [List.cons_append, List.cons_append, keptLines_cons hd, ih hu (Or.inl ⟨c, hc, rfl, hr⟩)]
    · rw [List.cons_append, List.cons_append, keptLines_cons hd, ih hu (Or.inr (Or.inl rfl))]
    · cases u with
      | nil =>
        rw [List.append_nil, keptLines_cons hd]
        rfl
      | cons e u =>
        rw [List.cons_append, keptLines_cons hd, ih hu (Or.inr (Or.inr ⟨rfl, List.cons_ne_nil e u, rfl⟩))]

theorem keptLines_eq_cons {s l : Text} {ls : List Text} (h : keptLines s = l :: ls) :
    ∃ t, s = l ++ t ∧ FirstLine l t ∧ keptLines t = ls := by
  fun_induction keptLines s generalizing l ls with
  | case1 => exact nomatch h
  | case2 t ih =>
    obtain ⟨rfl, rfl⟩ := List.cons_eq_cons.mp h
    exact ⟨t, rfl, ⟨[], fun c hc => (nomatch hc), Or.inr (Or.inl rfl)⟩, rfl⟩
  | case3 c t hc hend ih =>
    obtain ⟨rfl, rfl⟩ := List.cons_eq_cons.mp h
    refine ⟨t, rfl, ⟨[], fun c hc => (nomatch hc), Or.inl ⟨c, hend, rfl, ?_⟩⟩, rfl⟩
    rintro rfl hhead
    obtain ⟨t', rfl⟩ := List.head?_eq_some_iff.mp hhead
    exact hc t' rfl rfl
  | case4 c t hc hend hnil ih =>
    obtain ⟨rfl, rfl⟩ := List.cons_eq_cons.mp h
    have ht : t = [] := by
      rw [← flatten_keptLines t, hnil]
      rfl
    refine ⟨[], by rw [ht]; rfl, ⟨[c], ?_, Or.inr (Or.inr ⟨rfl, List.cons_ne_nil c [], rfl⟩)⟩, rfl⟩
    intro d hd
    rw [List.mem_singleton.mp hd]
    exact Bool.not_eq_true _ ▸ hend
  | case5 c t hc hend l' ls' hcons ih =>
    obtain ⟨rfl, rfl⟩ := List.cons_eq_cons.mp h
    obtain ⟨t', rfl, ⟨u, hu, hl⟩, hrest⟩ := ih hcons
    have hcu : ∀ d ∈ c :: u, isLineEnd d = false := by
      intro d hd
      rcases List.mem_cons.mp hd with rfl | hd
      · exact Bool.not_eq_true _ ▸ hend
      · exact hu d hd
    refine ⟨t', rfl, ⟨c :: u, hcu, ?_⟩, hrest⟩
    rcases hl with ⟨d, hd, rfl, hr⟩ | rfl | ⟨rfl, hne, rfl⟩
    · exact Or.inl ⟨d, hd, rfl, hr⟩
    · exact Or.inr (Or.inl rfl)
    · exact Or.inr (Or.inr ⟨rfl, List.cons_ne_nil c _, rfl⟩)

/-- what follows a line may be cut short -/
theorem FirstLine.of_prefix {l t t' : Text} (h : FirstLine l t) (ht : t' <+: t) : FirstLine l t' := by
  obtain ⟨u, hu, h⟩ := h
  refine ⟨u, hu, ?_⟩
  rcases h with ⟨c, hc, hl, hr⟩ | hl | ⟨hl, hne, rfl⟩
  · refine Or.inl ⟨c, hc, hl, fun hcr hhead => hr hcr ?_⟩
    obtain ⟨v, rfl⟩ := ht
    rw [List.head?_append, hhead]
    rfl
  · exact Or.inr (Or.inl hl)
  · exact Or.inr (Or.inr ⟨hl, hne, List.prefix_nil.mp ht⟩)

theorem keptLines_append_left {s : Text} {ls ms : List Text} (h : keptLines s = ls ++ ms) : keptLines ls.flatten = ls := by
  induction ls generalizing s with
  | nil => rfl
  | cons l ls ih =>
    obtain ⟨t, rfl, hfirst, ht⟩ := keptLines_eq_cons h
    have htext : t = ls.flatten ++ ms.flatten := by
      rw [← flatten_keptLines t, ht]
      exact List.flatten_append
    rw [List.flatten_cons, keptLines_append_of_firstLine (hfirst.of_prefix ⟨ms.flatten, htext.symm⟩), ih ht]

theorem keptLines_append_right {s : Text} {ls ms : List Text} (h : keptLines s = ls ++ ms) : keptLines ms.flatten = ms := by
  induction ls generalizing s with
  | nil =>
    have hs : ms = keptLines s := h.symm
    rw [hs, flatten_keptLines]
  | cons l ls ih =>
    obtain ⟨t, _, _, ht⟩ := keptLines_eq_cons h
    exact ih ht

theorem keptLines_infix {s : Text} {ls : List Text} (h : ls <:+: keptLines s) : keptLines ls.flatten = ls := by
  obtain ⟨as, bs, h⟩ := h
  exact keptLines_append_right (keptLines_append_left h.symm)

/-- a text that ends with a new line, and what follows -/
theorem keptLines_append {s : Text} (h : s = [] ∨ s.getLast? = some '\n') (t : Text) :
    keptLines (s ++ t) = keptLines s ++ keptLines t := by
  induction hls : keptLines s generalizing s with
  | nil =>
    have hs : s = [] := by
      rw [← flatten_keptLines s, hls]
      rfl
    rw [hs]
    rfl
  | cons l ls ih =>
    obtain ⟨r, rfl, hfirst, hr⟩ := keptLines_eq_cons hls
    have hlne : l ≠ [] := ne_nil_of_mem_keptLines (hls ▸ List.mem_cons_self)
    have hlast : (l ++ r).getLast? = some '\n' := h.resolve_left fun he => hlne (List.append_eq_nil_iff.mp he).1
    have hrlast : r = [] ∨ r.getLast? = some '\n' := by
      rcases List.eq_nil_or_concat r with rfl | ⟨r', c, rfl⟩
      · exact Or.inl rfl
      · rw [List.concat_eq_append, ← List.append_assoc, List.getLast?_concat] at hlast
        rw [List.concat_eq_append, List.getLast?_concat]
        exact Or.inr hlast
    rw [List.append_assoc, keptLines_append_of_firstLine, ih hrlast hr]
    · rfl
    · obtain ⟨u, hu, h⟩ := hfirst
      refine ⟨u, hu, ?_⟩
      rcases h with ⟨c, hc, rfl, hcr⟩ | rfl | ⟨rfl, hne, rfl⟩
      · refine Or.inl ⟨c, hc, rfl, ?_⟩
        rintro rfl hhead
        cases r with
        | nil =>
          rw [List.append_nil, List.getLast?_concat] at hlast
          exact absurd hlast (by decide)
        | cons d r => exact hcr rfl hhead
      · exact Or.inr (Or.inl rfl)
      · rw [List.append_nil] at hlast
        exact absurd (hu '\n' (List.mem_of_getLast? hlast)) (by decide)

/-- a line without an end inside it -/
theorem keptLines_newline {l : Text} (h : ∀ c ∈ l, isLineEnd c = false) (t : Text) :
    keptLines (l ++ '\n' :: t) = (l ++ ['\n']) :: keptLines t := by
  have hline : l ++ '\n' :: t = (l ++ ['\n']) ++ t := by simp
  rw [hline]
  refine keptLines_append_of_firstLine ⟨l, h, Or.inl ⟨'\n', rfl, rfl, fun hr => absurd hr (by decide)⟩⟩

end Text
