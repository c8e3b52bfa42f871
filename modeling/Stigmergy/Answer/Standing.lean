import Stigmergy.Answer.Numbers

/-!
# The digits the gate sees

`_TOKEN` begins only where no word, point or comma ends, and ends only where no word goes on.

* `Standing`        digits that lie in a number that stands free;
* `number_sorted`   of the numbers at one place that end where their digits end, a longer one comes first;
* `token_longest`   a number that stands free is part of the figure found there;
* `covered_iff`     digits are part of a figure exactly when they stand free;
* `compared_iff`    two digits or more are compared with the evidence exactly then.
-/

set_option linter.unusedSectionVars false

namespace Numbers

/-- decimal digits are alphanumeric, white space and the percent sign are not -/
structure Words (R : Runtime) : Prop extends Digits R where
  digit : ∀ c, R.isDecimal c = true → R.isAlnum c = true
  space : ∀ c, Text.isSpace c = true → R.isAlnum c = false
  percent : R.isAlnum '%' = false

section
variable (R : Runtime)

/-- no word, point or comma ends here -/
def Free (pre : Text) : Prop := pre.getLast?.any (fun c => isWord R c || isSeparator c) = false

/-- no word goes on here, or only a scale -/
def Ended (post : Text) : Prop := atEnd R post = true ∨ ∃ s ∈ scales, ∃ r, post = s ++ r ∧ atEnd R r = true

/-- the digits between two parts of a text lie in a number that stands free -/
def Standing (a d z : Text) : Prop :=
  ∃ pre num post, a ++ d ++ z = pre ++ num ++ post ∧ pre.length ≤ a.length ∧
    (a ++ d).length ≤ (pre ++ num).length ∧ Free R pre ∧ IsNumber R num ∧ Ended R post

/-- the figures of a text, each with the places it begins and ends at -/
def figures (t : Text) : List (ℕ × ℕ × Token) := Scan.locatedBehind (token R) t

def startsDigit (t : Text) : Bool := t.head?.any R.isDecimal

/-- a figure that holds the digits between two parts of an answer is looked up in the evidence -/
def Compared (evidence a d z : Text) : Prop :=
  ∃ b e tok, (b, e, tok) ∈ figures R (a ++ d ++ z) ∧ b ≤ a.length ∧ (a ++ d).length ≤ e ∧ isMarker R tok = false ∧
    (tok.display ∉ unverifiedFigures R (a ++ d ++ z) evidence ↔ isBacked R (numberPool R evidence) tok = true)

end

section
variable {R : Runtime}

theorem Words.not_isWord_space (hw : Words R) {c : Char} (h : Text.isSpace c = true) : isWord R c = false := by
  have hne : (c == '_') = false := by
    rw [beq_eq_false_iff_ne]
    rintro rfl
    exact absurd h (by decide)
  rw [isWord, hw.space c h, hne, Bool.or_false]

theorem Words.not_isWord_percent (hw : Words R) : isWord R '%' = false := by
  rw [isWord, hw.percent]
  rfl

theorem Words.isWord_digit (hw : Words R) {c : Char} (h : R.isDecimal c = true) : isWord R c = true := by
  rw [isWord, hw.digit c h, Bool.true_or]

theorem Digits.not_separator (hd : Digits R) {c : Char} (h : R.isDecimal c = true) : isSeparator c = false := by
  rw [← Bool.not_eq_true]
  intro hs
  rcases Bool.or_eq_true _ _ ▸ hs with hs | hs
  · rw [beq_iff_eq.mp hs, hd.apart '.' (by decide)] at h
    exact Bool.false_ne_true h
  · rw [beq_iff_eq.mp hs, hd.apart ',' (by decide)] at h
    exact Bool.false_ne_true h

/-! ## what may follow a number -/

theorem mem_blank_nil (t : Text) : ([], t) ∈ blank t := by
  unfold blank
  split
  · split
    · exact List.mem_cons_of_mem _ List.mem_cons_self
    · exact List.mem_cons_self
  · exact List.mem_cons_self

theorem mem_scale {s : Text} (h : s ∈ scales) (t : Text) : (some s, t) ∈ scale (s ++ t) := by
  rcases List.mem_cons.mp h with rfl | h
  · exact List.mem_append_left _ (List.mem_append_left _ List.mem_cons_self)
  · obtain ⟨c, hc, rfl⟩ := List.mem_map.mp h
    refine List.mem_append_left _ (List.mem_append_right _ ?_)
    show (some [c], t) ∈ letter (c :: t)
    rw [letter, if_pos (List.elem_eq_true_of_mem hc)]
    exact List.mem_cons_self

theorem mem_percent_false (t : Text) : (false, t) ∈ percent t := by
  unfold percent
  split
  · exact List.mem_cons_of_mem _ List.mem_cons_self
  · exact List.mem_cons_self

theorem Dimension.ended (hw : Words R) {t v w rest : Text} {suffix : Option Text} {pct : Bool}
    (h : Dimension (R := R) t suffix pct v w rest) : Ended R t := by
  have hnext : Numbers.atEnd R (w ++ (percentText pct ++ rest)) = true := by
    cases w with
    | cons c w =>
      show (!isWord R c) = true
      rw [hw.not_isWord_space (h.blanks.2 c List.mem_cons_self)]
      rfl
    | nil =>
      cases pct with
      | false => exact h.atEnd
      | true =>
        show (!isWord R '%') = true
        rw [hw.not_isWord_percent]
        rfl
  rw [h.eq]
  cases v with
  | cons c v =>
    refine Or.inl ?_
    show (!isWord R c) = true
    rw [hw.not_isWord_space (h.blanks.1 c List.mem_cons_self)]
    rfl
  | nil =>
    cases suffix with
    | none => exact Or.inl hnext
    | some s => exact Or.inr ⟨s, h.scale s rfl, _, rfl, hnext⟩

/-- something may follow a number exactly where it has ended -/
theorem dimension_ne_nil (hw : Words R) {t : Text} : dimension R t ≠ [] ↔ Ended R t := by
  constructor
  · intro h
    obtain ⟨e, he⟩ := List.exists_mem_of_ne_nil _ h
    obtain ⟨v, w, hdim⟩ := dimension_spec he
    exact hdim.ended hw
  · have hmem : ∀ {s : Option Text} {r : Text}, (s, r) ∈ scale t → atEnd R r = true → dimension R t ≠ [] := by
      intro s r hs hend
      apply List.ne_nil_of_mem (a := (s, false, r))
      refine List.mem_filter.mpr ⟨?_, hend⟩
      refine List.mem_flatMap.mpr ⟨([], t), mem_blank_nil t, List.mem_flatMap.mpr ⟨(s, r), hs, ?_⟩⟩
      refine List.mem_flatMap.mpr ⟨([], r), mem_blank_nil r, List.mem_map.mpr ⟨(false, r), ?_, rfl⟩⟩
      exact mem_percent_false r
    rintro (h | ⟨s, hs, r, rfl, h⟩)
    · exact hmem (List.mem_append_right _ List.mem_cons_self) h
    · exact hmem (mem_scale hs r) h

theorem not_startsDigit (hw : Words R) {t : Text} (h : Ended R t) : startsDigit R t = false := by
  rw [← Bool.not_eq_true]
  intro hdigit
  cases t with
  | nil => exact Bool.false_ne_true hdigit
  | cons c t =>
    rcases h with h | ⟨s, hs, r, heq, -⟩
    · rw [atEnd, show (c :: t).head?.any (isWord R) = true from hw.isWord_digit hdigit] at h
      exact Bool.false_ne_true h
    · obtain ⟨hne, hall⟩ := scales_spec s hs
      obtain ⟨e, s, rfl⟩ := List.exists_cons_of_ne_nil hne
      rw [(List.cons.inj heq).1] at hdigit
      have hin := (hw.scale (hall e List.mem_cons_self)).1
      rw [inNumber_of_decimal hdigit] at hin
      exact Bool.false_ne_true hin.symm

/-! ## a longer number comes first -/

theorem run_pairwise {p : Char → Bool} (t : Text) :
    (run p t).Pairwise fun _ y => ∃ c u, y.2 = c :: u ∧ p c = true := by
  induction t with
  | nil => exact List.Pairwise.nil
  | cons c t ih =>
    rw [run]
    split
    · refine List.pairwise_append.mpr ⟨List.pairwise_map.mpr ih, List.pairwise_singleton _ _, ?_⟩
      intro x hx y hy
      obtain ⟨⟨v, u⟩, hv, -⟩ := List.mem_map.mp hx
      obtain ⟨ht, hne, hall⟩ := mem_run.mp hv
      obtain ⟨d, v, rfl⟩ := List.exists_cons_of_ne_nil hne
      rw [List.mem_singleton.mp hy]
      exact ⟨d, v ++ u, ht, hall d List.mem_cons_self⟩
    · exact List.Pairwise.nil

/-- behind a run that ends there is no other: it is the same, or digits go on -/
theorem run_unique {p : Char → Bool} {t d r d' r' : Text} (h : (d, r) ∈ run p t) (h' : (d', r') ∈ run p t)
    (hr : r.head?.any p = false) : (d = d' ∧ r = r') ∨ r'.head?.any p = true := by
  obtain ⟨ht, -, hd⟩ := mem_run.mp h
  obtain ⟨ht', -, hd'⟩ := mem_run.mp h'
  rcases List.append_eq_append_iff.mp (ht.symm.trans ht') with ⟨u, rfl, rfl⟩ | ⟨u, rfl, rfl⟩
  · cases u with
    | nil => exact Or.inl ⟨(List.append_nil d).symm, rfl⟩
    | cons c u =>
      have hc : p c = true := hd' c (List.mem_append_right _ List.mem_cons_self)
      exact absurd (hr.symm.trans hc) Bool.false_ne_true
  · cases u with
    | nil => exact Or.inl ⟨List.append_nil d', rfl⟩
    | cons c u => exact Or.inr (hd c (List.mem_append_right _ List.mem_cons_self))

theorem fraction_pairwise (t : Text) : (fraction R t).Pairwise fun x y => y.1.length ≤ x.1.length := by
  have hrun : ∀ t : Text, (run R.isDecimal t).Pairwise fun x y => y.1.length ≤ x.1.length := by
    intro t
    induction t with
    | nil => exact List.Pairwise.nil
    | cons c t ih =>
      rw [run]
      split
      · refine List.pairwise_append.mpr ⟨List.pairwise_map.mpr ?_, List.pairwise_singleton _ _, ?_⟩
        · exact ih.imp fun h => Nat.succ_le_succ h
        · intro x hx y hy
          obtain ⟨e, -, rfl⟩ := List.mem_map.mp hx
          rw [List.mem_singleton.mp hy]
          exact Nat.succ_le_succ (Nat.zero_le _)
      · exact List.Pairwise.nil
  cases t with
  | nil => exact List.pairwise_singleton _ _
  | cons s t =>
    refine List.pairwise_append.mpr ⟨?_, List.pairwise_singleton _ _, ?_⟩
    · split
      · exact List.pairwise_map.mpr ((hrun t).imp fun h => Nat.succ_le_succ h)
      · exact List.Pairwise.nil
    · intro _ _ y hy
      rw [List.mem_singleton.mp hy]
      exact Nat.zero_le _

theorem fraction_digit (hd : Digits R) {c : Char} {t f r : Text} (hc : R.isDecimal c = true)
    (h : (f, r) ∈ fraction R (c :: t)) : r = c :: t := by
  obtain ⟨ht, rfl | ⟨s, d, hs, -, rfl⟩⟩ := mem_fraction.mp h
  · exact ht.symm
  · rw [← (List.cons.inj ht).1, hd.not_separator hc] at hs
    exact absurd hs Bool.false_ne_true

theorem groups_digit (hd : Digits R) {c : Char} {t g r : Text} (hc : R.isDecimal c = true) :
    (g, r) ∉ groups R (c :: t) := by
  intro h
  obtain ⟨ht, hg⟩ := mem_groups.mp h
  cases hg with
  | one hs _ _ _ =>
    rw [← (List.cons.inj ht).1, hd.not_separator hc] at hs
    exact Bool.false_ne_true hs
  | more hs _ _ _ _ =>
    rw [← (List.cons.inj ht).1, hd.not_separator hc] at hs
    exact Bool.false_ne_true hs

theorem groups_pairwise (t : Text) :
    (groups R t).Pairwise fun x y => ∃ g, x.1 = y.1 ++ g ∧ (g, x.2) ∈ groups R y.2 := by
  induction t using groups.induct R with
  | case1 s a b c t hc ih =>
    rw [groups, if_pos hc]
    refine List.pairwise_append.mpr ⟨List.pairwise_map.mpr ?_, List.pairwise_singleton _ _, ?_⟩
    · refine ih.imp fun h => ?_
      obtain ⟨g, hg, hmem⟩ := h
      exact ⟨g, congrArg (s :: a :: b :: c :: ·) hg, hmem⟩
    · intro x hx y hy
      obtain ⟨e, he, rfl⟩ := List.mem_map.mp hx
      rw [List.mem_singleton.mp hy]
      exact ⟨e.1, rfl, he⟩
  | case2 s a b c t hc =>
    rw [groups, if_neg hc]
    exact List.Pairwise.nil
  | case3 t hne =>
    rw [groups]
    · exact List.Pairwise.nil
    · exact hne

/-- a fraction is no longer than the groups that could stand in its place -/
theorem fraction_le_groups (hd : Digits R) {t g r f x f' x' : Text} (hg : (g, r) ∈ groups R t)
    (hf : (f, x) ∈ fraction R r) (hx : startsDigit R x = false) (hf' : (f', x') ∈ fraction R t) :
    f'.length ≤ (g ++ f).length := by
  obtain ⟨rfl, hgrouped⟩ := mem_groups.mp hg
  obtain ⟨ht, rfl | ⟨s', d, -, hdigits, rfl⟩⟩ := mem_fraction.mp hf'
  · exact Nat.zero_le _
  have hfour : d.length ≤ 3 → (s' :: d).length ≤ (g ++ f).length := by
    intro hlen
    have hg4 : 4 ≤ g.length := by
      cases hgrouped with
      | one => exact le_refl 4
      | more => exact Nat.le_add_left 4 _
    rw [List.length_append, List.length_cons]
    omega
  -- a fourth digit would be the first character behind a group
  match d, hdigits with
  | [], _ => exact hfour (by decide)
  | [_], _ => exact hfour (Nat.le_of_ble_eq_true rfl)
  | [_, _], _ => exact hfour (Nat.le_of_ble_eq_true rfl)
  | [_, _, _], _ => exact hfour (Nat.le_of_ble_eq_true rfl)
  | a' :: b' :: c' :: e :: d, hdigits =>
    have he : R.isDecimal e = true := hdigits.2 e (by simp only [List.mem_cons, true_or, or_true])
    exfalso
    cases hgrouped with
    | one hs _ _ _ =>
      simp only [List.cons_append, List.cons.injEq, List.nil_append] at ht
      obtain ⟨-, -, -, -, rfl⟩ := ht
      rw [fraction_digit hd he hf] at hx
      exact Bool.false_ne_true (hx.symm.trans he)
    | more hs _ _ _ hw =>
      simp only [List.cons_append, List.cons.injEq] at ht
      obtain ⟨-, -, -, -, ht⟩ := ht
      exact groups_digit hd he (ht ▸ mem_groups.mpr ⟨rfl, hw⟩)

theorem startsDigit_of_run {d r : Text} {t : Text} (hd : Digits R) {g u : Text} (h : (d, r) ∈ run R.isDecimal t)
    (hg : (g, u) ∈ groups R r) : startsDigit R r = false := by
  cases r with
  | nil => rfl
  | cons c r =>
    rw [← Bool.not_eq_true]
    intro hc
    exact groups_digit hd hc hg

/-- of the numbers at one place that end where their digits end, a longer one comes first -/
theorem number_sorted (hd : Digits R) (t : Text) : (number R t).Pairwise fun x y =>
    startsDigit R x.2 = false → startsDigit R y.2 = false → y.1.length ≤ x.1.length := by
  have hcut : ∀ {x y : Text × Text}, (∃ c u, y.2 = c :: u ∧ R.isDecimal c = true) →
      startsDigit R y.2 = false → False := by
    rintro x y ⟨c, u, hy, hc⟩ hend
    rw [hy] at hend
    exact Bool.false_ne_true (hend.symm.trans hc)
  rw [number]
  refine List.pairwise_append.mpr ⟨?_, ?_, ?_⟩
  · refine List.pairwise_flatMap.mpr ⟨fun d _ => ?_, ?_⟩
    · refine List.pairwise_flatMap.mpr ⟨fun g _ => ?_, ?_⟩
      · refine List.pairwise_map.mpr ((fraction_pairwise g.2).imp fun h _ _ => ?_)
        simp only [List.length_append]
        omega
      · refine (groups_pairwise d.2).imp fun h x hx y hy hendx _ => ?_
        obtain ⟨g, hg, hmem⟩ := h
        obtain ⟨f, hf, rfl⟩ := List.mem_map.mp hx
        obtain ⟨f', hf', rfl⟩ := List.mem_map.mp hy
        have hle := fraction_le_groups hd hmem hf hendx hf'
        rw [hg]
        simp only [List.length_append] at hle ⊢
        omega
    · refine ((run_pairwise t).filter _).imp fun h _ _ y hmem => ?_
      obtain ⟨c, u, hy, hc⟩ := h
      obtain ⟨g, hg, -⟩ := List.mem_flatMap.mp hmem
      rw [hy] at hg
      exact absurd hg (groups_digit hd hc)
  · refine List.pairwise_flatMap.mpr ⟨fun d _ => ?_, ?_⟩
    · refine List.pairwise_map.mpr ((fraction_pairwise d.2).imp fun h _ _ => ?_)
      simp only [List.length_append]
      omega
    · refine (run_pairwise t).imp fun h _ _ y hmem _ hend => ?_
      obtain ⟨c, u, hy, hc⟩ := h
      obtain ⟨f, hf, rfl⟩ := List.mem_map.mp hmem
      rw [hy] at hf
      rw [show f.2 = c :: u from fraction_digit hd hc hf] at hend
      exact absurd (hend.symm.trans hc) Bool.false_ne_true
  · intro x hx y hy hendx hendy
    obtain ⟨d, hdmem, hx⟩ := List.mem_flatMap.mp hx
    obtain ⟨g, hg, hx⟩ := List.mem_flatMap.mp hx
    obtain ⟨f, hf, rfl⟩ := List.mem_map.mp hx
    obtain ⟨d', hd', hy⟩ := List.mem_flatMap.mp hy
    obtain ⟨f', hf', rfl⟩ := List.mem_map.mp hy
    have hrun := List.mem_of_mem_filter hdmem
    rcases run_unique hrun hd' (startsDigit_of_run hd hrun hg) with ⟨h1, h2⟩ | hmore
    · rw [← h2] at hf'
      have hle := fraction_le_groups hd hg hf hendx hf'
      rw [← h1]
      simp only [List.length_append] at hle ⊢
      omega
    · obtain ⟨v, u⟩ := d'
      cases u with
      | nil => exact absurd hmore Bool.false_ne_true
      | cons c u =>
        rw [show f'.2 = c :: u from fraction_digit hd hmore hf'] at hendy
        exact absurd (hendy.symm.trans hmore) Bool.false_ne_true

/-! ## figures and the places they begin at -/

/-- the first value that comes of a list is of what comes first in it -/
theorem head?_flatMap {α β : Type*} {S : α → α → Prop} {f : α → List β} {l : List α} (hl : l.Pairwise S) {x : α}
    (hx : x ∈ l) (hfx : f x ≠ []) : ∃ y ∈ l, ∃ b ∈ f y, (l.flatMap f).head? = some b ∧ (y = x ∨ S y x) := by
  induction l with
  | nil => exact absurd hx List.not_mem_nil
  | cons a l ih =>
    obtain ⟨ha, hl⟩ := List.pairwise_cons.mp hl
    rw [List.flatMap_cons]
    cases hfa : f a with
    | nil =>
      have hx : x ∈ l := (List.mem_cons.mp hx).resolve_left fun h => hfx (h ▸ hfa)
      obtain ⟨y, hy, b, hb, hhead, hyx⟩ := ih hl hx
      exact ⟨y, List.mem_cons_of_mem _ hy, b, hb, hhead, hyx⟩
    | cons b bs =>
      refine ⟨a, List.mem_cons_self, b, hfa ▸ List.mem_cons_self, rfl, ?_⟩
      rcases List.mem_cons.mp hx with rfl | hx
      · exact Or.inl rfl
      · exact Or.inr (ha x hx)

/-- a number that stands free is part of the figure found there -/
theorem token_longest (hw : Words R) {pre num post : Text} (hfree : Free R pre) (hnum : IsNumber R num)
    (hend : Ended R post) :
    ∃ n tok, token R pre.getLast? (num ++ post) = some (n, tok) ∧ num.length ≤ tok.num.length := by
  have hmem : (num, post) ∈ number R (num ++ post) := mem_number.mpr ⟨rfl, hnum⟩
  have hsome : ((dimension R post).map fun d => ((num ++ post).length - d.2.2.length,
      Token.mk num d.1 d.2.1 (Text.strip ((num ++ post).take ((num ++ post).length - d.2.2.length))))) ≠ [] :=
    fun h => (dimension_ne_nil hw).mpr hend (List.map_eq_nil_iff.mp h)
  obtain ⟨⟨w, r⟩, hy, ⟨n, tok⟩, hb, hhead, hle⟩ := head?_flatMap (number_sorted hw.toDigits _) hmem
    (f := fun e => (dimension R e.2).map fun d => ((num ++ post).length - d.2.2.length,
      Token.mk e.1 d.1 d.2.1 (Text.strip ((num ++ post).take ((num ++ post).length - d.2.2.length))))) hsome
  obtain ⟨d, hd, heq⟩ := List.mem_map.mp hb
  have htok : tok.num = w := by rw [← (Prod.mk.inj heq).2]
  refine ⟨n, tok, ?_, ?_⟩
  · rw [token, if_neg (fun h => Bool.false_ne_true (hfree.symm.trans h))]
    exact hhead
  · rw [htok]
    rcases hle with h | hle
    · exact le_of_eq (congrArg (fun e => e.1.length) h.symm)
    · have hr : Ended R r := (dimension_ne_nil hw).mp (List.ne_nil_of_mem hd)
      exact hle (not_startsDigit hw hr) (not_startsDigit hw hend)

/-- a match: where it stands, its number, and a rest without digits -/
theorem token_shape (hw : Words R) {pre t : Text} {n : ℕ} {tok : Token} (h : token R pre.getLast? t = some (n, tok)) :
    Free R pre ∧ IsNumber R tok.num ∧ ∃ after rest, t = tok.num ++ (after ++ rest) ∧ n = tok.num.length + after.length ∧
      (∀ c ∈ after, R.isDecimal c = false) ∧ Ended R (after ++ rest) := by
  have hfree : Free R pre := by
    unfold Free
    rw [← Bool.not_eq_true]
    intro hg
    rw [token, if_pos hg] at h
    exact Option.some_ne_none _ h.symm
  obtain ⟨u, v, w, rest, hnum, hdim, hn, -⟩ := token_spec h
  obtain ⟨ht, hnum⟩ := mem_number.mp hnum
  refine ⟨hfree, hnum, v ++ (tok.suffix.getD [] ++ (w ++ percentText tok.pct)), rest, ?_, ?_, ?_, ?_⟩
  · rw [ht, hdim.eq]
    simp only [List.append_assoc]
  · rw [hn, ht, hdim.eq]
    simp only [List.length_append]
    omega
  · have hspace : ∀ c, Text.isSpace c = true → R.isDecimal c = false := by
      intro c hc
      rw [← Bool.not_eq_true]
      intro hdigit
      exact Bool.false_ne_true ((hw.notSpace c hdigit).symm.trans hc)
    simp only [List.forall_mem_append]
    refine ⟨fun c hc => hspace c (hdim.blanks.1 c hc), fun c hc => ?_, fun c hc => hspace c (hdim.blanks.2 c hc), ?_⟩
    · exact (Bool.or_eq_false_iff.mp (hw.scale (hdim.inScale c hc)).1).1
    · intro c hc
      unfold percentText at hc
      split at hc
      · rw [List.mem_singleton.mp hc]
        exact hw.apart '%' (by decide)
      · exact absurd hc List.not_mem_nil
  · have hended := hdim.ended hw
    rw [hdim.eq] at hended
    simpa only [List.append_assoc] using hended

/-- a figure begins behind the ones before it -/
theorem token_le (hw : Words R) {p q s : Text} {n : ℕ} {tok : Token} (hq : q ≠ []) (hfree : Free R (p ++ q))
    (hs : startsDigit R s = true) (h : token R p.getLast? (q ++ s) = some (n, tok)) : n ≤ q.length := by
  obtain ⟨-, hnum, after, rest, heq, rfl, hafter, -⟩ := token_shape hw h
  by_contra hlt
  -- the figure would end in the number, behind a digit or a separator, or in what follows, before a digit
  rcases List.append_eq_append_iff.mp heq with ⟨u, hu, hs'⟩ | ⟨u, hu, hs'⟩
  · have hlast : (p ++ q).getLast?.any (fun c => isWord R c || isSeparator c) = true := by
      obtain ⟨v, c, rfl⟩ := List.eq_nil_or_concat q |>.resolve_left hq
      have hc : inNumber R c = true :=
        hnum.inNumber c (hu ▸ List.mem_append_left _ (by simp only [List.concat_eq_append, List.mem_append, List.mem_singleton, or_true]))
      rw [List.concat_eq_append, ← List.append_assoc, List.getLast?_concat]
      show (isWord R c || isSeparator c) = true
      rcases Bool.or_eq_true _ _ ▸ hc with hc | hc
      · rw [hw.isWord_digit hc, Bool.true_or]
      · rw [hc, Bool.or_true]
    exact Bool.false_ne_true (hfree.symm.trans hlast)
  · rw [hu, List.length_append] at hlt
    rcases List.append_eq_append_iff.mp hs' with ⟨x, hx, -⟩ | ⟨x, hx, hs''⟩
    · rw [hx, List.length_append] at hlt
      omega
    · cases x with
      | nil =>
        rw [hx, List.append_nil] at hlt
        exact hlt (le_refl _)
      | cons c x =>
        rw [hs''] at hs
        have hc := hafter c (hx ▸ List.mem_append_right _ List.mem_cons_self)
        exact Bool.false_ne_true (hc.symm.trans hs)

theorem IsNumber.startsDigit {num : Text} (h : IsNumber R num) (post : Text) :
    num ≠ [] ∧ startsDigit R (num ++ post) = true := by
  have hdigits : ∀ {d w : Text}, IsDigits R d → d ++ w ≠ [] ∧ Numbers.startsDigit R (d ++ w ++ post) = true := by
    intro d w hd
    obtain ⟨c, d, rfl⟩ := List.exists_cons_of_ne_nil hd.1
    exact ⟨List.cons_ne_nil c _, hd.2 c List.mem_cons_self⟩
  rcases h with ⟨d, g, f, hd, -, -, -, rfl⟩ | ⟨d, f, hd, -, rfl⟩
  · rw [List.append_assoc d]
    exact hdigits hd
  · exact hdigits hd

/-- a figure over digits has them in its number, which stands free -/
theorem figure_spec (hw : Words R) {a d z : Text} (hd : IsDigits R d) {b e : ℕ} {tok : Token}
    (h : (b, e, tok) ∈ figures R (a ++ d ++ z)) (hb : b ≤ a.length) (he : (a ++ d).length ≤ e) :
    Standing R a d z ∧ ∃ u v, tok.num = u ++ d ++ v := by
  obtain ⟨pre, s, n, ht, rfl, rfl, hm⟩ := Scan.locatedBehind_spec h
  obtain ⟨hfree, hnum, after, rest, rfl, hn, hafter, hend⟩ := token_shape hw hm
  have hlen : (a ++ d).length ≤ (pre ++ tok.num).length := by
    by_contra hlt
    -- the last of the digits would stand in what follows the number
    obtain ⟨d, c, rfl⟩ := List.eq_nil_or_concat d |>.resolve_left hd.1
    rw [List.concat_eq_append] at ht hd he hlt
    have hsplit : (pre ++ tok.num) ++ (after ++ rest) = (a ++ d) ++ (c :: z) := by
      rw [List.append_assoc, ← ht]
      simp only [List.append_assoc, List.singleton_append]
    simp only [List.length_append, List.length_singleton] at he hlt
    obtain ⟨u, hu⟩ := List.prefix_of_prefix_length_le ⟨_, hsplit⟩ ⟨_, rfl⟩
      (by simp only [List.length_append]; omega)
    have hulen := congrArg List.length hu
    simp only [List.length_append] at hulen
    rw [← hu, List.append_assoc (pre ++ tok.num)] at hsplit
    rcases List.append_eq_append_iff.mp (List.append_cancel_left hsplit) with ⟨x, hx, -⟩ | ⟨x, hx, hx'⟩
    · rw [hx, List.length_append] at hulen
      omega
    · cases x with
      | nil =>
        rw [List.append_nil] at hx
        rw [← hx] at hulen
        omega
      | cons y x =>
        have hy := hafter y (hx ▸ List.mem_append_right _ List.mem_cons_self)
        rw [← (List.cons.inj hx').1] at hy
        have hc := hd.2 c (List.mem_append_right _ List.mem_cons_self)
        exact Bool.false_ne_true (hy.symm.trans hc)
  refine ⟨⟨pre, tok.num, after ++ rest, ?_, hb, hlen, hfree, hnum, hend⟩, ?_⟩
  · rw [ht, List.append_assoc]
  · have hsplit : pre ++ (tok.num ++ (after ++ rest)) = a ++ (d ++ z) := by
      rw [← ht, List.append_assoc]
    obtain ⟨u, rfl⟩ := List.prefix_of_prefix_length_le ⟨_, hsplit⟩ ⟨_, rfl⟩ hb
    rw [List.append_assoc] at hsplit
    have hsplit : tok.num ++ (after ++ rest) = (u ++ d) ++ z := by
      rw [List.append_assoc]
      exact List.append_cancel_left hsplit
    simp only [List.length_append] at hlen
    obtain ⟨v, hv⟩ := List.prefix_of_prefix_length_le ⟨z, rfl⟩ ⟨_, hsplit⟩
      (by rw [List.length_append]; omega)
    exact ⟨u, v, hv.symm⟩

/-- a number that stands free is part of a figure -/
theorem figure_of_standing (hw : Words R) {a d z : Text} (h : Standing R a d z) :
    ∃ b e tok, (b, e, tok) ∈ figures R (a ++ d ++ z) ∧ b ≤ a.length ∧ (a ++ d).length ≤ e := by
  obtain ⟨pre, num, post, ht, hb, hlen, hfree, hnum, hend⟩ := h
  obtain ⟨n, tok, htok, hle⟩ := token_longest hw hfree hnum hend
  obtain ⟨hne, hstart⟩ := hnum.startsDigit post
  obtain ⟨-, -, after, -, -, hn, -, -⟩ := token_shape hw htok
  have hpos : 0 < num.length := List.length_pos_iff.mpr hne
  obtain ⟨k, rfl⟩ : ∃ k, n = k + 1 := Nat.exists_eq_succ_of_ne_zero (by omega)
  refine ⟨pre.length, pre.length + (k + 1), tok, ?_, hb, ?_⟩
  · rw [ht, List.append_assoc]
    refine Scan.locatedBehind_mem (fun hnil => hne (List.append_eq_nil_iff.mp hnil).1) htok ?_
    rintro p q n' tok' rfl hq hm
    exact token_le hw hq hfree hstart hm
  · rw [List.length_append] at hlen ⊢
    rw [List.length_append] at hlen
    omega

theorem not_isMarker {tok : Token} {u d v : Text} (hd : IsDigits R d) (h2 : 2 ≤ d.length)
    (h : tok.num = u ++ d ++ v) : isMarker R tok = false := by
  have hcount : 2 ≤ (tok.num.filter R.isDecimal).length := by
    rw [h, List.filter_append, List.filter_append, List.filter_eq_self.mpr hd.2]
    simp only [List.length_append]
    omega
  have hne : ((tok.num.filter R.isDecimal).length == 1) = false := by
    rw [beq_eq_false_iff_ne]
    omega
  rw [isMarker, hne, Bool.false_and, Bool.false_and]

/-- two digits or more are compared with the evidence exactly when they stand free -/
theorem compared_iff (hw : Words R) (evidence : Text) {a d z : Text} (hd : IsDigits R d) (h2 : 2 ≤ d.length) :
    Compared R evidence a d z ↔ Standing R a d z := by
  constructor
  · rintro ⟨b, e, tok, hmem, hb, he, -⟩
    exact (figure_spec hw hd hmem hb he).1
  · intro h
    obtain ⟨b, e, tok, hmem, hb, he⟩ := figure_of_standing hw h
    obtain ⟨u, v, hnum⟩ := (figure_spec hw hd hmem hb he).2
    have hmark := not_isMarker hd h2 hnum
    have htok : tok ∈ tokens R (a ++ d ++ z) := by
      rw [tokens, ← Scan.map_locatedBehind]
      exact List.mem_map.mpr ⟨(b, e, tok), hmem, rfl⟩
    exact ⟨b, e, tok, hmem, hb, he, hmark, mem_unverifiedFigures hw.toDigits htok hmark⟩

theorem words_ascii : Words ascii where
  toDigits := digits_ascii
  digit := fun c h => by
    show (Ascii.isDigit c || _) = true
    rw [show Ascii.isDigit c = true from h, Bool.true_or]
  space := by
    intro c hc
    rw [← Bool.not_eq_true]
    intro hword
    have hrange : 48 ≤ c.toNat ∧ c.toNat ≤ 122 := by
      rcases Bool.or_eq_true _ _ ▸ (show (Ascii.isDigit c || _) = true from hword) with h | h
      · obtain ⟨hlo, hhi⟩ := Bool.and_eq_true _ _ ▸ h
        exact ⟨of_decide_eq_true hlo, le_trans (of_decide_eq_true hhi) (by decide)⟩
      · obtain ⟨hlo, hhi⟩ := Bool.and_eq_true _ _ ▸ h
        by_cases hup : 'A' ≤ c ∧ c ≤ 'Z'
        · exact ⟨le_trans (by decide) hup.1, le_trans hup.2 (by decide)⟩
        · rw [Ascii.lowerChar, if_neg hup] at hlo hhi
          exact ⟨le_trans (by decide) (of_decide_eq_true hlo), of_decide_eq_true hhi⟩
    have hall : ∀ n ≤ 122, 48 ≤ n → Text.isSpace (Char.ofNat n) = false := by decide
    have hspace := hall c.toNat hrange.2 hrange.1
    rw [Char.ofNat_toNat] at hspace
    exact Bool.false_ne_true (hspace.symm.trans hc)
  percent := by decide

theorem compared_iff_percent :
    Compared ascii "40% in 2026".toList "up ".toList "40".toList "%".toList ↔
      Standing ascii "up ".toList "40".toList "%".toList :=
  compared_iff words_ascii "40% in 2026".toList ⟨by decide, by decide⟩ (by decide)

/-- digits behind a currency code are in no figure -/
theorem not_compared : ¬∀ (R : Runtime) (evidence a d z : Text), Words R → IsDigits R d →
    a.getLast?.any R.isDecimal = false → z.head?.any R.isDecimal = false → 2 ≤ d.length →
    Compared R evidence a d z := by
  intro h
  have hnone : figures ascii ("EUR".toList ++ "500".toList ++ []) = [] := by decide +kernel
  obtain ⟨b, e, tok, hmem, -⟩ := h ascii [] "EUR".toList "500".toList [] words_ascii ⟨by decide, by decide⟩
    (by decide) (by decide) (by decide)
  rw [hnone] at hmem
  exact List.not_mem_nil hmem

end

end Numbers
