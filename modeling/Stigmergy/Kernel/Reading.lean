import Stigmergy.Kernel.Markers
import Stigmergy.Kernel.Merge

/-!
# What a reader sees

A fused body as the reader cuts it into markers and text, against the units it was fused from.

* `lex_marked`      one unit: its marker at the start of its text, everything else as stored;
* `renderBody_eq`   a rendered body as its pieces with line ends before each;
* `unforged_iff`    the markers are those of the units and the stored text comes back, exactly when no
                    title or heading has a marker and the last unit does not end in one.
-/

set_option linter.unusedSectionVars false

namespace Body

/-- `\d` on ASCII -/
def AsciiDigits (R : Runtime) : Prop := ∀ c : Char, c.toNat < 128 → R.isDecimal c = Layers.isDigit c

section
variable (R : Runtime)

/-! ## list markers -/

/-- a character that ends digits and white space and is no part of a list marker -/
def Inert (c : Char) : Prop :=
  Text.isSpace c = false ∧ R.isDecimal c = false ∧ (c == '-' || c == '*' || c == '+') = false ∧
    (c == '.' || c == ')') = false

theorem takeWhile_stop {p : Char → Bool} {c d : Char} (hc : p c = false) (hd : p d = false) (x y z : Text) :
    (x ++ c :: y).takeWhile p = (x ++ d :: z).takeWhile p ∧ ((x ++ c :: y).takeWhile p).length ≤ x.length := by
  induction x with
  | nil =>
    rw [List.nil_append, List.nil_append, List.takeWhile_cons, List.takeWhile_cons, hc, hd]
    exact ⟨rfl, Nat.le_refl 0⟩
  | cons b x ih =>
    rw [List.cons_append, List.cons_append, List.takeWhile_cons, List.takeWhile_cons]
    cases p b with
    | true =>
      obtain ⟨heq, hle⟩ := ih
      rw [if_pos rfl, if_pos rfl, heq]
      rw [heq] at hle
      exact ⟨rfl, Nat.succ_le_succ hle⟩
    | false => exact ⟨rfl, Nat.zero_le _⟩

theorem blanks_stop {c d : Char} (hc : Inert R c) (hd : Inert R d) (k : ℕ) (x y z : Text) :
    blanks k (x ++ c :: y) = blanks k (x ++ d :: z) := by
  rw [blanks, blanks, (takeWhile_stop hc.1 hd.1 x y z).1]

theorem itemPrefix_stop {c d : Char} (hc : Inert R c) (hd : Inert R d) (x y z : Text) :
    itemPrefix R (x ++ c :: y) = itemPrefix R (x ++ d :: z) := by
  have hfirst : ∀ e u, Inert R e → itemPrefix R (e :: u) = none := by
    intro e u he
    have hdigits : (e :: u).takeWhile R.isDecimal = [] := by
      rw [List.takeWhile_cons, he.2.1]
      rfl
    rw [itemPrefix, he.2.2.1, if_neg Bool.false_ne_true, hdigits]
    rfl
  cases x with
  | nil => exact (hfirst c y hc).trans (hfirst d z hd).symm
  | cons b x =>
    obtain ⟨hdigits, hle⟩ := takeWhile_stop hc.2.1 hd.2.1 (b :: x) y z
    simp only [List.cons_append] at hdigits hle
    rw [List.cons_append, List.cons_append, itemPrefix, itemPrefix]
    cases hbullet : b == '-' || b == '*' || b == '+' with
    | true => exact blanks_stop R hc hd 1 x y z
    | false =>
      rw [if_neg Bool.false_ne_true, if_neg Bool.false_ne_true, ← hdigits]
      dsimp only
      generalize ((b :: (x ++ c :: y)).takeWhile R.isDecimal).length = k at hle ⊢
      have hdrop : ∀ e u, (b :: (x ++ e :: u)).drop k = (b :: x).drop k ++ e :: u := fun e u => by
        rw [← List.cons_append, List.drop_append_of_le_length hle]
      rw [hdrop, hdrop]
      cases (b :: x).drop k with
      | nil =>
        rw [List.nil_append, List.nil_append]
        show (if (_ && _ && (c == '.' || c == ')')) = true then _ else none) =
          if (_ && _ && (d == '.' || d == ')')) = true then _ else none
        rw [hc.2.2.2, hd.2.2.2, Bool.and_false, if_neg Bool.false_ne_true, if_neg Bool.false_ne_true]
      | cons e r =>
        rw [List.cons_append, List.cons_append]
        show (if _ then blanks _ _ else none) = if _ then blanks _ _ else none
        rw [blanks_stop R hc hd]

variable {R} in
theorem inert_of_digits (hd : AsciiDigits R) : Inert R '[' ∧ Inert R '\\' := by
  refine ⟨⟨rfl, ?_, rfl, rfl⟩, ⟨rfl, ?_, rfl, rfl⟩⟩
  · rw [hd '[' (by decide)]
    decide
  · rw [hd '\\' (by decide)]
    decide

variable {R} in
theorem itemPrefix_escape (hd : AsciiDigits R) (t : Text) :
    itemPrefix R (escapeMarkers t) = itemPrefix R t := by
  obtain ⟨hopen, hback⟩ := inert_of_digits hd
  have hfree : '[' ∉ t.takeWhile (· != '[') := fun h => absurd (List.mem_takeWhile_imp h) (by decide)
  have ht := List.takeWhile_append_dropWhile (p := (· != '[')) (l := t)
  cases hrest : t.dropWhile (· != '[') with
  | nil =>
    rw [hrest, List.append_nil] at ht
    have hsame := (cover_chars_append hfree []).2
    rw [List.append_nil, ht] at hsame
    rw [hsame, show escapeMarkers [] = [] from rfl, List.append_nil]
  | cons c y =>
    have hc : c = '[' := by
      have hhead := List.head?_dropWhile_not (· != '[') t
      rw [hrest] at hhead
      simpa using hhead
    subst hc
    rw [hrest] at ht
    rw [← ht, (cover_chars_append hfree ('[' :: y)).2]
    rcases cover_cases ('[' :: y) with hnil | ⟨name, u, hname, heq⟩ | ⟨d, u, hnone, heq⟩
    · exact nomatch hnil
    · rw [heq, escape_tag hname]
      have htag : tagText name ++ u = '[' :: ((tagText name).tail ++ u) := rfl
      rw [htag]
      exact itemPrefix_stop R hback hopen _ _ _
    · rw [heq, escape_char hnone]
      obtain ⟨rfl, -⟩ := List.cons.inj heq
      exact itemPrefix_stop R hopen hopen _ _ _

theorem blanks_spec {k n : ℕ} {t : Text} (h : blanks k t = some n) :
    ∃ w rest, t = w ++ rest ∧ n = k + w.length ∧ w ≠ [] ∧ Text.isBlank w = true := by
  unfold blanks at h
  dsimp only at h
  split at h
  · exact nomatch h
  · next hne =>
    refine ⟨_, _, List.takeWhile_append_dropWhile.symm, (Option.some.inj h).symm, ?_, ?_⟩
    · exact fun hnil => hne (by rw [hnil]; rfl)
    · exact Text.isBlank_iff.mpr fun c hc => List.mem_takeWhile_imp hc

variable {R} in
/-- a list marker has no bracket and ends in white space -/
theorem itemPrefix_spec (hd : AsciiDigits R) {t : Text} {n : ℕ} (h : itemPrefix R t = some n) :
    ∃ p rest, t = p ++ rest ∧ p.length = n ∧ '[' ∉ p ∧ p.getLast? ≠ some '\\' := by
  -- the marker itself and the white space after it
  have hmake : ∀ (m w rest : Text), '[' ∉ m → w ≠ [] → Text.isBlank w = true → t = m ++ (w ++ rest) →
      n = m.length + w.length →
      ∃ p rest, t = p ++ rest ∧ p.length = n ∧ '[' ∉ p ∧ p.getLast? ≠ some '\\' := by
    intro m w rest hm hw hblank ht hn
    refine ⟨m ++ w, rest, by rw [List.append_assoc, ht], by rw [List.length_append, hn], ?_, ?_⟩
    · exact fun hmem => (List.mem_append.mp hmem).elim hm (bracket_of_blank hblank).1
    · rw [List.getLast?_append_of_ne_nil _ hw]
      exact (bracket_of_blank hblank).2
  cases t with
  | nil => cases h
  | cons c rest =>
    rw [itemPrefix] at h
    split at h
    · next hbullet =>
      obtain ⟨w, r, rfl, hn, hw, hblank⟩ := blanks_spec h
      refine hmake [c] w r ?_ hw hblank rfl hn
      rintro hmem
      rw [← List.mem_singleton.mp hmem] at hbullet
      exact absurd hbullet (by decide)
    · dsimp only at h
      split at h
      · next d r hdrop =>
        split at h
        · next hdot =>
          obtain ⟨w, r', rfl, hn, hw, hblank⟩ := blanks_spec h
          have hpre := List.prefix_iff_eq_append.mp (List.takeWhile_prefix R.isDecimal (l := c :: rest))
          rw [hdrop] at hpre
          refine hmake ((c :: rest).takeWhile R.isDecimal ++ [d]) w r' ?_ hw hblank ?_ ?_
          · intro hmem
            rcases List.mem_append.mp hmem with hmem | hmem
            · have hdec := List.mem_takeWhile_imp hmem
              rw [hd '[' (by decide)] at hdec
              exact absurd hdec (by decide)
            · rw [Bool.and_eq_true, ← List.mem_singleton.mp hmem] at hdot
              exact absurd hdot.2 (by decide)
          · rw [List.append_assoc]
            exact hpre.symm
          · rw [hn, List.length_append]
            rfl
        · cases h
      · cases h

/-! ## units -/

/-- what a reader is to see of a unit: its layer's marker at the start of its text -/
def unitTokens (u : BodyUnit) : List Token :=
  if u.layer = Layers.PUBLIC ∨ u.kind = .callout then cover u.text
  else
    match itemPrefix R u.text with
    | some n => (u.text.take n).map .char ++ .tag u.layer :: cover (u.text.drop n)
    | none => .tag u.layer :: cover u.text

variable {R} in
theorem lex_marked (hd : AsciiDigits R) {u : BodyUnit}
    (hl : u.layer = Layers.PUBLIC ∨ Layers.matchesName u.layer = true) :
    lex (marked R u) = unitTokens R u := by
  by_cases h : u.layer = Layers.PUBLIC ∨ u.kind = .callout
  · rw [marked, unitTokens, if_pos h, if_pos h]
    exact lex_escapeMarkers u.text
  · have hname : Layers.matchesName u.layer = true := hl.resolve_left fun hp => h (Or.inl hp)
    rw [marked, unitTokens, if_neg h, if_neg h]
    dsimp only
    rw [← tagText_eq, itemPrefix_escape hd]
    cases hp : itemPrefix R u.text with
    | none =>
      show lex (tagText u.layer ++ escapeMarkers u.text) = _
      rw [lex_tag hname, lex_escapeMarkers]
    | some n =>
      obtain ⟨p, rest, htext, rfl, hopen, hlast⟩ := itemPrefix_spec hd hp
      rw [htext, (cover_chars_append hopen rest).2]
      dsimp only
      rw [List.take_left, List.drop_left, List.take_left, List.drop_left, List.append_assoc,
        lex_chars_append hopen hlast, lex_tag hname, lex_escapeMarkers]

variable {R} in
theorem stored_unitTokens (u : BodyUnit) : (unitTokens R u).flatMap Token.stored = u.text := by
  have hchars : ∀ s : Text, (s.map Token.char).flatMap Token.stored = s := fun s => by
    induction s with
    | nil => rfl
    | cons c s ih =>
      rw [List.map_cons, List.flatMap_cons, ih]
      rfl
  rw [unitTokens]
  split
  · exact stored_cover u.text
  · split
    · next n _ =>
      rw [List.flatMap_append, hchars, List.flatMap_cons, stored_cover]
      exact List.take_append_drop n u.text
    · rw [List.flatMap_cons, stored_cover]
      rfl

/-! ## pieces -/

/-- a line of a title or heading, or a unit -/
inductive Piece where
  | line (t : Text)
  | unit (u : BodyUnit)

/-- units with the line ends before each -/
def unitPieces (gap : ℕ) : List BodyUnit → List (ℕ × Piece)
  | [] => []
  | [u] => [(gap, .unit u)]
  | u :: v :: us => (gap, .unit u) :: unitPieces (if u.kind = .item ∧ v.kind = .item then 1 else 2) (v :: us)

def sectionPieces (s : BodySection) : List (ℕ × Piece) :=
  match s.heading with
  | some heading => if s.units.isEmpty then [] else (2, .line heading) :: unitPieces 1 s.units
  | none => unitPieces 2 s.units

/-- what is shown of a body, with the line ends before each piece -/
def pieces (b : Parsed) : List (ℕ × Piece) :=
  (if b.titleLine.isEmpty then [] else [(2, .line b.titleLine)]) ++ b.sections.flatMap sectionPieces

def Piece.text (mark : Bool) : Piece → Text
  | line t => t
  | unit u => unitText R mark u

def Piece.tokens : Piece → List Token
  | line t => t.map .char
  | unit u => unitTokens R u

def piecesText (mark : Bool) (ps : List (ℕ × Piece)) : Text :=
  ps.flatMap fun p => List.replicate p.1 '\n' ++ p.2.text R mark

def piecesTokens (ps : List (ℕ × Piece)) : List Token :=
  ps.flatMap fun p => List.replicate p.1 (.char '\n') ++ p.2.tokens R

/-- what a reader is to see of a body -/
def readTokens (b : Parsed) : List Token :=
  if (pieces b).isEmpty then [] else stripTokens (piecesTokens R (pieces b)) ++ [.char '\n']

/-! ## rendering -/

/-- a line that is not blank at either end -/
def Edged (t : Text) : Prop := (∃ c u, t = c :: u ∧ Text.isSpace c = false) ∧ Text.rstrip t = t

/-- what every body has that was read from stored text -/
structure Shape (b : Parsed) : Prop where
  title : b.titleLine = [] ∨ Edged b.titleLine
  headings : ∀ s ∈ b.sections, ∀ h, s.heading = some h → Edged h
  texts : ∀ s ∈ b.sections, ∀ u ∈ s.units, Text.isBlank u.text = false
  layers : ∀ s ∈ b.sections, ∀ u ∈ s.units, u.layer = Layers.PUBLIC ∨ Layers.matchesName u.layer = true

theorem mem_escapeFrom (k : ℕ) {t : Text} {c : Char} (h : c ∈ t) : c ∈ escapeFrom k t := by
  induction t generalizing k with
  | nil => exact absurd h List.not_mem_nil
  | cons d t ih =>
    have hrest : ∀ j, c ∈ d :: escapeFrom j t := fun j => by
      rcases List.mem_cons.mp h with rfl | h
      · exact List.mem_cons_self
      · exact List.mem_cons_of_mem d (ih j h)
    cases k with
    | succ k => exact hrest k
    | zero =>
      rw [escapeFrom]
      split
      · exact List.mem_cons_of_mem _ (hrest _)
      · exact hrest 0

theorem not_blank_of_mem {s t : Text} (h : Text.isBlank s = false) (hsub : ∀ c ∈ s, c ∈ t) :
    Text.isBlank t = false := by
  rw [Bool.eq_false_iff]
  intro ht
  rw [Text.isBlank_iff.mpr fun c hc => Text.isBlank_iff.mp ht c (hsub c hc)] at h
  exact Bool.noConfusion h

theorem not_blank_unitText {u : BodyUnit} (h : Text.isBlank u.text = false) (mark : Bool) :
    Text.isBlank (unitText R mark u) = false := by
  cases mark with
  | false => exact h
  | true =>
    refine not_blank_of_mem h fun c hc => ?_
    have hmem := mem_escapeFrom 0 hc
    show c ∈ marked R u
    rw [marked]
    split
    · exact hmem
    · dsimp only
      split
      · next n _ =>
        have hsplit : c ∈ (escapeMarkers u.text).take n ++ (escapeMarkers u.text).drop n := by
          rw [List.take_append_drop]
          exact hmem
        rw [List.mem_append, List.mem_append]
        exact (List.mem_append.mp hsplit).imp_left Or.inl
      · exact List.mem_append_right _ hmem

theorem joinUnits_pieces (mark : Bool) (gap : ℕ) {us : List BodyUnit} (h : us ≠ []) :
    piecesText R mark (unitPieces gap us) = List.replicate gap '\n' ++ joinUnits R mark us := by
  induction us generalizing gap with
  | nil => exact absurd rfl h
  | cons u us ih =>
    cases us with
    | nil => exact List.append_nil _
    | cons v us =>
      have hrest := ih (if u.kind = .item ∧ v.kind = .item then 1 else 2) (List.cons_ne_nil v us)
      show _ ++ piecesText R mark (unitPieces _ (v :: us)) = _
      rw [hrest, joinUnits, List.append_assoc, List.append_assoc]
      split
      · rfl
      · rfl

theorem joinUnits_ne_nil (mark : Bool) {us : List BodyUnit} (h : us ≠ [])
    (ht : ∀ u ∈ us, Text.isBlank u.text = false) : joinUnits R mark us ≠ [] := by
  cases us with
  | nil => exact absurd rfl h
  | cons u us =>
    have hne := Text.ne_nil_of_not_blank (not_blank_unitText R (ht u List.mem_cons_self) mark)
    cases us with
    | nil => exact hne
    | cons v us => exact List.append_ne_nil_of_left_ne_nil (List.append_ne_nil_of_left_ne_nil hne _) _

/-- a section that is shown is its pieces -/
theorem renderSection_pieces (mark : Bool) {s : BodySection} (ht : ∀ u ∈ s.units, Text.isBlank u.text = false) :
    (renderSection R mark s = none ∧ sectionPieces s = []) ∨ ∃ t, renderSection R mark s = some t ∧
      sectionPieces s ≠ [] ∧ piecesText R mark (sectionPieces s) = '\n' :: '\n' :: t := by
  obtain ⟨heading, units⟩ := s
  cases units with
  | nil =>
    cases heading with
    | none => exact Or.inl ⟨rfl, rfl⟩
    | some heading => exact Or.inl ⟨rfl, rfl⟩
  | cons u us =>
    have hne := joinUnits_ne_nil R mark (List.cons_ne_nil u us) ht
    have hempty : (joinUnits R mark (u :: us)).isEmpty = false := List.isEmpty_eq_false_iff.mpr hne
    refine Or.inr ?_
    cases heading with
    | none =>
      refine ⟨joinUnits R mark (u :: us), ?_, ?_, joinUnits_pieces R mark 2 (List.cons_ne_nil u us)⟩
      · show (if (joinUnits R mark (u :: us)).isEmpty then none else some _) = _
        rw [hempty, if_neg Bool.false_ne_true]
      · cases us with
        | nil => exact List.cons_ne_nil _ _
        | cons v us => exact List.cons_ne_nil _ _
    | some heading =>
      refine ⟨heading ++ '\n' :: joinUnits R mark (u :: us), ?_, List.cons_ne_nil _ _, ?_⟩
      · show some (if (joinUnits R mark (u :: us)).isEmpty then _ else _) = _
        rw [hempty, if_neg Bool.false_ne_true]
      · show ('\n' :: '\n' :: heading) ++ piecesText R mark (unitPieces 1 (u :: us)) = _
        rw [joinUnits_pieces R mark 1 (List.cons_ne_nil u us)]
        rfl

theorem piecesText_append (mark : Bool) (ps qs : List (ℕ × Piece)) :
    piecesText R mark (ps ++ qs) = piecesText R mark ps ++ piecesText R mark qs := List.flatMap_append

theorem piecesTokens_append (ps qs : List (ℕ × Piece)) :
    piecesTokens R (ps ++ qs) = piecesTokens R ps ++ piecesTokens R qs := List.flatMap_append

theorem flatMap_newlines {parts : List Text} (h : parts ≠ []) :
    parts.flatMap (fun t => '\n' :: '\n' :: t) = '\n' :: '\n' :: ['\n', '\n'].intercalate parts := by
  induction parts with
  | nil => exact absurd rfl h
  | cons t parts ih =>
    cases parts with
    | nil => rw [List.flatMap_singleton, List.intercalate_singleton]
    | cons t' parts =>
      rw [List.flatMap_cons, ih (List.cons_ne_nil t' parts), List.intercalate_cons_cons]
      simp only [List.cons_append, List.append_assoc, List.nil_append]

theorem sections_pieces (mark : Bool) {ss : List BodySection}
    (ht : ∀ s ∈ ss, ∀ u ∈ s.units, Text.isBlank u.text = false) :
    piecesText R mark (ss.flatMap sectionPieces) =
      (ss.filterMap (renderSection R mark)).flatMap (fun t => '\n' :: '\n' :: t) ∧
        (ss.flatMap sectionPieces = [] ↔ ss.filterMap (renderSection R mark) = []) := by
  induction ss with
  | nil => exact ⟨rfl, fun _ => rfl, fun _ => rfl⟩
  | cons s ss ih =>
    obtain ⟨htext, hnil⟩ := ih fun s' hs' => ht s' (List.mem_cons_of_mem s hs')
    rw [List.flatMap_cons, List.filterMap_cons, piecesText_append, htext]
    rcases renderSection_pieces R mark (ht s List.mem_cons_self) with ⟨hrender, hps⟩ | ⟨t, hrender, hne, hps⟩
    · rw [hrender, hps]
      exact ⟨rfl, hnil⟩
    · rw [hrender, hps]
      exact ⟨rfl, fun h => absurd (List.append_eq_nil_iff.mp h).1 hne, fun h => nomatch h⟩

/-- a rendered body is its pieces, stripped -/
theorem renderBody_eq (mark : Bool) {b : Parsed} (h : Shape b) : renderBody R mark b =
    if (pieces b).isEmpty then [] else Text.strip (piecesText R mark (pieces b)) ++ ['\n'] := by
  obtain ⟨htext, hnil⟩ := sections_pieces R mark h.texts
  have hparts : piecesText R mark (pieces b) = ((if b.titleLine.isEmpty then [] else [b.titleLine]) ++
      b.sections.filterMap (renderSection R mark)).flatMap (fun t => '\n' :: '\n' :: t) ∧
      ((pieces b).isEmpty = ((if b.titleLine.isEmpty then [] else [b.titleLine]) ++
        b.sections.filterMap (renderSection R mark)).isEmpty) := by
    rw [pieces, piecesText_append, htext]
    split
    · refine ⟨rfl, ?_⟩
      rw [List.nil_append, List.nil_append, Bool.eq_iff_iff, List.isEmpty_iff, List.isEmpty_iff]
      exact hnil
    · exact ⟨by simp only [List.flatMap_append]; rfl, rfl⟩
  obtain ⟨hjoin, hempty⟩ := hparts
  rw [renderBody, hjoin, hempty]
  generalize (if b.titleLine.isEmpty then [] else [b.titleLine]) ++
    b.sections.filterMap (renderSection R mark) = parts
  split
  · rfl
  · next hne =>
    have hblank : Text.isBlank ['\n', '\n'] = true := rfl
    have hstrip := Text.lstrip_append_of_blank (t := ['\n', '\n'].intercalate parts) hblank
    rw [flatMap_newlines fun hnil => hne (by rw [hnil]; rfl), Text.strip, Text.strip, ← hstrip]
    rfl

/-! ## reading pieces -/

theorem unitPieces_gap {gap : ℕ} (hgap : 1 ≤ gap) (us : List BodyUnit) :
    ∀ p ∈ unitPieces gap us, 1 ≤ p.1 := by
  induction us generalizing gap with
  | nil => exact fun p hp => absurd hp List.not_mem_nil
  | cons u us ih =>
    cases us with
    | nil =>
      intro p hp
      rw [List.mem_singleton.mp hp]
      exact hgap
    | cons v us =>
      intro p hp
      rcases List.mem_cons.mp hp with rfl | hp
      · exact hgap
      · refine ih ?_ p hp
        split
        · exact Nat.le_refl 1
        · exact Nat.le_succ 1

theorem mem_unitPieces {gap : ℕ} {us : List BodyUnit} {p : ℕ × Piece} (hp : p ∈ unitPieces gap us) :
    ∃ u ∈ us, p.2 = .unit u := by
  induction us generalizing gap with
  | nil => exact absurd hp List.not_mem_nil
  | cons u us ih =>
    cases us with
    | nil =>
      rw [List.mem_singleton.mp hp]
      exact ⟨u, List.mem_cons_self, rfl⟩
    | cons v us =>
      rcases List.mem_cons.mp hp with rfl | hp
      · exact ⟨u, List.mem_cons_self, rfl⟩
      · obtain ⟨w, hw, heq⟩ := ih hp
        exact ⟨w, List.mem_cons_of_mem u hw, heq⟩

/-- the titles and headings that are shown -/
def Shown (b : Parsed) (t : Text) : Prop :=
  (t = b.titleLine ∧ t ≠ []) ∨ ∃ s ∈ b.sections, s.heading = some t ∧ s.units ≠ []

theorem pieces_gap (b : Parsed) : ∀ p ∈ pieces b, 1 ≤ p.1 := by
  intro p hp
  rcases List.mem_append.mp hp with hp | hp
  · split at hp
    · exact absurd hp List.not_mem_nil
    · rw [List.mem_singleton.mp hp]
      exact Nat.le_succ 1
  · obtain ⟨s, -, hp⟩ := List.mem_flatMap.mp hp
    rw [sectionPieces] at hp
    split at hp
    · split at hp
      · exact absurd hp List.not_mem_nil
      · rcases List.mem_cons.mp hp with rfl | hp
        · exact Nat.le_succ 1
        · exact unitPieces_gap (Nat.le_refl 1) _ p hp
    · exact unitPieces_gap (Nat.le_succ 1) _ p hp

theorem mem_pieces {b : Parsed} {p : ℕ × Piece} (hp : p ∈ pieces b) :
    (∃ t, p.2 = .line t ∧ Shown b t) ∨ ∃ s ∈ b.sections, ∃ u ∈ s.units, p.2 = .unit u := by
  rcases List.mem_append.mp hp with hp | hp
  · split at hp
    · exact absurd hp List.not_mem_nil
    · next hne =>
      rw [List.mem_singleton.mp hp]
      exact Or.inl ⟨b.titleLine, rfl, Or.inl ⟨rfl, fun hnil => hne (by rw [hnil]; rfl)⟩⟩
  · obtain ⟨s, hs, hp⟩ := List.mem_flatMap.mp hp
    rw [sectionPieces] at hp
    split at hp
    · next heading hheading =>
      split at hp
      · exact absurd hp List.not_mem_nil
      · next hne =>
        rcases List.mem_cons.mp hp with rfl | hp
        · exact Or.inl ⟨heading, rfl, Or.inr ⟨s, hs, hheading, fun hnil => hne (by rw [hnil]; rfl)⟩⟩
        · exact Or.inr ⟨s, hs, mem_unitPieces hp⟩
    · exact Or.inr ⟨s, hs, mem_unitPieces hp⟩

theorem line_mem_pieces {b : Parsed} {t : Text} (h : Shown b t) : (2, .line t) ∈ pieces b := by
  rcases h with ⟨rfl, hne⟩ | ⟨s, hs, hheading, hne⟩
  · refine List.mem_append_left _ ?_
    rw [if_neg fun he => hne (List.isEmpty_iff.mp he)]
    exact List.mem_singleton_self _
  · refine List.mem_append_right _ (List.mem_flatMap.mpr ⟨s, hs, ?_⟩)
    rw [sectionPieces, hheading]
    dsimp only
    rw [if_neg fun he => hne (List.isEmpty_iff.mp he)]
    exact List.mem_cons_self

theorem lex_newline (t : Text) : lex ('\n' :: t) = .char '\n' :: lex t := lex_append_newline [] t

theorem lex_newlines (n : ℕ) (t : Text) :
    lex (List.replicate n '\n' ++ t) = List.replicate n (.char '\n') ++ lex t := by
  induction n with
  | zero => rfl
  | succ n ih =>
    rw [List.replicate_succ, List.replicate_succ, List.cons_append, List.cons_append, lex_newline, ih]

/-- pieces are read one by one, after anything -/
theorem lex_pieces (mark : Bool) {ps : List (ℕ × Piece)}
    (h : ∀ p ∈ ps, 1 ≤ p.1 ∧ lex (p.2.text R mark) = p.2.tokens R) (s : Text) :
    lex (s ++ piecesText R mark ps) = lex s ++ piecesTokens R ps := by
  induction ps generalizing s with
  | nil =>
    show lex (s ++ []) = lex s ++ []
    rw [List.append_nil, List.append_nil]
  | cons p ps ih =>
    have hrest := ih fun q hq => h q (List.mem_cons_of_mem p hq)
    obtain ⟨hgap, hlex⟩ := h p List.mem_cons_self
    obtain ⟨n, hn⟩ := Nat.exists_eq_add_of_le' hgap
    show lex (s ++ (List.replicate p.1 '\n' ++ p.2.text R mark ++ piecesText R mark ps)) =
      lex s ++ (List.replicate p.1 (.char '\n') ++ p.2.tokens R ++ piecesTokens R ps)
    rw [hn, List.replicate_succ, List.replicate_succ, List.cons_append, List.cons_append,
      lex_append_newline, hrest, lex_newlines, hlex]
    rfl

theorem piecesTokens_head {ps : List (ℕ × Piece)} (h : ∀ p ∈ ps, 1 ≤ p.1) :
    ps = [] ∨ ∃ ts, piecesTokens R ps = .char '\n' :: ts := by
  cases ps with
  | nil => exact Or.inl rfl
  | cons p ps =>
    obtain ⟨n, hn⟩ := Nat.exists_eq_add_of_le' (h p List.mem_cons_self)
    refine Or.inr ⟨List.replicate n (.char '\n') ++ p.2.tokens R ++ piecesTokens R ps, ?_⟩
    show List.replicate p.1 (.char '\n') ++ p.2.tokens R ++ piecesTokens R ps = _
    rw [hn, List.replicate_succ]
    rfl

theorem dropWhile_append_cons {as bs : List Token} {k : Token} (h : k.isBlank = false) :
    (as ++ k :: bs).dropWhile Token.isBlank = as.dropWhile Token.isBlank ++ k :: bs := by
  induction as with
  | nil => rw [List.nil_append, List.dropWhile_cons, h, if_neg Bool.false_ne_true]; rfl
  | cons a as ih =>
    rw [List.cons_append, List.dropWhile_cons, List.dropWhile_cons, ih]
    split
    · rfl
    · rfl

theorem rdropWhile_append_cons {as bs : List Token} {k : Token} (h : k.isBlank = false) :
    (as ++ k :: bs).rdropWhile Token.isBlank = as ++ k :: bs.rdropWhile Token.isBlank := by
  have hreverse : (as ++ k :: bs).reverse = bs.reverse ++ k :: as.reverse := by
    rw [List.reverse_append, List.reverse_cons, List.append_assoc]
    rfl
  rw [List.rdropWhile, hreverse, dropWhile_append_cons h, List.reverse_append, List.reverse_cons,
    List.reverse_reverse, List.append_assoc]
  rfl

theorem stripTokens_line (as : List Token) {bs : List Token} {t : Text} (ht : Edged t)
    (hb : bs = [] ∨ ∃ cs, bs = .char '\n' :: cs) :
    ∃ as' bs', stripTokens (as ++ (t.map .char ++ bs)) = as' ++ (t.map .char ++ bs') ∧
      (bs' = [] ∨ ∃ cs, bs' = .char '\n' :: cs) := by
  obtain ⟨⟨c, u, rfl, hc⟩, hlast⟩ := ht
  refine ⟨as.dropWhile Token.isBlank, bs.rdropWhile Token.isBlank, ?_, ?_⟩
  · have hne : c :: u ≠ [] := List.cons_ne_nil c u
    have hfirst : (Token.char c).isBlank = false := hc
    have hend : (Token.char ((c :: u).getLast hne)).isBlank = false :=
      Bool.eq_false_iff.mpr (List.rdropWhile_eq_self_iff.mp hlast hne)
    have hcut : ∀ ts, (c :: u).map Token.char ++ ts =
        (c :: u).dropLast.map Token.char ++ Token.char ((c :: u).getLast hne) :: ts := fun ts => by
      conv_lhs => rw [← List.dropLast_append_getLast hne]
      rw [List.map_append, List.append_assoc]
      rfl
    rw [stripTokens, List.map_cons, List.cons_append, dropWhile_append_cons hfirst, ← List.cons_append,
      ← List.map_cons, hcut, hcut, ← List.append_assoc, rdropWhile_append_cons hend, List.append_assoc]
  · rcases hb with rfl | ⟨cs, rfl⟩
    · exact Or.inl rfl
    · have hpre : (Token.char '\n' :: cs).rdropWhile Token.isBlank <+: Token.char '\n' :: cs :=
        List.rdropWhile_prefix _ _
      cases hdrop : (Token.char '\n' :: cs).rdropWhile Token.isBlank with
      | nil => exact Or.inl rfl
      | cons k ks =>
        rw [hdrop] at hpre
        exact Or.inr ⟨ks, by rw [(List.cons_prefix_cons.mp hpre).1]⟩

/-- a line that is shown is read as it is when the whole is -/
theorem lex_line {b : Parsed} {t : Text} (h : Shown b t) (ht : Edged t)
    (hlex : lex (flat (stripTokens (piecesTokens R (pieces b)))) = stripTokens (piecesTokens R (pieces b))) :
    lex t = t.map .char := by
  obtain ⟨ps, qs, hps⟩ := List.append_of_mem (line_mem_pieces h)
  have hgap : ∀ q ∈ qs, 1 ≤ q.1 := fun q hq => pieces_gap b q (by
    rw [hps]
    exact List.mem_append_right ps (List.mem_cons_of_mem _ hq))
  have hsplit : piecesTokens R (pieces b) =
      (piecesTokens R ps ++ [.char '\n', .char '\n']) ++ (t.map .char ++ piecesTokens R qs) := by
    rw [hps, piecesTokens_append, List.append_assoc]
    rfl
  have hnext : piecesTokens R qs = [] ∨ ∃ cs, piecesTokens R qs = .char '\n' :: cs := by
    rcases piecesTokens_head R hgap with rfl | hcs
    · exact Or.inl rfl
    · exact Or.inr hcs
  obtain ⟨as', bs', hstrip, hbs⟩ :=
    stripTokens_line (piecesTokens R ps ++ [.char '\n', .char '\n']) ht hnext
  rw [hsplit, hstrip] at hlex
  have hrest := lex_flat_suffix hlex
  rcases hbs with rfl | ⟨cs, rfl⟩
  · rw [List.append_nil, flat_chars] at hrest
    exact hrest
  · have hline := lex_of_newline hrest
    rw [flat_chars] at hline
    exact hline

/-! ## the last unit -/

def lastUnit (b : Parsed) : Option BodyUnit := (b.sections.flatMap BodySection.units).getLast?

theorem unitPieces_last {us : List BodyUnit} {u : BodyUnit} (h : us.getLast? = some u) (gap : ℕ) :
    ∃ ps k, unitPieces gap us = ps ++ [(k, .unit u)] := by
  induction us generalizing gap with
  | nil => exact nomatch h
  | cons v us ih =>
    cases us with
    | nil =>
      obtain rfl := Option.some.inj h
      exact ⟨[], gap, rfl⟩
    | cons w us =>
      obtain ⟨ps, k, hps⟩ := ih h (if v.kind = .item ∧ w.kind = .item then 1 else 2)
      exact ⟨(gap, .unit v) :: ps, k, congrArg ((gap, Piece.unit v) :: ·) hps⟩

theorem sectionPieces_last {s : BodySection} {u : BodyUnit} (h : s.units.getLast? = some u) :
    ∃ ps k, sectionPieces s = ps ++ [(k, .unit u)] := by
  rw [sectionPieces]
  split
  · next heading _ =>
    obtain ⟨ps, k, hps⟩ := unitPieces_last h 1
    split
    · next hnil =>
      rw [List.isEmpty_iff.mp hnil] at h
      exact nomatch h
    · exact ⟨(2, .line heading) :: ps, k, congrArg ((2, Piece.line heading) :: ·) hps⟩
  · exact unitPieces_last h 2

theorem sectionPieces_nil {s : BodySection} (h : s.units = []) : sectionPieces s = [] := by
  rw [sectionPieces, h]
  split
  · rfl
  · rfl

/-- the last unit is the last piece; without units there are no sections to show -/
theorem sections_last (ss : List BodySection) :
    (∀ u, (ss.flatMap BodySection.units).getLast? = some u →
      ∃ ps k, ss.flatMap sectionPieces = ps ++ [(k, .unit u)]) ∧
    (ss.flatMap BodySection.units = [] → ss.flatMap sectionPieces = []) := by
  induction ss with
  | nil => exact ⟨nofun, fun _ => rfl⟩
  | cons s ss ih =>
    rw [List.flatMap_cons, List.flatMap_cons]
    refine ⟨fun u hu => ?_, fun h => ?_⟩
    · by_cases hrest : ss.flatMap BodySection.units = []
      · rw [hrest, List.append_nil] at hu
        rw [ih.2 hrest, List.append_nil]
        exact sectionPieces_last hu
      · rw [List.getLast?_append_of_ne_nil _ hrest] at hu
        obtain ⟨ps, k, hps⟩ := ih.1 u hu
        exact ⟨sectionPieces s ++ ps, k, by rw [hps, List.append_assoc]⟩
    · obtain ⟨hs, hss⟩ := List.append_eq_nil_iff.mp h
      rw [sectionPieces_nil hs, ih.2 hss]
      rfl

theorem not_endsInMarker_nil : ¬EndsInMarker [] := by
  rintro ⟨x, name, w, -, -, h⟩
  exact nomatch (List.append_eq_nil_iff.mp h.symm).2

theorem not_endsInMarker_edged {t : Text} (h : Edged t) : ¬EndsInMarker t := by
  rintro ⟨x, name, w, -, hw, rfl⟩
  have hblank : Text.isBlank (' ' :: w) = true := hw
  have hshape : x ++ (tagText name ++ w) =
      (x ++ '[' :: 'l' :: 'a' :: 'y' :: 'e' :: 'r' :: ':' :: (name ++ [']'])) ++ ' ' :: w := by
    simp only [tagText, List.cons_append, List.append_assoc, List.nil_append]
  have hstrip := h.2
  rw [hshape, Text.rstrip_append_blank hblank] at hstrip
  have hle := (Text.rstrip_prefix
    (x ++ '[' :: 'l' :: 'a' :: 'y' :: 'e' :: 'r' :: ':' :: (name ++ [']']))).length_le
  rw [hstrip] at hle
  simp only [List.length_append, List.length_cons] at hle
  omega

theorem endsInMarker_pieces {b : Parsed} (h : Shape b) : EndsInMarker (piecesText R true (pieces b)) ↔
    ∃ u, lastUnit b = some u ∧ EndsInMarker (marked R u) := by
  obtain ⟨hlast, hnone⟩ := sections_last b.sections
  cases hu : lastUnit b with
  | none =>
    have hempty : b.sections.flatMap BodySection.units = [] := List.getLast?_eq_none_iff.mp hu
    refine ⟨fun he => ?_, fun ⟨u, hne, _⟩ => nomatch hne⟩
    rw [pieces, hnone hempty, List.append_nil] at he
    split at he
    · exact absurd he not_endsInMarker_nil
    · next hne =>
      have htitle : Edged b.titleLine := h.title.resolve_left fun hnil => hne (by rw [hnil]; rfl)
      have hone : piecesText R true [(2, .line b.titleLine)] = ['\n'] ++ '\n' :: b.titleLine :=
        List.append_nil _
      have hblank : Text.isBlank b.titleLine = false := by
        obtain ⟨⟨c, u, hcu, hc⟩, -⟩ := htitle
        rw [hcu]
        exact Text.not_blank_cons hc u
      rw [hone, endsInMarker_append_newline _ hblank] at he
      exact absurd he (not_endsInMarker_edged htitle)
  | some u =>
    obtain ⟨ps, k, hps⟩ := hlast u hu
    have hmem : u ∈ b.sections.flatMap BodySection.units := List.mem_of_getLast? hu
    obtain ⟨s, hs, hus⟩ := List.mem_flatMap.mp hmem
    have hblank : Text.isBlank (marked R u) = false := not_blank_unitText R (h.texts s hs u hus) true
    have hk : 1 ≤ k := pieces_gap b (k, .unit u) (by
      rw [pieces, hps]
      exact List.mem_append_right _ (List.mem_append_right _ List.mem_cons_self))
    obtain ⟨n, hn⟩ := Nat.exists_eq_add_of_le' hk
    have hshape : ∃ y, piecesText R true (pieces b) = y ++ '\n' :: marked R u := by
      refine ⟨piecesText R true ((if b.titleLine.isEmpty then [] else [(2, .line b.titleLine)]) ++ ps) ++
        List.replicate n '\n', ?_⟩
      rw [pieces, hps, ← List.append_assoc, piecesText_append, hn, List.append_assoc]
      congr 1
      show List.replicate (n + 1) '\n' ++ marked R u ++ [] = _
      rw [List.append_nil, List.replicate_succ', List.append_assoc]
      rfl
    obtain ⟨y, hy⟩ := hshape
    rw [hy, endsInMarker_append_newline y hblank]
    exact ⟨fun he => ⟨u, rfl, he⟩, fun ⟨v, hv, he⟩ => by
      rw [Option.some.inj hv]
      exact he⟩

/-! ## stored text -/

theorem blank_tokens {ts : List Token} (h : ∀ k ∈ ts, k.isBlank = true) :
    ∃ w : Text, ts = w.map .char ∧ Text.isBlank w = true := by
  induction ts with
  | nil => exact ⟨[], rfl, rfl⟩
  | cons k ts ih =>
    obtain ⟨w, rfl, hw⟩ := ih fun k' hk' => h k' (List.mem_cons_of_mem k hk')
    have hk := h k List.mem_cons_self
    cases k with
    | char c =>
      refine ⟨c :: w, rfl, Text.isBlank_iff.mpr fun d hd => ?_⟩
      rcases List.mem_cons.mp hd with rfl | hd
      · exact hk
      · exact Text.isBlank_iff.mp hw d hd
    | escaped name => exact Bool.noConfusion hk
    | tag name => exact Bool.noConfusion hk

theorem stripTokens_append (ts : List Token) : ∃ w v : Text, Text.isBlank w = true ∧ Text.isBlank v = true ∧
    ts = w.map .char ++ (stripTokens ts ++ v.map .char) := by
  have hfront : ∀ k ∈ ts.takeWhile Token.isBlank, k.isBlank = true := fun k hk => List.mem_takeWhile_imp hk
  have hback : ∀ k ∈ (ts.dropWhile Token.isBlank).rtakeWhile Token.isBlank, k.isBlank = true :=
    fun k hk => List.mem_rtakeWhile_imp hk
  obtain ⟨w, hw, hblank⟩ := blank_tokens hfront
  obtain ⟨v, hv, hblank'⟩ := blank_tokens hback
  refine ⟨w, v, hblank, hblank', ?_⟩
  rw [← hv, stripTokens, List.rdropWhile_append_rtakeWhile, ← hw, List.takeWhile_append_dropWhile]

theorem stored_chars (s : Text) : (s.map Token.char).flatMap Token.stored = s := by
  induction s with
  | nil => rfl
  | cons c s ih =>
    rw [List.map_cons, List.flatMap_cons, ih]
    rfl

theorem strip_append_blank {t w : Text} (h : Text.isBlank w = true) : Text.strip (t ++ w) = Text.strip t := by
  rw [← Text.strip_rstrip (t ++ w), Text.rstrip_append_blank h, Text.strip_rstrip]

theorem strip_blank_append {t w : Text} (h : Text.isBlank w = true) : Text.strip (w ++ t) = Text.strip t := by
  rw [Text.strip, Text.lstrip_append_of_blank h, Text.strip]

theorem stored_stripTokens (ts : List Token) :
    Text.strip ((stripTokens ts).flatMap Token.stored) = Text.strip (ts.flatMap Token.stored) := by
  obtain ⟨w, v, hw, hv, hts⟩ := stripTokens_append ts
  conv_rhs => rw [hts]
  rw [List.flatMap_append, List.flatMap_append, stored_chars, stored_chars, strip_blank_append hw,
    strip_append_blank hv]

theorem stored_pieces (ps : List (ℕ × Piece)) :
    (piecesTokens R ps).flatMap Token.stored = piecesText R false ps := by
  induction ps with
  | nil => rfl
  | cons p ps ih =>
    have hlines : (List.replicate p.1 (Token.char '\n')).flatMap Token.stored = List.replicate p.1 '\n' := by
      rw [← List.map_replicate, stored_chars]
    have hpiece : (p.2.tokens R).flatMap Token.stored = p.2.text R false := by
      cases p.2 with
      | line t => exact stored_chars t
      | unit u => exact stored_unitTokens u
    show (List.replicate p.1 (Token.char '\n') ++ p.2.tokens R ++ piecesTokens R ps).flatMap Token.stored =
      List.replicate p.1 '\n' ++ p.2.text R false ++ piecesText R false ps
    rw [List.flatMap_append, List.flatMap_append, hlines, hpiece, ih]

theorem not_tag_cover (t name : Text) : .tag name ∉ cover t := by
  induction hn : t.length using Nat.strong_induction_on generalizing t with
  | _ n ih =>
    subst hn
    rcases cover_cases t with rfl | ⟨m, u, hm, rfl⟩ | ⟨c, u, hc, rfl⟩
    · exact List.not_mem_nil
    · rw [cover_tag hm]
      intro hmem
      rcases List.mem_cons.mp hmem with heq | hmem
      · exact nomatch heq
      · exact ih u.length (by rw [List.length_append, length_tagText]; omega) u rfl hmem
    · rw [cover_char hc]
      intro hmem
      rcases List.mem_cons.mp hmem with heq | hmem
      · exact nomatch heq
      · exact ih u.length (Nat.lt_succ_self _) u rfl hmem

/-! ## bodies -/

/-- what a reader can tell of a fused body: whose the units are, and the text that was stored -/
structure Unforged (b : Parsed) (out : Text) : Prop where
  marks : lex out = readTokens R b
  stored : Text.strip ((lex out).flatMap Token.stored) = Text.strip (renderBody R false b)

variable {R} in
theorem stored_of_marks {b : Parsed} (h : Shape b) {out : Text} (hmarks : lex out = readTokens R b) :
    Text.strip ((lex out).flatMap Token.stored) = Text.strip (renderBody R false b) := by
  rw [hmarks, readTokens, renderBody_eq R false h]
  split
  · rfl
  · have hnewline : Text.isBlank ['\n'] = true := rfl
    rw [List.flatMap_append, strip_append_blank hnewline]
    show Text.strip ((stripTokens (piecesTokens R (pieces b))).flatMap Token.stored ++ ['\n']) = _
    rw [strip_append_blank hnewline, stored_stripTokens, stored_pieces, Text.strip_strip]

variable {R} in
theorem lex_shown {b : Parsed} (hd : AsciiDigits R) (h : Shape b) (hlines : ∀ t, Shown b t → NoMarker t) :
    lex (piecesText R true (pieces b)) = piecesTokens R (pieces b) := by
  refine lex_pieces R true (fun p hp => ⟨pieces_gap b p hp, ?_⟩) []
  rcases mem_pieces hp with ⟨t, heq, ht⟩ | ⟨s, hs, u, hu, heq⟩
  · rw [heq]
    exact lex_chars_iff.mpr (hlines t ht)
  · rw [heq]
    exact lex_marked hd (h.layers s hs u hu)

variable {R} in
theorem edged_of_shown {b : Parsed} (h : Shape b) {t : Text} (ht : Shown b t) : Edged t := by
  rcases ht with ⟨rfl, hne⟩ | ⟨s, hs, hheading, -⟩
  · exact h.title.resolve_left hne
  · exact h.headings s hs t hheading

variable {R} in
/-- a body is read as it was fused exactly when no line shown has a marker and the end cuts none -/
theorem unforged_renderBody (hd : AsciiDigits R) {b : Parsed} (h : Shape b) :
    Unforged R b (renderBody R true b) ↔
      (∀ t, Shown b t → NoMarker t) ∧ ∀ u, lastUnit b = some u → ¬EndsInMarker (marked R u) := by
  have hends : (∀ u, lastUnit b = some u → ¬EndsInMarker (marked R u)) ↔
      ¬EndsInMarker (piecesText R true (pieces b)) := by
    rw [endsInMarker_pieces R h]
    exact ⟨fun hall ⟨u, hu, he⟩ => hall u hu he, fun hno u hu he => hno ⟨u, hu, he⟩⟩
  have hmarks : lex (renderBody R true b) = readTokens R b ↔
      lex (Text.strip (piecesText R true (pieces b))) = stripTokens (piecesTokens R (pieces b)) := by
    rw [renderBody_eq R true h, readTokens]
    by_cases hnil : pieces b = []
    · rw [hnil]
      exact ⟨fun _ => rfl, fun _ => rfl⟩
    · rw [if_neg fun he => hnil (List.isEmpty_iff.mp he), if_neg fun he => hnil (List.isEmpty_iff.mp he),
        lex_append_newline, lex_nil]
      exact List.append_left_inj _
  constructor
  · intro hun
    have hlex := hmarks.mp hun.marks
    have hflat : lex (flat (stripTokens (piecesTokens R (pieces b)))) =
        stripTokens (piecesTokens R (pieces b)) := by
      rw [← hlex, flat_lex]
    have hlines : ∀ t, Shown b t → NoMarker t := fun t ht =>
      lex_chars_iff.mp (lex_line R ht (edged_of_shown h ht) hflat)
    refine ⟨hlines, hends.mpr ?_⟩
    rw [← lex_shown hd h hlines] at hlex
    exact (lex_strip _).mp hlex
  · rintro ⟨hlines, hlast⟩
    have hlex := (lex_strip _).mpr (hends.mp hlast)
    rw [lex_shown hd h hlines] at hlex
    exact ⟨hmarks.mpr hlex, stored_of_marks h (hmarks.mpr hlex)⟩

/-! ## bodies read from stored text -/

/-- every unit so far is one of the layer -/
def Parser.OfLayer (p : Parser) (layer : Text) : Prop :=
  p.layer = layer ∧ ∀ s ∈ p.sections ++ [p.last], ∀ u ∈ s.units, u.layer = layer

variable {R} in
theorem ofLayer_add {p q : Parser} {layer : Text} (h : p.OfLayer layer) (hl : q.layer = p.layer)
    (hs : q.sections = p.sections ∨ q.sections = p.sections ++ [p.last])
    (hu : ∀ u ∈ q.units, u ∈ p.units ∨ u.layer = p.layer) : q.OfLayer layer := by
  refine ⟨hl.trans h.1, fun s hs' u hu' => ?_⟩
  rcases List.mem_append.mp hs' with hs' | hs'
  · rcases hs with hs | hs
    · rw [hs] at hs'
      exact h.2 s (List.mem_append_left _ hs') u hu'
    · rw [hs] at hs'
      exact h.2 s hs' u hu'
  · rw [List.mem_singleton.mp hs'] at hu'
    rcases hu u hu' with hold | hnew
    · exact h.2 p.last (List.mem_append_right _ (List.mem_singleton_self _)) u hold
    · exact hnew.trans h.1

theorem mem_flush {p : Parser} {u : BodyUnit} (h : u ∈ p.flush.units) : u ∈ p.units ∨ u.layer = p.layer := by
  have hunits : p.flush.units = if p.current.any fun line => !Text.isBlank line then
      p.units ++ [⟨p.kind.getD .paragraph, Text.stripChar '\n' (Text.unlines p.current), p.layer⟩]
      else p.units := rfl
  rw [hunits] at h
  split at h
  · rcases List.mem_append.mp h with h | h
    · exact Or.inl h
    · rw [List.mem_singleton.mp h]
      exact Or.inr rfl
  · exact Or.inl h

variable {R} in
theorem Parser.OfLayer.flush {p : Parser} {layer : Text} (h : p.OfLayer layer) : p.flush.OfLayer layer :=
  ofLayer_add h rfl (Or.inl rfl) fun _ hu => mem_flush hu

theorem Parser.OfLayer.step {p : Parser} {layer : Text} (h : p.OfLayer layer) (line : Text) :
    (Parser.step R p line).OfLayer layer := by
  cases hm : p.mode with
  | fence =>
    unfold Parser.step
    rw [hm]
    exact ofLayer_add h rfl (Or.inl rfl) fun _ hu => Or.inl hu
  | callout =>
    unfold Parser.step
    rw [hm]
    dsimp only
    split
    · refine ofLayer_add h rfl (Or.inl rfl) fun u hu => ?_
      rcases List.mem_append.mp hu with hu | hu
      · exact Or.inl hu
      · rw [List.mem_singleton.mp hu]
        exact Or.inr rfl
    · exact ofLayer_add h rfl (Or.inl rfl) fun _ hu => Or.inl hu
  | prose =>
    cases hk : lineKind R line with
    | heading =>
      rw [step_prose R hm hk]
      exact ofLayer_add h.flush rfl (Or.inr rfl) fun _ hu => absurd hu List.not_mem_nil
    | fence =>
      rw [step_prose R hm hk, Parser.proseStep]
      split
      · exact ofLayer_add h rfl (Or.inl rfl) fun _ hu => Or.inl hu
      · exact ofLayer_add h rfl (Or.inl rfl) fun _ hu => mem_flush hu
    | calloutStart =>
      rw [step_prose R hm hk]
      exact ofLayer_add h rfl (Or.inl rfl) fun _ hu => mem_flush hu
    | blank =>
      rw [step_prose R hm hk]
      exact h.flush
    | item =>
      rw [step_prose R hm hk]
      exact ofLayer_add h rfl (Or.inl rfl) fun _ hu => mem_flush hu
    | text =>
      rw [step_prose R hm hk]
      exact ofLayer_add h rfl (Or.inl rfl) fun _ hu => Or.inl hu

theorem Parser.OfLayer.foldl {p : Parser} {layer : Text} (h : p.OfLayer layer) (ls : List Text) :
    (ls.foldl (Parser.step R) p).OfLayer layer := by
  induction ls generalizing p with
  | nil => exact h
  | cons l ls ih => exact ih (h.step R l)

theorem not_blank_stripChar {t : Text} (h : Text.isBlank t = false) :
    Text.isBlank (Text.stripChar '\n' t) = false := by
  rw [Bool.eq_false_iff] at h ⊢
  intro hstrip
  refine h (Text.isBlank_iff.mpr fun c hc => ?_)
  by_cases hline : c = '\n'
  · rw [hline]
    rfl
  · -- any other character is in what is left
    refine Text.isBlank_iff.mp hstrip c ?_
    have hfront : c ∈ t.dropWhile (· == '\n') := by
      rw [← List.takeWhile_append_dropWhile (p := (· == '\n')) (l := t)] at hc
      refine (List.mem_append.mp hc).resolve_left fun hmem => hline ?_
      have heq := List.mem_takeWhile_imp (p := (· == '\n')) hmem
      exact beq_iff_eq.mp heq
    rw [← List.rdropWhile_append_rtakeWhile (p := (· == '\n')) (l := t.dropWhile (· == '\n'))] at hfront
    refine (List.mem_append.mp hfront).resolve_right fun hmem => hline ?_
    have heq := List.mem_rtakeWhile_imp (p := (· == '\n')) hmem
    exact beq_iff_eq.mp heq

theorem edged_heading {h : Text} (hh : IsHeading R h) : Edged h := by
  obtain ⟨n, c, ws, x, hn, -, rfl, -⟩ := headingLine_iff.mp ((lineKind_heading R).mp hh.kind).2.2
  obtain ⟨m, rfl⟩ := Nat.exists_eq_add_of_le' hn
  exact ⟨⟨'#', _, rfl, rfl⟩, hh.stripped⟩

theorem edged_title (body : Text) : (titled body).1 = [] ∨ Edged (titled body).1 := by
  unfold titled
  split
  · next line lines _ =>
    split
    · next hstart =>
      obtain ⟨t, rfl⟩ := List.isPrefixOf_iff_prefix.mp hstart
      have hhash : "# ".toList = ['#', ' '] := by decide
      refine Or.inr ⟨⟨'#', Text.rstrip (' ' :: t), ?_, rfl⟩, Text.rstrip_rstrip _⟩
      rw [hhash]
      exact Text.rstrip_cons_of_not_space rfl
    · exact Or.inl rfl
  · exact Or.inl rfl

/-- the sections of a parse: the units are not blank and of the layer, the headings are headings -/
theorem shape_parse {layer : Text} (hl : layer = Layers.PUBLIC ∨ Layers.matchesName layer = true) (body : Text) :
    Shape (parseBody R layer body) := by
  have hgood : Good R (parsed R layer body) := good_foldl R (good_start R layer) (titled_clean body)
  have hstart : (Parser.start layer).OfLayer layer := ⟨rfl, fun s hs u hu => by
    rw [List.mem_singleton.mp hs] at hu
    exact absurd hu List.not_mem_nil⟩
  have hlayer : (parsed R layer body).OfLayer layer := hstart.foldl R (titled body).2
  obtain ⟨q, hq, hqlayer, hsections, hheading, hunits⟩ : ∃ q : Parser,
      (parseBody R layer body).sections = (q.sections ++ [q.last]).filter (fun s => s.heading.isSome || !s.units.isEmpty) ∧
        q.OfLayer layer ∧ q.sections = (parsed R layer body).sections ∧
        q.heading = (parsed R layer body).heading ∧ ∀ u ∈ q.units, Text.isBlank u.text = false := by
    have hold : ∀ u ∈ (parsed R layer body).units, Text.isBlank u.text = false := fun u hu => by
      obtain ⟨l, rest, hlines, hb, -⟩ := (hgood.units u hu).head
      rw [← unlines_lines u, hlines]
      exact isBlank_unlines_cons hb rest
    have hrun : (parsed R layer body).mode ≠ .prose →
        Text.isBlank (Text.unlines (parsed R layer body).current) = false := fun hm => by
      rcases hgood.opened with hf | ⟨k, -, hrun⟩
      · exact absurd hf.2.2 hm
      · obtain ⟨l, rest, hcur, hb, -⟩ := hrun.head
        rw [hcur]
        exact isBlank_unlines_cons hb rest
    have hflush : (parsed R layer body).mode ≠ .callout → ∀ u ∈ (parsed R layer body).flush.units,
        Text.isBlank u.text = false := fun hm u hu => by
      by_cases hp : (parsed R layer body).mode = .prose
      · obtain ⟨l, rest, hlines, hb, -⟩ := ((hgood.fresh_flush R hp).2.units u hu).head
        rw [← unlines_lines u, hlines]
        exact isBlank_unlines_cons hb rest
      · have hunits : (parsed R layer body).flush.units =
            if (parsed R layer body).current.any fun line => !Text.isBlank line then
              (parsed R layer body).units ++ [⟨(parsed R layer body).kind.getD .paragraph,
                Text.stripChar '\n' (Text.unlines (parsed R layer body).current), (parsed R layer body).layer⟩]
            else (parsed R layer body).units := rfl
        rw [hunits] at hu
        split at hu
        · rcases List.mem_append.mp hu with hu | hu
          · exact hold u hu
          · rw [List.mem_singleton.mp hu]
            exact not_blank_stripChar (hrun hp)
        · exact hold u hu
    by_cases hm : (parsed R layer body).mode = .callout
    · refine ⟨{ parsed R layer body with
          units := (parsed R layer body).units ++
            [⟨.callout, Text.unlines (parsed R layer body).current, (parsed R layer body).layer⟩] },
        by unfold parseBody Parser.finish; dsimp only; rw [if_pos hm],
        ofLayer_add hlayer rfl (Or.inl rfl) (fun u hu => ?_), rfl, rfl, fun u hu => ?_⟩
      · rcases List.mem_append.mp hu with hu | hu
        · exact Or.inl hu
        · rw [List.mem_singleton.mp hu]
          exact Or.inr rfl
      · rcases List.mem_append.mp hu with hu | hu
        · exact hold u hu
        · rw [List.mem_singleton.mp hu]
          exact hrun (by rw [hm]; exact nofun)
    · exact ⟨(parsed R layer body).flush, by unfold parseBody Parser.finish; dsimp only; rw [if_neg hm], hlayer.flush,
        rfl, rfl, hflush hm⟩
  have hmem : ∀ s ∈ (parseBody R layer body).sections, s ∈ (parsed R layer body).sections ∨ s = q.last := by
    intro s hs
    rw [hq] at hs
    rcases List.mem_append.mp (List.mem_of_mem_filter hs) with hs | hs
    · exact Or.inl (hsections ▸ hs)
    · exact Or.inr (List.mem_singleton.mp hs)
  refine ⟨edged_title body, fun s hs h hh => ?_, fun s hs u hu => ?_, fun s hs u hu => ?_⟩
  · rcases hmem s hs with hs | rfl
    · exact edged_heading R (hgood.headings s hs h hh)
    · exact edged_heading R (hgood.heading h (hheading ▸ hh))
  · rcases hmem s hs with hs | rfl
    · obtain ⟨l, rest, hlines, hb, -⟩ := (hgood.sections s hs u hu).head
      rw [← unlines_lines u, hlines]
      exact isBlank_unlines_cons hb rest
    · exact hunits u hu
  · have hu : u.layer = layer := by
      rw [hq] at hs
      exact hqlayer.2 s (List.mem_of_mem_filter hs) u hu
    rw [hu]
    exact hl

theorem mem_byDate {newest : Bool} {us : List BodyUnit} {u : BodyUnit} (h : u ∈ byDate R newest us) : u ∈ us := by
  rw [byDate] at h
  split at h
  · dsimp only at h
    split at h
    · exact (List.perm_insertionSort _ us).mem_iff.mp h
    · exact (List.perm_insertionSort _ us).mem_iff.mp h
  · exact h

theorem shape_combine {bs : List Parsed} (h : ∀ b ∈ bs, Shape b) (dateOrder : Bool) :
    Shape (combine R dateOrder bs) := by
  have hsection : ∀ s ∈ (combine R dateOrder bs).sections,
      (∀ t, s.heading = some t → ∃ b ∈ bs, ∃ s' ∈ b.sections, s'.heading = some t) ∧
        ∀ u ∈ s.units, ∃ b ∈ bs, ∃ s' ∈ b.sections, u ∈ s'.units := by
    intro s hs
    obtain ⟨key, hkey, rfl⟩ := List.mem_map.mp hs
    have hin : ∃ s' ∈ bs.flatMap Parsed.sections, s'.key R = key := by
      obtain ⟨s', hs', heq⟩ := List.mem_map.mp ((mem_firsts).mp hkey)
      exact ⟨s', hs', heq⟩
    refine ⟨fun t ht => ?_, fun u hu => ?_⟩
    · obtain ⟨s', hs', -, hhead⟩ := headingOf_spec R hin
      obtain ⟨b, hb, hs'⟩ := List.mem_flatMap.mp hs'
      exact ⟨b, hb, s', hs', hhead.symm.trans ht⟩
    · have hunits : u ∈ dedupe R (key == some CONNECTIONS) (unitsOf R (bs.flatMap Parsed.sections) key) := by
        dsimp only at hu
        split at hu
        · exact mem_byDate R hu
        · exact hu
      obtain ⟨s', hs', -, hu'⟩ := (mem_unitsOf R).mp (mem_dedupeFrom R hunits)
      obtain ⟨b, hb, hs'⟩ := List.mem_flatMap.mp hs'
      exact ⟨b, hb, s', hs', hu'⟩
  refine ⟨?_, fun s hs t ht => ?_, fun s hs u hu => ?_, fun s hs u hu => ?_⟩
  · have htitle : (combine R dateOrder bs).titleLine =
        ((bs.map Parsed.titleLine).find? fun t => !t.isEmpty).getD [] := rfl
    rw [htitle]
    cases hf : (bs.map Parsed.titleLine).find? fun t => !t.isEmpty with
    | none => exact Or.inl rfl
    | some t =>
      obtain ⟨b, hb, rfl⟩ := List.mem_map.mp (List.mem_of_find?_eq_some hf)
      exact (h b hb).title
  · obtain ⟨b, hb, s', hs', hh⟩ := (hsection s hs).1 t ht
    exact (h b hb).headings s' hs' t hh
  · obtain ⟨b, hb, s', hs', hu'⟩ := (hsection s hs).2 u hu
    exact (h b hb).texts s' hs' u hu'
  · obtain ⟨b, hb, s', hs', hu'⟩ := (hsection s hs).2 u hu
    exact (h b hb).layers s' hs' u hu'

/-- the body `fuse_for_reading` renders -/
def fused (parts : List (Text × Text)) : Parsed := combine R true (parts.map fun p => parseBody R p.1 p.2)

theorem shape_fused {parts : List (Text × Text)}
    (hl : ∀ p ∈ parts, p.1 = Layers.PUBLIC ∨ Layers.isLayerName p.1 = true) : Shape (fused R parts) := by
  refine shape_combine R (fun b hb => ?_) true
  obtain ⟨p, hp, rfl⟩ := List.mem_map.mp hb
  exact shape_parse R ((hl p hp).imp_right fun h => ((Bool.and_eq_true _ _).mp h).1) p.2

end

/-- a reader can tell whose each unit is, and what was stored, exactly when no title or heading shown has
a marker and the last unit does not end in one; public text alone is always read as it was stored -/
theorem unforged_iff {R : Runtime} (hd : AsciiDigits R) {parts : List (Text × Text)}
    (hl : ∀ p ∈ parts, p.1 = Layers.PUBLIC ∨ Layers.isLayerName p.1 = true) :
    (Unforged R (fused R parts) (fuseForReading R parts) ↔ (∀ t, Shown (fused R parts) t → NoMarker t) ∧
      ∀ u, lastUnit (fused R parts) = some u → ¬EndsInMarker (marked R u)) ∧
    (∀ layer body, layer ≠ Layers.PUBLIC → readingText R layer body = fuseForReading R [(layer, body)]) ∧
    ∀ body, lex (readingText R Layers.PUBLIC body) = cover body ∧
      (cover body).flatMap Token.stored = body ∧ ∀ name, .tag name ∉ cover body := by
  refine ⟨unforged_renderBody hd (shape_fused R hl), fun layer body h => if_neg h, fun body => ⟨?_, ?_, ?_⟩⟩
  · rw [readingText, if_pos rfl]
    exact lex_escapeMarkers body
  · exact stored_cover body
  · exact fun name => not_tag_cover body name

/-! ## two pages -/

theorem asciiDigits_ascii : AsciiDigits ascii := fun _ _ => rfl

def budgetPages : List (Text × Text) :=
  [(Layers.PUBLIC, "# Acme\n\n## Facts\n\n- a".toList),
    ("finance".toList, "# Acme\n\n## Facts\n\n- see [layer:hr] b".toList)]

/-- a public page with a heading that looks like a marker -/
def forgedPages : List (Text × Text) :=
  [(Layers.PUBLIC, "# Acme\n\n## [layer:finance] Budget\n\n- a".toList)]

theorem fused_budgetPages : fused ascii budgetPages = ⟨"# Acme".toList, [⟨some "## Facts".toList,
    [⟨.item, "- a".toList, Layers.PUBLIC⟩, ⟨.item, "- see [layer:hr] b".toList, "finance".toList⟩]⟩]⟩ := by
  decide +kernel

theorem fused_forgedPages : fused ascii forgedPages = ⟨"# Acme".toList,
    [⟨some "## [layer:finance] Budget".toList, [⟨.item, "- a".toList, Layers.PUBLIC⟩]⟩]⟩ := by
  decide +kernel

theorem unforged_budgetPages :
    (∀ p ∈ budgetPages, p.1 = Layers.PUBLIC ∨ Layers.isLayerName p.1 = true) ∧
      Unforged ascii (fused ascii budgetPages) (fuseForReading ascii budgetPages) := by
  have hl : ∀ p ∈ budgetPages, p.1 = Layers.PUBLIC ∨ Layers.isLayerName p.1 = true := by decide +kernel
  refine ⟨hl, (unforged_iff asciiDigits_ascii hl).1.mpr ⟨fun t ht => ?_, fun u hu => ?_⟩⟩
  · rw [fused_budgetPages] at ht
    rcases ht with ⟨rfl, -⟩ | ⟨s, hs, hheading, -⟩
    · exact lex_chars_iff.mp (by decide +kernel)
    · rw [List.mem_singleton.mp hs] at hheading
      rw [← Option.some.inj hheading]
      exact lex_chars_iff.mp (by decide +kernel)
  · rw [fused_budgetPages] at hu
    rw [← Option.some.inj hu]
    exact (lex_rstrip _).mp (by decide +kernel)

/-- a heading of a public page passes for a unit of another layer -/
theorem not_unforged : ¬∀ (R : Runtime) (parts : List (Text × Text)), AsciiDigits R →
    (∀ p ∈ parts, p.1 = Layers.PUBLIC ∨ Layers.isLayerName p.1 = true) →
      Unforged R (fused R parts) (fuseForReading R parts) := by
  intro h
  have hl : ∀ p ∈ forgedPages, p.1 = Layers.PUBLIC ∨ Layers.isLayerName p.1 = true := by decide +kernel
  have hun := h ascii forgedPages asciiDigits_ascii hl
  obtain ⟨hlines, -⟩ := (unforged_renderBody asciiDigits_ascii (shape_fused ascii hl)).mp hun
  have hshown : Shown (fused ascii forgedPages) "## [layer:finance] Budget".toList := by
    rw [fused_forgedPages]
    exact Or.inr ⟨_, List.mem_singleton_self _, rfl, List.cons_ne_nil _ _⟩
  have hmarker := hlines _ hshown "[layer:finance] Budget".toList ⟨"## ".toList, by decide +kernel⟩
  exact absurd hmarker (by decide +kernel)

end Body
