import Stigmergy.Lib.Holes
import Stigmergy.Lib.Placeholders
import Stigmergy.Lib.Search

/-!
# Markdown for Slack

`slack/mrkdwn.py`: code spans are cut out, headings, bullets, bold and links are rewritten in what is left,
and the spans are put back, one number after the other.

* `toMrkdwn`       the whole conversion, `rewritten` what it does between the cuts;
* `Survives`       the text with each code span as one character is rewritten, and the spans are put back in
                   order;
* `heading_blind`, `bullet_blind`, `bold_blind`, `link_blind`   the rewrites take no notice of placeholders,
                   but a link puts those of its target first;
* `carve_eq`       the text between the cuts, and the spans;
* `survives_iff`   when all code survives.
-/

set_option linter.unusedSectionVars false

namespace Mrkdwn

def NUL : Char := Char.ofNat 0
def tick : Char := Char.ofNat 0x60

def FENCE : Text := "```".toList

/-- the digits `str.format` writes -/
def number (n : ℕ) : Text := Nat.toDigits 10 n

/-- `_PLACEHOLDER` -/
def placeholder (n : ℕ) : Text := Placeholders.placeholder NUL number n

/-! ## patterns -/

/-- `_FENCED_CODE_RE`: up to the next fence -/
def fenced (t : Text) : Option (ℕ × Text) :=
  if Text.startsWith FENCE t then
    (Text.find FENCE (t.drop 3)).map fun found => (found.1.length + 6, FENCE ++ found.1 ++ FENCE)
  else none

def inCode (c : Char) : Bool := c != tick && c != '\n'

/-- `_INLINE_CODE_RE` -/
def inline (t : Text) : Option (ℕ × Text) :=
  let code := (t.drop 1).takeWhile inCode
  if t.head? = some tick && !code.isEmpty && ((t.drop 1).dropWhile inCode).head? = some tick then
    some (code.length + 2, tick :: code ++ [tick])
  else none

/-- `_BOLD_RE` and what stands between the marks, at least one character -/
def bold (t : Text) : Option (ℕ × Text) :=
  match t with
  | '*' :: '*' :: c :: u => (Text.find "**".toList u).map fun found => (found.1.length + 5, c :: found.1)
  | _ => none

def inLabel (c : Char) : Bool := c != ']' && c != '\n'
def inTarget (c : Char) : Bool := c != ')' && !Text.isSpace c

/-- `_LINK_RE`, its text and its target -/
def link (t : Text) : Option (ℕ × Text × Text) :=
  let label := (t.drop 1).takeWhile inLabel
  let rest := (t.drop 1).dropWhile inLabel
  let target := (rest.drop 2).takeWhile inTarget
  if t.head? = some '[' && Text.startsWith "](".toList rest && !target.isEmpty &&
      ((rest.drop 2).dropWhile inTarget).head? = some ')' then
    some (label.length + target.length + 4, label, target)
  else none

/-- `^` with `re.MULTILINE` -/
def atLine (prev : Option Char) : Bool := prev.all (· == '\n')

/-- `[ \t]` -/
def isBlank (c : Char) : Bool := c == ' ' || c == '\t'

/-- `_HEADING_RE` and its text -/
def heading (prev : Option Char) (t : Text) : Option (ℕ × Text) :=
  let marks := t.takeWhile (· == '#')
  let rest := t.dropWhile (· == '#')
  let blanks := rest.takeWhile isBlank
  let text := (rest.dropWhile isBlank).takeWhile (· != '\n')
  if atLine prev && 1 ≤ marks.length && marks.length ≤ 6 && !blanks.isEmpty then
    some (marks.length + blanks.length + text.length, text)
  else none

/-- `_BULLET_RE` and the white space before the mark -/
def bullet (prev : Option Char) (t : Text) : Option (ℕ × Text) :=
  let lead := t.takeWhile Text.isSpace
  let rest := t.dropWhile Text.isSpace
  let blanks := (rest.drop 1).takeWhile isBlank
  if atLine prev && (rest.head? = some '-' || rest.head? = some '*' || rest.head? = some '+') && !blanks.isEmpty then
    some (lead.length + 1 + blanks.length, lead)
  else none

/-! ## the rewrites -/

/-- the marks of bold text dropped -/
def unbold (t : Text) : Text := Scan.sub bold t

def headingMatch (prev : Option Char) (t : Text) : Option (ℕ × Text) :=
  (heading prev t).map fun e => (e.1, '*' :: unbold e.2 ++ ['*'])

def bulletMatch (prev : Option Char) (t : Text) : Option (ℕ × Text) :=
  (bullet prev t).map fun e => (e.1, e.2 ++ "• ".toList)

def boldMatch (t : Text) : Option (ℕ × Text) := (bold t).map fun e => (e.1, '*' :: e.2 ++ ['*'])

def shownLink (label target : Text) : Text :=
  if label.isEmpty then '<' :: target ++ ['>'] else '<' :: target ++ '|' :: label ++ ['>']

def linkMatch (t : Text) : Option (ℕ × Text) := (link t).map fun e => (e.1, shownLink e.2.1 e.2.2)

/-- headings, bullets and bold -/
def emphasised (t : Text) : Text :=
  Scan.sub boldMatch (Scan.subBehind bulletMatch (Scan.subBehind headingMatch t))

def rewritten (t : Text) : Text := Scan.sub linkMatch (emphasised t)

/-! ## the conversion -/

/-- `_strip_fence_lang` -/
def stripFenceLang (code : Text) : Text :=
  let lang := (code.drop 3).takeWhile inCode
  let rest := (code.drop 3).dropWhile inCode
  if Text.startsWith FENCE code && rest.head? = some '\n' && !Text.isBlank lang then FENCE ++ rest else code

/-- `_carve`: a text and the store -/
def carve (m : Text → Option (ℕ × Text)) (transform : Text → Text) (s : Text × List Text) : Text × List Text :=
  (Holes.carved placeholder m s.2.length s.1, s.2 ++ (Scan.found m s.1).map transform)

def toMrkdwn (markdown : Text) : Text :=
  let s := carve inline id (carve fenced stripFenceLang (markdown, []))
  Placeholders.spliced NUL number s.2 (rewritten s.1)

/-- `escape_mrkdwn`: `&` first -/
def escapeMrkdwn (text : Text) : Text :=
  Placeholders.replace ">".toList "&gt;".toList
    (Placeholders.replace "<".toList "&lt;".toList (Placeholders.replace "&".toList "&amp;".toList text))

example : toMrkdwn "## **A** `x*y`\n- [b](http://c)".toList = "*A `x*y`*\n• <http://c|b>".toList := by decide +kernel

/-! ## placeholders are nothing to the patterns -/

open Holes (Filled fill)

/-- what placeholders are made of -/
def inert (c : Char) : Prop := c = NUL ∨ c.isDigit = true

instance (c : Char) : Decidable (inert c) := inferInstanceAs (Decidable (_ ∨ _))

theorem inert_ne {c d : Char} (h : inert c) (hd : ¬ inert d) : c ≠ d := fun heq => hd (heq ▸ h)

theorem inert_not_space {c : Char} (h : inert c) : Text.isSpace c = false := by
  rcases h with rfl | h
  · rfl
  · have hc : 48 ≤ c.toNat ∧ c.toNat ≤ 57 := by
      simpa [Char.isDigit, Char.le_def, UInt32.le_iff_toNat_le] using h
    unfold Text.isSpace
    simp only [Bool.or_eq_false_iff, Bool.and_eq_false_iff, decide_eq_false_iff_not, beq_eq_false_iff_ne]
    omega

theorem inert_inCode {c : Char} (h : inert c) : inCode c = true := by
  unfold inCode
  rw [bne_iff_ne.mpr (inert_ne h (by decide)), bne_iff_ne.mpr (inert_ne h (by decide))]
  rfl

theorem inert_inLabel {c : Char} (h : inert c) : inLabel c = true := by
  unfold inLabel
  rw [bne_iff_ne.mpr (inert_ne h (by decide)), bne_iff_ne.mpr (inert_ne h (by decide))]
  rfl

theorem inert_inTarget {c : Char} (h : inert c) : inTarget c = true := by
  unfold inTarget
  rw [bne_iff_ne.mpr (inert_ne h (by decide)), inert_not_space h]
  rfl

theorem digit_of_mem_number {n : ℕ} {c : Char} (h : c ∈ number n) : c.isDigit = true :=
  Nat.isDigit_of_mem_toDigits (by decide) (by decide) h

theorem labels : Placeholders.Labels NUL number Char.isDigit where
  inj := fun m n h => by
    have hm := @Nat.ofDigitChars_ten_toDigits m
    rw [show Nat.toDigits 10 m = Nat.toDigits 10 n from h, Nat.ofDigitChars_ten_toDigits] at hm
    exact hm.symm
  inner := fun _ _ h => digit_of_mem_number h
  outer := rfl

theorem block_placeholder (n : ℕ) : Holes.Block NUL inert (placeholder n) where
  head := rfl
  last := by
    unfold placeholder Placeholders.placeholder
    rw [← List.cons_append]
    exact List.getLast?_concat
  inert := fun c hc => by
    rcases List.mem_cons.mp hc with rfl | hc
    · exact Or.inl rfl
    · rcases List.mem_append.mp hc with hc | hc
      · exact Or.inr (digit_of_mem_number hc)
      · exact Or.inl (List.mem_singleton.mp hc)

/-- a match at the front of a text, and of the text with its holes filled -/
def Reads (m : Text → Option (ℕ × Text)) (bs : List Text) (t : Text) : Prop :=
  (m t = none ∧ m (fill NUL bs t) = none) ∨
    ∃ s u xs ys v, t = s ++ u ∧ bs = xs ++ ys ∧ s ≠ [] ∧ Filled NUL inert xs s ∧ Filled NUL inert ys u ∧
      m t = some (s.length, v) ∧ Filled NUL inert xs v ∧
      m (fill NUL bs t) = some ((fill NUL xs s).length, fill NUL xs v)

/-- the first character of a text may be a hole -/
theorem first_char {bs : List Text} {c : Char} {u : Text} (h : Filled NUL inert bs (c :: u)) :
    ∃ xs zs b, bs = xs ++ zs ∧ Filled NUL inert xs [c] ∧ Filled NUL inert zs u ∧
      fill NUL bs (c :: u) = c :: (b ++ fill NUL zs u) ∧ (∀ d ∈ b, inert d) ∧ fill NUL xs [c] = c :: b := by
  rcases h.cases with ⟨rfl, b, zs, rfl, hb, hzs⟩ | ⟨hc, hbs⟩
  · obtain ⟨d, rfl⟩ := hb.cons
    refine ⟨[NUL :: d], zs, d, rfl, Filled.nil.cons hb, hzs, Holes.fill_hole NUL _ _ _,
      fun e he => hb.inert e (List.mem_cons_of_mem NUL he), ?_⟩
    rw [Holes.fill_hole]
    exact List.append_nil _
  · exact ⟨[], bs, [], rfl, Filled.nil.char hc, hbs, Holes.fill_char NUL hc _ _,
      fun _ hd => absurd hd List.not_mem_nil, Holes.fill_char NUL hc _ _⟩

theorem bold_none {t : Text} (h : Text.startsWith "**".toList t = false) : bold t = none := by
  unfold bold
  split
  · exact nomatch h
  · rfl

theorem bold_reads {bs : List Text} {t : Text} (h : Filled NUL inert bs t) : Reads bold bs t := by
  have hforeign : Holes.Foreign NUL inert "**".toList := by
    unfold Holes.Foreign
    decide
  have hstart := h.startsWith hforeign
  cases hs : Text.startsWith "**".toList t with
  | false => exact Or.inl ⟨bold_none hs, bold_none (hstart.trans hs)⟩
  | true =>
    obtain ⟨w, rfl⟩ := List.isPrefixOf_iff_prefix.mp hs
    have hw : Filled NUL inert bs w := by
      obtain ⟨xs, ys, rfl, hxs, hys⟩ := h.split
      rw [List.length_eq_zero_iff.mp hxs.length]
      exact hys
    have hfill : ∀ (xs : List Text) (v : Text), fill NUL xs ('*' :: '*' :: v) = '*' :: '*' :: fill NUL xs v :=
      fun _ _ => rfl
    show Reads bold bs ('*' :: '*' :: w)
    unfold Reads
    rw [hfill]
    cases w with
    | nil => exact Or.inl ⟨rfl, rfl⟩
    | cons c u =>
      obtain ⟨xs, zs, b, rfl, hxs, hzs, hc, hb, hone⟩ := first_char hw
      rw [hc]
      show (_ = none ∧ (Text.find _ (b ++ fill NUL zs u)).map _ = none) ∨ ∃ s u' xs' ys v, _ ∧ _ ∧ _ ∧ _ ∧ _ ∧ _ ∧ _ ∧
        (Text.find _ (b ++ fill NUL zs u)).map _ = _
      rw [Holes.find_block hb hforeign (List.cons_ne_nil _ _)]
      rcases hzs.find hforeign (List.cons_ne_nil _ _) with ⟨hnone, hnone'⟩ | ⟨x, y, xs', ys, rfl, hx, hy, hsome, hsome'⟩
      · refine Or.inl ⟨?_, by rw [hnone']; rfl⟩
        show (Text.find _ u).map _ = none
        rw [hnone]
        rfl
      · have hu := Search.find_eq_some hsome
        have hv : Filled NUL inert (xs ++ xs') (c :: x) := hxs.append hx
        have hmarks : Filled NUL inert [] "**".toList := Filled.of_notMem (by decide)
        have hinner : Filled NUL inert (xs ++ xs') (c :: x ++ "**".toList) := by
          have happ := hv.append hmarks
          rwa [List.append_nil] at happ
        have htext : fill NUL (xs ++ xs') (c :: x) = c :: (b ++ fill NUL xs' x) := by
          rw [← List.singleton_append, hxs.fill_append, hone]
          rfl
        refine Or.inr ⟨'*' :: '*' :: (c :: x ++ "**".toList), y, xs ++ xs', ys, c :: x, ?_,
          (List.append_assoc _ _ _).symm, List.cons_ne_nil _ _, (hinner.char (by decide)).char (by decide), hy, ?_, hv,
          ?_⟩
        · rw [hu]
          simp
        · show (Text.find _ u).map _ = _
          rw [hsome]
          simp
        · rw [hsome', htext, hfill]
          have hclose : fill NUL (xs ++ xs') (c :: x ++ "**".toList) = c :: (b ++ fill NUL xs' x) ++ "**".toList := by
            have happ := hv.fill_append [] "**".toList
            rw [List.append_nil, htext] at happ
            exact happ
          rw [hclose]
          simp
          omega

theorem inline_reads {bs : List Text} {t : Text} (h : Filled NUL inert bs t) : Reads inline bs t := by
  have hhead := h.head?
  by_cases htick : t.head? = some tick
  · obtain ⟨w, rfl⟩ := List.head?_eq_some_iff.mp htick
    have hne : tick ≠ NUL := by decide
    have hw : Filled NUL inert bs w := (h.cases.resolve_left fun hc => hne hc.1).2
    have hfill : ∀ (xs : List Text) (v : Text), fill NUL xs (tick :: v) = tick :: fill NUL xs v := fun _ _ => rfl
    obtain ⟨xs, ys, rfl, hxs, hys, htake, hdrop⟩ := hw.span (fun c hc => inert_inCode hc) rfl
    have hempty : (fill NUL xs (w.takeWhile inCode)).isEmpty = (w.takeWhile inCode).isEmpty := by
      refine Bool.eq_iff_iff.mpr ?_
      rw [List.isEmpty_iff, List.isEmpty_iff]
      exact ⟨hxs.eq_nil, fun hnil => by rw [hnil]; rfl⟩
    have hread : ∀ v : Text, inline (tick :: v) = if !(v.takeWhile inCode).isEmpty &&
        (v.dropWhile inCode).head? = some tick then
          some ((v.takeWhile inCode).length + 2, tick :: v.takeWhile inCode ++ [tick]) else none := fun v => by
      unfold inline
      simp
    unfold Reads
    rw [hfill, hread, hread, htake, hdrop, hys.head?, hempty]
    split
    · next hcond =>
      rw [Bool.and_eq_true, decide_eq_true_eq] at hcond
      obtain ⟨u, hu⟩ := List.head?_eq_some_iff.mp hcond.2
      rw [hu] at hys
      have hrest : Filled NUL inert ys u := (hys.cases.resolve_left fun hc => hne hc.1).2
      have hspan : Filled NUL inert xs (tick :: w.takeWhile inCode ++ [tick]) := by
        have happ := (hxs.char hne).append (Filled.nil.char (c := tick) hne)
        rwa [List.append_nil] at happ
      have hclose : fill NUL xs (tick :: w.takeWhile inCode ++ [tick]) =
          tick :: fill NUL xs (w.takeWhile inCode) ++ [tick] := by
        have happ := (hxs.char hne).fill_append [] [tick]
        rw [List.append_nil, hfill] at happ
        exact happ
      refine Or.inr ⟨tick :: w.takeWhile inCode ++ [tick], u, xs, ys, tick :: w.takeWhile inCode ++ [tick], ?_, rfl,
        List.cons_ne_nil _ _, hspan, hrest, ?_, hspan, ?_⟩
      · rw [List.append_assoc, List.cons_append, List.singleton_append, ← hu, List.takeWhile_append_dropWhile]
      · rw [List.length_append, List.length_cons]
        rfl
      · rw [hclose, List.length_append, List.length_cons]
        rfl
    · exact Or.inl ⟨rfl, rfl⟩
  · have hnone : ∀ v : Text, v.head? ≠ some tick → inline v = none := fun v hv => by
      unfold inline
      simp [hv]
    exact Or.inl ⟨hnone t htick, hnone _ (by rw [hhead]; exact htick)⟩

/-- the blocks in the text of a link, which comes after the target -/
def linkShift (s : Text) : ℕ := List.count NUL ((s.drop 1).takeWhile inLabel)

theorem isEmpty_fill {xs : List Text} {t : Text} (h : Filled NUL inert xs t) : (fill NUL xs t).isEmpty = t.isEmpty := by
  refine Bool.eq_iff_iff.mpr ?_
  rw [List.isEmpty_iff, List.isEmpty_iff]
  exact ⟨h.eq_nil, fun hnil => by rw [hnil]; rfl⟩

theorem Filled.tail {c : Char} (hc : c ≠ NUL) {bs : List Text} {t : Text} (h : Filled NUL inert bs (c :: t)) :
    Filled NUL inert bs t := (h.cases.resolve_left fun he => hc he.1).2

/-- a character at the end of a filled text -/
theorem fill_concat {xs : List Text} {t : Text} (h : Filled NUL inert xs t) {c : Char} (hc : c ≠ NUL) :
    Filled NUL inert xs (t ++ [c]) ∧ fill NUL xs (t ++ [c]) = fill NUL xs t ++ [c] := by
  have hfilled := h.append (Filled.nil.char (c := c) hc)
  have htext := h.fill_append [] [c]
  rw [List.append_nil] at hfilled htext
  rw [htext, Holes.fill_char NUL hc]
  exact ⟨hfilled, rfl⟩

theorem link_of_cons (w : Text) : link ('[' :: w) =
    if Text.startsWith "](".toList (w.dropWhile inLabel) &&
        !(((w.dropWhile inLabel).drop 2).takeWhile inTarget).isEmpty &&
        (((w.dropWhile inLabel).drop 2).dropWhile inTarget).head? = some ')' then
      some ((w.takeWhile inLabel).length + (((w.dropWhile inLabel).drop 2).takeWhile inTarget).length + 4,
        w.takeWhile inLabel, ((w.dropWhile inLabel).drop 2).takeWhile inTarget)
    else none := by
  unfold link
  simp

theorem link_of_ne {t : Text} (h : t.head? ≠ some '[') : link t = none := by
  unfold link
  simp [h]

theorem link_iff {t : Text} {e : ℕ × Text × Text} : link t = some e ↔
    ∃ label target rest, t = '[' :: (label ++ ("](".toList ++ (target ++ ')' :: rest))) ∧
      (∀ c ∈ label, inLabel c = true) ∧ target ≠ [] ∧ (∀ c ∈ target, inTarget c = true) ∧
      e = (label.length + target.length + 4, label, target) := by
  constructor
  · intro h
    by_cases hhead : t.head? = some '['
    · obtain ⟨w, rfl⟩ := List.head?_eq_some_iff.mp hhead
      rw [link_of_cons] at h
      split at h
      · next hcond =>
        rw [Bool.and_eq_true, Bool.and_eq_true, decide_eq_true_eq] at hcond
        obtain ⟨⟨hmid, hne⟩, hclose⟩ := hcond
        obtain ⟨v, hv⟩ := List.isPrefixOf_iff_prefix.mp hmid
        obtain ⟨rest, hrest⟩ := List.head?_eq_some_iff.mp hclose
        have hdrop : (w.dropWhile inLabel).drop 2 = v := by
          rw [← hv]
          rfl
        rw [hdrop] at h hne hrest
        refine ⟨w.takeWhile inLabel, v.takeWhile inTarget, rest, ?_, fun c hc => List.mem_takeWhile_imp hc, ?_,
          fun c hc => List.mem_takeWhile_imp hc, (Option.some.inj h).symm⟩
        · rw [← hrest, List.takeWhile_append_dropWhile, hv, List.takeWhile_append_dropWhile]
        · rintro hnil
          rw [hnil] at hne
          exact nomatch hne
      · exact nomatch h
    · rw [link_of_ne hhead] at h
      exact nomatch h
  · rintro ⟨label, target, rest, rfl, hlabel, hne, htarget, rfl⟩
    have hl : (label ++ ("](".toList ++ (target ++ ')' :: rest))).takeWhile inLabel = label ++ _ :=
      List.takeWhile_append_of_pos hlabel
    have hd : (label ++ ("](".toList ++ (target ++ ')' :: rest))).dropWhile inLabel = _ :=
      List.dropWhile_append_of_pos hlabel
    have hstop : ∀ u : Text, ("](".toList ++ u).takeWhile inLabel = [] ∧
        ("](".toList ++ u).dropWhile inLabel = "](".toList ++ u := fun u => ⟨rfl, rfl⟩
    rw [(hstop _).1, List.append_nil] at hl
    rw [(hstop _).2] at hd
    have hdrop : ("](".toList ++ (target ++ ')' :: rest)).drop 2 = target ++ ')' :: rest := rfl
    have hstart : Text.startsWith "](".toList ("](".toList ++ (target ++ ')' :: rest)) = true := rfl
    have ht : (target ++ ')' :: rest).takeWhile inTarget = target ++ _ := List.takeWhile_append_of_pos htarget
    have htd : (target ++ ')' :: rest).dropWhile inTarget = _ := List.dropWhile_append_of_pos htarget
    rw [show (')' :: rest).takeWhile inTarget = [] from rfl, List.append_nil] at ht
    rw [show (')' :: rest).dropWhile inTarget = ')' :: rest from rfl] at htd
    rw [link_of_cons, hl, hd, hdrop, hstart, ht, htd]
    obtain ⟨c, u, rfl⟩ := List.exists_cons_of_ne_nil hne
    simp

/-- characters of a text with holes that are those of the filled text -/
theorem all_of_fill {p : Char → Bool} (hp : p NUL = true) {xs : List Text} {t : Text}
    (h : ∀ c ∈ fill NUL xs t, p c = true) : ∀ c ∈ t, p c = true := by
  intro c hc
  by_cases hne : c = NUL
  · rw [hne]
    exact hp
  · exact h c (Holes.mem_fill_of_mem NUL hc hne)

theorem all_fill {p : Char → Bool} (hp : ∀ c, inert c → p c = true) {xs : List Text} {t : Text}
    (hf : Filled NUL inert xs t) (h : ∀ c ∈ t, p c = true) : ∀ c ∈ fill NUL xs t, p c = true := by
  intro c hc
  rcases Holes.mem_fill NUL hc with ⟨hc, -⟩ | ⟨b, hb, hc⟩
  · exact h c hc
  · exact hp c ((hf.block b hb).inert c hc)

/-- a link in the filled text is a link in the text with holes -/
theorem link_of_fill {bs : List Text} {t : Text} (h : Filled NUL inert bs t) {e : ℕ × Text × Text}
    (he : link (fill NUL bs t) = some e) : (link t).isSome = true := by
  obtain ⟨label, target, rest, heq, hlabel, hne, htarget, rfl⟩ := link_iff.mp he
  obtain ⟨w, rfl, hw, hwfill⟩ := Holes.fill_cons h (by decide) (by decide) heq
  obtain ⟨l, v, xs, ys, rfl, rfl, hxs, hys, hl, hv⟩ := Holes.fill_split hw (c := ']') (by decide) (by decide) hwfill
  obtain ⟨v, rfl, hys, hv⟩ := Holes.fill_cons hys (by decide) (by decide) hv
  obtain ⟨g, r, xs', ys', rfl, rfl, hxs', hys', hg, hr⟩ := Holes.fill_split hys (c := ')') (by decide) (by decide) hv
  have hiff := (link_iff (t := '[' :: (l ++ ("](".toList ++ (g ++ ')' :: r))))).mpr
    ⟨l, g, r, rfl, all_of_fill rfl (by rw [hl]; exact hlabel), ?_, all_of_fill rfl (by rw [hg]; exact htarget), rfl⟩
  · exact Option.isSome_iff_exists.mpr ⟨_, hiff⟩
  · rintro rfl
    exact hne hg.symm

theorem fill_shownLink {xs xs' : List Text} {label target : Text} (hlabel : Filled NUL inert xs label)
    (htarget : Filled NUL inert xs' target) :
    (xs' ++ xs).length = List.count NUL (shownLink label target) ∧
      fill NUL (xs' ++ xs) (shownLink label target) = shownLink (fill NUL xs label) (fill NUL xs' target) := by
  have hopen := htarget.char (c := '<') (by decide)
  unfold shownLink
  rw [isEmpty_fill hlabel]
  split
  · next hnil =>
    rw [List.isEmpty_iff.mp hnil] at hlabel
    have hxs : xs = [] := List.length_eq_zero_iff.mp hlabel.length
    obtain ⟨hfilled, htext⟩ := fill_concat hopen (c := '>') (by decide)
    rw [hxs, List.append_nil]
    exact ⟨hfilled.length, htext⟩
  · obtain ⟨hclose, htext⟩ := fill_concat (hlabel.char (c := '|') (by decide)) (c := '>') (by decide)
    refine ⟨?_, ?_⟩
    · rw [show '<' :: target ++ '|' :: label ++ ['>'] = '<' :: target ++ ('|' :: label ++ ['>']) from
        List.append_assoc _ _ _]
      exact (hopen.append hclose).length
    · rw [show '<' :: target ++ '|' :: label ++ ['>'] = '<' :: target ++ ('|' :: label ++ ['>']) from
        List.append_assoc _ _ _, hopen.fill_append, htext, Holes.fill_char NUL (by decide),
        Holes.fill_char NUL (by decide), ← List.append_assoc]

theorem quiet_of_head {m : Text → Option (ℕ × Text)} {d : Char} (hd : ¬ inert d)
    (h : ∀ t : Text, t.head? ≠ some d → m t = none) (c : Char) (t : Text) (hc : inert c) : m (c :: t) = none :=
  h (c :: t) fun he => inert_ne hc hd (Option.some.inj he)

theorem link_blind : Holes.Blind NUL inert (fun _ => linkMatch) linkShift where
  quiet := fun _ => quiet_of_head (d := '[') (by decide) fun t ht => by
    unfold linkMatch
    rw [link_of_ne ht]
    rfl
  read := fun _ bs t h => by
    cases he : link t with
    | none =>
      refine Or.inl ⟨by unfold linkMatch; rw [he]; rfl, ?_⟩
      unfold linkMatch
      cases hfill : link (fill NUL bs t) with
      | none => rfl
      | some e =>
        have hsome := link_of_fill h hfill
        rw [he] at hsome
        exact nomatch hsome
    | some e =>
      obtain ⟨label, target, rest, rfl, hlabel, hne, htarget, rfl⟩ := link_iff.mp he
      obtain ⟨xs, zs, rfl, hxs, hzs⟩ := (Filled.tail (c := '[') (by decide) h).split
      have hbehind : Filled NUL inert zs (target ++ ')' :: rest) :=
        Filled.tail (c := '(') (by decide) (Filled.tail (c := ']') (by decide) hzs)
      obtain ⟨xs', ys, rfl, hxs', hys⟩ := hbehind.split
      have hrest := Filled.tail (c := ')') (by decide) hys
      have hmid : Filled NUL inert xs' ("](".toList ++ (target ++ [')'])) :=
        (((fill_concat hxs' (c := ')') (by decide)).1).char (c := '(') (by decide)).char (c := ']') (by decide)
      have hspan : Filled NUL inert (xs ++ xs') ('[' :: (label ++ ("](".toList ++ (target ++ [')'])))) :=
        (hxs.append hmid).char (by decide)
      have hcut : '[' :: (label ++ ("](".toList ++ (target ++ ')' :: rest))) =
          '[' :: (label ++ ("](".toList ++ (target ++ [')']))) ++ rest := by simp
      have hclose : fill NUL xs' ("](".toList ++ (target ++ [')'])) =
          "](".toList ++ (fill NUL xs' target ++ [')']) := by
        rw [← (fill_concat hxs' (c := ')') (by decide)).2]
        rfl
      have hfilled : fill NUL (xs ++ xs') ('[' :: (label ++ ("](".toList ++ (target ++ [')'])))) =
          '[' :: (fill NUL xs label ++ ("](".toList ++ (fill NUL xs' target ++ [')']))) := by
        rw [Holes.fill_char NUL (by decide), hxs.fill_append, hclose]
      have hall : fill NUL (xs ++ (xs' ++ ys)) ('[' :: (label ++ ("](".toList ++ (target ++ ')' :: rest)))) =
          '[' :: (fill NUL xs label ++ ("](".toList ++ (fill NUL xs' target ++ ')' :: fill NUL ys rest))) := by
        rw [hcut, ← List.append_assoc, hspan.fill_append, hfilled]
        simp
      have hshift : linkShift ('[' :: (label ++ ("](".toList ++ (target ++ [')'])))) = xs.length := by
        have htake : (label ++ ("](".toList ++ (target ++ [')']))).takeWhile inLabel = label := by
          rw [List.takeWhile_append_of_pos hlabel]
          exact List.append_nil label
        unfold linkShift
        rw [List.drop_one, List.tail_cons, htake, hxs.length]
      obtain ⟨hcount, hshown⟩ := fill_shownLink hxs hxs'
      have hlink := link_iff.mpr ⟨fill NUL xs label, fill NUL xs' target, fill NUL ys rest, hall,
        all_fill (fun c hc => inert_inLabel hc) hxs hlabel, fun hnil => hne (hxs'.eq_nil hnil),
        all_fill (fun c hc => inert_inTarget hc) hxs' htarget, rfl⟩
      refine Or.inr ⟨'[' :: (label ++ ("](".toList ++ (target ++ [')']))), rest, xs ++ xs', ys, shownLink label target,
        hcut, (List.append_assoc _ _ _).symm, List.cons_ne_nil _ _, hspan, hrest, ?_, ?_, ?_⟩
      · unfold linkMatch
        rw [he]
        simp
        omega
      · rw [hshift, List.rotate_append_length_eq]
        exact hcount
      · unfold linkMatch
        rw [hlink, hshift, List.rotate_append_length_eq, hshown, hfilled]
        simp
        omega

theorem blind_of_reads {m : Text → Option (ℕ × Text)} (h : ∀ bs t, Filled NUL inert bs t → Reads m bs t)
    (hquiet : ∀ c t, inert c → m (c :: t) = none) : Holes.Blind NUL inert (fun _ => m) fun _ => 0 where
  quiet := fun _ => hquiet
  read := fun _ bs t hf => by
    rcases h bs t hf with hnone | ⟨s, u, xs, ys, v, ht, hbs, hs, hxs, hys, hm, hv, hfill⟩
    · exact Or.inl hnone
    · refine Or.inr ⟨s, u, xs, ys, v, ht, hbs, hs, hxs, hys, hm, ?_, ?_⟩
      · rw [List.rotate_zero]
        exact hv.length
      · rw [List.rotate_zero]
        exact hfill

/-- a value of which a text is made that keeps the holes -/
theorem Reads.map {m : Text → Option (ℕ × Text)} {g : Text → Text} {bs : List Text} {t : Text} (h : Reads m bs t)
    (hg : ∀ xs v, Filled NUL inert xs v → Filled NUL inert xs (g v) ∧ fill NUL xs (g v) = g (fill NUL xs v)) :
    Reads (fun u => (m u).map fun e => (e.1, g e.2)) bs t := by
  rcases h with ⟨hnone, hfill⟩ | ⟨s, u, xs, ys, v, ht, hbs, hs, hxs, hys, hm, hv, hfill⟩
  · exact Or.inl ⟨Option.map_eq_none_iff.mpr hnone, Option.map_eq_none_iff.mpr hfill⟩
  · obtain ⟨hfilled, htext⟩ := hg xs v hv
    refine Or.inr ⟨s, u, xs, ys, g v, ht, hbs, hs, hxs, hys, ?_, hfilled, ?_⟩
    · exact Option.map_eq_some_iff.mpr ⟨_, hm, rfl⟩
    · exact Option.map_eq_some_iff.mpr ⟨_, hfill, by rw [htext]⟩

theorem starred_fill {xs : List Text} {v : Text} (h : Filled NUL inert xs v) :
    Filled NUL inert xs ('*' :: v ++ ['*']) ∧ fill NUL xs ('*' :: v ++ ['*']) = '*' :: fill NUL xs v ++ ['*'] :=
  fill_concat (h.char (c := '*') (by decide)) (by decide)

theorem bold_of_ne {t : Text} (h : t.head? ≠ some '*') : bold t = none := by
  unfold bold
  split
  · exact absurd rfl h
  · rfl

theorem unbold_blind : Holes.Blind NUL inert (fun _ => bold) fun _ => 0 :=
  blind_of_reads (fun _ _ h => bold_reads h) (quiet_of_head (d := '*') (by decide) fun _ => bold_of_ne)

theorem bold_blind : Holes.Blind NUL inert (fun _ => boldMatch) fun _ => 0 :=
  blind_of_reads (fun _ _ h => (bold_reads h).map fun _ _ => starred_fill)
    (quiet_of_head (d := '*') (by decide) fun t ht => by
      unfold boldMatch
      rw [bold_of_ne ht]
      rfl)

theorem inline_blind : Holes.Blind NUL inert (fun _ => inline) fun _ => 0 :=
  blind_of_reads (fun _ _ h => inline_reads h) (quiet_of_head (d := tick) (by decide) fun t ht => by
    unfold inline
    simp [ht])

/-- a rewrite that leaves the placeholders in their order -/
theorem subBehind_fill {m : Option Char → Text → Option (ℕ × Text)} (hm : Holes.Blind NUL inert m fun _ => 0)
    {bs : List Text} {t : Text} (h : Filled NUL inert bs t) :
    Filled NUL inert bs (Scan.subBehind m t) ∧ Scan.subBehind m (fill NUL bs t) = fill NUL bs (Scan.subBehind m t) := by
  have hfill := Holes.subBehindFrom_fill hm (Or.inl rfl) none h
  rwa [Holes.turnedFrom_zero] at hfill

theorem sub_fill {m : Text → Option (ℕ × Text)} (hm : Holes.Blind NUL inert (fun _ => m) fun _ => 0) {bs : List Text}
    {t : Text} (h : Filled NUL inert bs t) :
    Filled NUL inert bs (Scan.sub m t) ∧ Scan.sub m (fill NUL bs t) = fill NUL bs (Scan.sub m t) := by
  rw [Scan.sub_eq_subBehind m none, Scan.sub_eq_subBehind m none]
  exact subBehind_fill hm h

theorem fill_of_clean {s : Text} (hs : NUL ∉ s) {xs : List Text} {t : Text} (h : Filled NUL inert xs t) :
    Filled NUL inert xs (s ++ t) ∧ fill NUL xs (s ++ t) = s ++ fill NUL xs t := by
  have hclean : Filled NUL inert [] s := Filled.of_notMem hs
  have hfilled := hclean.append h
  have htext := hclean.fill_append xs t
  rw [List.nil_append] at hfilled htext
  rw [htext, Holes.fill_of_notMem NUL [] hs]
  exact ⟨hfilled, rfl⟩

theorem notMem_takeWhile {p : Char → Bool} (hp : p NUL = false) (t : Text) : NUL ∉ t.takeWhile p := by
  intro h
  have hc := List.mem_takeWhile_imp h
  rw [hp] at hc
  exact nomatch hc

theorem heading_blind : Holes.Blind NUL inert headingMatch fun _ => 0 where
  quiet := fun prev c t hc => by
    have hne : ((c == '#') : Bool) = false := beq_false_of_ne (inert_ne hc (by decide))
    unfold headingMatch heading
    simp [hne]
  read := fun prev bs t h => by
    obtain ⟨hrest, hmarks, hrestfill⟩ := h.run (p := (· == '#')) (by decide)
    obtain ⟨hbody, hblanks, hbodyfill⟩ := hrest.run (p := isBlank) (by decide)
    have hgoes : ∀ c, inert c → (c != '\n') = true := fun c hc => bne_iff_ne.mpr (inert_ne hc (by decide))
    obtain ⟨xs, ys, rfl, hxs, hys, htake, hdrop⟩ := hbody.span hgoes (by decide)
    unfold headingMatch heading
    dsimp only
    rw [hmarks, hrestfill, hblanks, hbodyfill, htake]
    split
    · next hcond =>
      right
      set marks := t.takeWhile (· == '#')
      set rest := t.dropWhile (· == '#')
      set blanks := rest.takeWhile isBlank
      set body := rest.dropWhile isBlank
      have hclean : NUL ∉ marks ++ blanks := fun hm => by
        rcases List.mem_append.mp hm with hm | hm
        · exact notMem_takeWhile (by decide) t hm
        · exact notMem_takeWhile (by decide) rest hm
      obtain ⟨hspan, htext⟩ := fill_of_clean hclean hxs
      obtain ⟨hplain, hunbold⟩ := sub_fill unbold_blind hxs
      obtain ⟨hvalue, hstarred⟩ := starred_fill hplain
      have hpos : 0 < marks.length := by
        rw [Bool.and_eq_true, Bool.and_eq_true, Bool.and_eq_true, decide_eq_true_eq] at hcond
        exact hcond.1.1.2
      have hcut : t = marks ++ blanks ++ body.takeWhile (· != '\n') ++ body.dropWhile (· != '\n') := by
        rw [List.append_assoc, List.takeWhile_append_dropWhile, List.append_assoc, List.takeWhile_append_dropWhile,
          List.takeWhile_append_dropWhile]
      refine ⟨marks ++ blanks ++ body.takeWhile (· != '\n'), body.dropWhile (· != '\n'), xs, ys,
        '*' :: unbold (body.takeWhile (· != '\n')) ++ ['*'], hcut, rfl, ?_, hspan, hys, ?_, ?_, ?_⟩
      · intro hnil
        have hlen := congrArg List.length hnil
        rw [List.length_append, List.length_append, List.length_nil] at hlen
        omega
      · rw [Option.map_some, List.length_append, List.length_append]
      · rw [List.rotate_zero]
        exact hvalue.length
      · rw [Option.map_some, List.rotate_zero, htext, List.length_append, List.length_append]
        unfold unbold
        rw [hunbold, hstarred]
    · exact Or.inl ⟨rfl, rfl⟩

theorem bullet_blind : Holes.Blind NUL inert bulletMatch fun _ => 0 where
  quiet := fun prev c t hc => by
    have hspace := inert_not_space hc
    have h₁ : c ≠ '-' := inert_ne hc (by decide)
    have h₂ : c ≠ '*' := inert_ne hc (by decide)
    have h₃ : c ≠ '+' := inert_ne hc (by decide)
    unfold bulletMatch bullet
    simp [hspace, h₁, h₂, h₃]
  read := fun prev bs t h => by
    obtain ⟨hrest, hlead, hrestfill⟩ := h.run (p := Text.isSpace) rfl
    unfold bulletMatch bullet
    dsimp only
    rw [hlead, hrestfill, hrest.head?]
    set lead := t.takeWhile Text.isSpace
    have hcut : t = lead ++ t.dropWhile Text.isSpace := List.takeWhile_append_dropWhile.symm
    set rest := t.dropWhile Text.isSpace
    by_cases hmark : rest.head? = some '-' ∨ rest.head? = some '*' ∨ rest.head? = some '+'
    · obtain ⟨c, u, hcu, hc⟩ : ∃ c u, rest = c :: u ∧ c ≠ NUL := by
        rcases hmark with h | h | h
        · exact ⟨'-', _, (List.head?_eq_some_iff.mp h).choose_spec, by decide⟩
        · exact ⟨'*', _, (List.head?_eq_some_iff.mp h).choose_spec, by decide⟩
        · exact ⟨'+', _, (List.head?_eq_some_iff.mp h).choose_spec, by decide⟩
      rw [hcu] at hrest hcut ⊢
      have hu := Filled.tail hc hrest
      obtain ⟨hbehind, hblanks, -⟩ := hu.run (p := isBlank) (by decide)
      rw [Holes.fill_char NUL hc, List.drop_one, List.tail_cons, List.drop_one, List.tail_cons, hblanks]
      split
      · right
        have hclean : NUL ∉ lead ++ c :: u.takeWhile isBlank := fun hm => by
          rcases List.mem_append.mp hm with hm | hm
          · exact notMem_takeWhile rfl t hm
          · rcases List.mem_cons.mp hm with hm | hm
            · exact hc hm.symm
            · exact notMem_takeWhile (by decide) u hm
        have hvalue : NUL ∉ lead ++ "• ".toList := fun hm => by
          rcases List.mem_append.mp hm with hm | hm
          · exact notMem_takeWhile rfl t hm
          · exact absurd hm (by decide)
        refine ⟨lead ++ c :: u.takeWhile isBlank, u.dropWhile isBlank, [], bs, lead ++ "• ".toList, ?_, rfl, ?_,
          Filled.of_notMem hclean, hbehind, ?_, ?_, ?_⟩
        · rw [List.append_assoc, List.cons_append, List.takeWhile_append_dropWhile]
          exact hcut
        · exact List.append_ne_nil_of_right_ne_nil _ (List.cons_ne_nil _ _)
        · rw [Option.map_some, List.length_append, List.length_cons]
          simp
          omega
        · exact (List.count_eq_zero.mpr hvalue).symm
        · rw [Option.map_some, Holes.fill_of_notMem NUL [] hclean, List.rotate_zero, Holes.fill_of_notMem NUL [] hvalue,
            List.length_append, List.length_cons]
          simp
          omega
      · exact Or.inl ⟨rfl, rfl⟩
    · rw [not_or, not_or] at hmark
      simp [hmark]

/-! ## text between code, and code -/

/-- the text with a hole for each fenced block -/
def outsideFences (text : Text) : Text := Holes.hollow NUL fenced text

/-- the text with a hole for each code span -/
def prose (text : Text) : Text := Holes.hollow NUL inline (outsideFences text)

def fences (text : Text) : List Text := (Scan.found fenced text).map stripFenceLang

/-- the inline spans outside fenced blocks -/
def inlineSpans (text : Text) : List Text := Scan.found inline (outsideFences text)

/-- what is put in the holes, given one for each fenced block and one for each inline span -/
def woven {β : Type*} (text : Text) (fs is : List β) : List β := Holes.weave NUL inline (outsideFences text) fs is

/-- the code spans in their order -/
def codeSpans (text : Text) : List Text := woven text (fences text) (inlineSpans text)

/-- the numbers of the code spans, fenced blocks first, in the order of the spans -/
def numbers (text : Text) : List ℕ :=
  woven text (List.range' 0 (fences text).length) (List.range' (fences text).length (inlineSpans text).length)

/-- the order in which the links leave the code spans -/
def linkOrder {β : Type*} (text : Text) (xs : List β) : List β :=
  Holes.turnedFrom NUL (fun _ => linkMatch) linkShift none 0 (emphasised (prose text)) xs

/-- the numbers in the order in which they are written, each with what stands behind it -/
def numbered (text : Text) : List (ℕ × Text) :=
  (linkOrder text (numbers text)).zip (Holes.behind NUL (rewritten (prose text)))

/-- the rewritten prose with the code spans in their order, and no more -/
def Survives (text : Text) : Prop :=
  toMrkdwn text = fill NUL (codeSpans text) (rewritten (prose text)) ∧ NUL ∉ toMrkdwn text

instance (text : Text) : Decidable (Survives text) := inferInstanceAs (Decidable (_ ∧ _))

/-! ## what is carved -/

/-- a fenced block or an inline span, at the front of any text -/
def Code (s : Text) : Prop :=
  (∀ t, fenced (s ++ t) = some (s.length, s)) ∨ ∀ t, inline (s ++ t) = some (s.length, s)

theorem inline_of_fence (t : Text) : inline (FENCE ++ t) = none := rfl

theorem code_prefixFree : Holes.PrefixFree Code := by
  have hmixed : ∀ s t s' t', fenced (s ++ t) = some (s.length, s) → inline (s' ++ t') = some (s'.length, s') →
      s ++ t ≠ s' ++ t' := by
    intro s t s' t' hs hs' heq
    unfold fenced at hs
    split at hs
    · next hstart =>
      obtain ⟨u, hu⟩ := List.isPrefixOf_iff_prefix.mp hstart
      rw [← heq, ← hu, inline_of_fence] at hs'
      exact nomatch hs'
    · exact nomatch hs
  rintro s t s' t' (hs | hs) (hs' | hs') heq
  · have h := hs t
    rw [heq, hs' t'] at h
    exact (Prod.mk.inj (Option.some.inj h)).2.symm
  · exact absurd heq (hmixed s t s' t' (hs t) (hs' t'))
  · exact absurd heq.symm (hmixed s' t' s t (hs' t') (hs t))
  · have h := hs t
    rw [heq, hs' t'] at h
    exact (Prod.mk.inj (Option.some.inj h)).2.symm

/-- a text between two fences -/
def Fence (s : Text) : Prop := ∃ x, s = FENCE ++ x ++ FENCE ∧ Text.find FENCE (x ++ FENCE) = some (x, [])

/-- characters of one line between two ticks -/
def Inline (s : Text) : Prop := ∃ x, s = tick :: x ++ [tick] ∧ x ≠ [] ∧ ∀ c ∈ x, inCode c = true

theorem fence_of_fenced {t s : Text} {n : ℕ} (h : fenced t = some (n, s)) : Fence s ∧ s <+: t := by
  unfold fenced at h
  split at h
  · next hstart =>
    obtain ⟨u, rfl⟩ := List.isPrefixOf_iff_prefix.mp hstart
    have hdrop : (FENCE ++ u).drop 3 = u := rfl
    rw [hdrop] at h
    obtain ⟨⟨x, y⟩, hfind, heq⟩ := Option.map_eq_some_iff.mp h
    obtain ⟨-, rfl⟩ := Prod.mk.inj heq
    refine ⟨⟨x, rfl, Search.find_self hfind⟩, y, ?_⟩
    rw [Search.find_eq_some hfind, List.append_assoc, List.append_assoc, List.append_assoc]
  · exact nomatch h

theorem Fence.code {s : Text} (h : Fence s) : Code s := by
  obtain ⟨x, rfl, hx⟩ := h
  refine Or.inl fun t => ?_
  have hstart : Text.startsWith FENCE (FENCE ++ x ++ FENCE ++ t) = true := by
    rw [List.append_assoc, List.append_assoc]
    exact List.isPrefixOf_iff_prefix.mpr (List.prefix_append FENCE _)
  have hdrop : (FENCE ++ x ++ FENCE ++ t).drop 3 = x ++ FENCE ++ t := rfl
  unfold fenced
  rw [if_pos hstart, hdrop, Search.find_grow, hx, Option.map_some, Option.map_some]
  refine congrArg some (Prod.ext ?_ rfl)
  rw [List.length_append, List.length_append]
  show x.length + 6 = 3 + x.length + 3
  omega

/-- the language is dropped with the rest of its line left -/
theorem Fence.strip {s : Text} (h : Fence s) : Fence (stripFenceLang s) ∧ stripFenceLang s ⊆ s := by
  obtain ⟨x, rfl, hx⟩ := h
  have hrest : ((FENCE ++ x ++ FENCE).drop 3).dropWhile inCode = x.dropWhile inCode ++ FENCE := by
    show (x ++ FENCE).dropWhile inCode = _
    rw [List.dropWhile_append]
    split
    · next hnil =>
      rw [List.isEmpty_iff.mp hnil]
      rfl
    · rfl
  unfold stripFenceLang
  rw [hrest]
  dsimp only
  split
  · rw [← List.takeWhile_append_dropWhile (p := inCode) (l := x)] at hx
    refine ⟨⟨x.dropWhile inCode, (List.append_assoc _ _ _).symm, Search.find_end hx⟩, ?_⟩
    rw [List.append_assoc]
    exact List.append_subset_of_subset_of_subset (List.subset_append_left FENCE _) (fun c hc => by
      refine List.mem_append_right FENCE ?_
      rcases List.mem_append.mp hc with hc | hc
      · exact List.mem_append_left _ ((List.dropWhile_sublist inCode).subset hc)
      · exact List.mem_append_right _ hc)
  · exact ⟨⟨x, rfl, hx⟩, List.Subset.refl _⟩

theorem inline_spec {t s : Text} {n : ℕ} (h : inline t = some (n, s)) : Inline s := by
  unfold inline at h
  dsimp only at h
  split at h
  · next hcond =>
    obtain ⟨-, rfl⟩ := Prod.mk.inj (Option.some.inj h)
    refine ⟨_, rfl, ?_, fun c hc => List.mem_takeWhile_imp hc⟩
    rintro hnil
    rw [hnil] at hcond
    simp at hcond
  · exact nomatch h

theorem Inline.code {s : Text} (h : Inline s) : Code s := by
  obtain ⟨x, rfl, hne, hx⟩ := h
  refine Or.inr fun t => ?_
  have hspan : ((tick :: x ++ [tick] ++ t).drop 1).takeWhile inCode = x ∧
      ((tick :: x ++ [tick] ++ t).drop 1).dropWhile inCode = tick :: t := by
    have hcut : (tick :: x ++ [tick] ++ t).drop 1 = x ++ tick :: t := List.append_assoc x [tick] t
    rw [hcut, List.takeWhile_append_of_pos hx, List.dropWhile_append_of_pos hx]
    exact ⟨List.append_nil x, rfl⟩
  obtain ⟨c, u, rfl⟩ := List.exists_cons_of_ne_nil hne
  unfold inline
  rw [hspan.1, hspan.2]
  simp

theorem outer_tick : Placeholders.Outer NUL Char.isDigit tick := ⟨rfl, by decide⟩

theorem Fence.bounded {s : Text} (h : Fence s) : Placeholders.Bounded NUL Char.isDigit s := by
  obtain ⟨x, rfl, -⟩ := h
  refine ⟨⟨tick, [tick, tick] ++ x ++ FENCE, rfl, outer_tick⟩, ⟨FENCE ++ x ++ [tick, tick], tick, ?_, outer_tick⟩⟩
  rw [List.append_assoc _ [tick, tick]]
  rfl

theorem Inline.bounded {s : Text} (h : Inline s) : Placeholders.Bounded NUL Char.isDigit s := by
  obtain ⟨x, rfl, -⟩ := h
  exact ⟨⟨tick, x ++ [tick], rfl, outer_tick⟩, ⟨tick :: x, tick, rfl, outer_tick⟩⟩

theorem fence_of_mem {text s : Text} (h : s ∈ fences text) : Fence s ∧ s ⊆ text := by
  obtain ⟨r, hr, rfl⟩ := List.mem_map.mp h
  obtain ⟨u, n, hsuffix, hmatch⟩ := Scan.mem_found hr
  obtain ⟨hfence, hprefix⟩ := fence_of_fenced hmatch
  obtain ⟨hstrip, hsubset⟩ := hfence.strip
  exact ⟨hstrip, List.Subset.trans hsubset (List.Subset.trans hprefix.subset hsuffix.subset)⟩

theorem inline_of_mem {t s : Text} (h : s ∈ Scan.found inline t) : Inline s := by
  obtain ⟨u, n, -, hmatch⟩ := Scan.mem_found h
  exact inline_spec hmatch

theorem code_of_mem {text s : Text} (h : s ∈ codeSpans text) : Code s := by
  rcases Holes.mem_weaveFrom h with h | h
  · exact (fence_of_mem h).1.code
  · exact (inline_of_mem h).code

/-! ## the carved text -/

/-- the spans that are found with placeholders in them -/
def Found (text : Text) (s v : Text) : Prop :=
  ∃ xs, xs ⊆ (List.range' 0 (fences text).length).map placeholder ∧ Filled NUL inert xs v ∧ s = fill NUL xs v

theorem carve_eq {text : Text} (h : NUL ∉ text) : ∃ found,
    carve inline id (carve fenced stripFenceLang (text, [])) =
        (fill NUL ((numbers text).map placeholder) (prose text), fences text ++ found) ∧
      Filled NUL inert ((numbers text).map placeholder) (prose text) ∧
      List.Forall₂ (Found text) found (inlineSpans text) ∧ ∀ s ∈ found, Inline s := by
  obtain ⟨hlen, hcut⟩ : _ ∧ Holes.carved placeholder fenced 0 text = _ := Holes.carved_of_notMem h 0
  have hcount : (Scan.found fenced text).length = (fences text).length := (List.length_map _).symm
  rw [hcount] at hlen hcut
  have hfilled : Filled NUL inert ((List.range' 0 (fences text).length).map placeholder) (outsideFences text) := by
    refine ⟨?_, fun b hb => ?_⟩
    · rw [List.length_map, List.length_range']
      exact hlen
    · obtain ⟨n, -, rfl⟩ := List.mem_map.mp hb
      exact block_placeholder n
  obtain ⟨hprose, hcarved, hfound⟩ :=
    Holes.carved_fill inline_blind (Or.inl rfl) block_placeholder hfilled (fences text).length
  have hnumbers : Holes.weave NUL inline (outsideFences text) ((List.range' 0 (fences text).length).map placeholder)
      ((List.range' (fences text).length (Scan.found inline (outsideFences text)).length).map placeholder) =
        (numbers text).map placeholder := (Holes.map_weaveFrom placeholder _ _).symm
  rw [hnumbers] at hprose hcarved
  refine ⟨Scan.found inline (fill NUL ((List.range' 0 (fences text).length).map placeholder) (outsideFences text)),
    ?_, hprose, hfound, fun s hs => inline_of_mem hs⟩
  unfold carve
  dsimp only [List.length_nil, List.nil_append]
  rw [List.map_id, show (Scan.found fenced text).map stripFenceLang = fences text from rfl, hcut]
  exact Prod.ext hcarved rfl

/-- the rewrites leave the spans as they are, but for their order in links -/
theorem rewritten_fill {bs : List Text} {text : Text} (h : Filled NUL inert bs (prose text)) :
    Filled NUL inert (linkOrder text bs) (rewritten (prose text)) ∧
      rewritten (fill NUL bs (prose text)) = fill NUL (linkOrder text bs) (rewritten (prose text)) := by
  obtain ⟨hheading, hheadings⟩ := subBehind_fill heading_blind h
  obtain ⟨hbullet, hbullets⟩ := subBehind_fill bullet_blind hheading
  obtain ⟨hbold, hbolds⟩ := sub_fill bold_blind hbullet
  have hlinks := Holes.subBehindFrom_fill link_blind (Or.inl rfl) none hbold
  rw [← Scan.sub_eq_subBehind linkMatch none, ← Scan.sub_eq_subBehind linkMatch none] at hlinks
  have hemphasised : emphasised (fill NUL bs (prose text)) = fill NUL bs (emphasised (prose text)) := by
    unfold emphasised
    rw [hheadings, hbullets, hbolds]
  refine ⟨hlinks.1, ?_⟩
  unfold rewritten
  rw [hemphasised]
  exact hlinks.2

theorem linkOrder_perm {β : Type*} (text : Text) (xs : List β) : (linkOrder text xs).Perm xs := Holes.turnedFrom_perm xs

theorem map_linkOrder {β γ : Type*} (f : β → γ) (text : Text) (xs : List β) :
    (linkOrder text xs).map f = linkOrder text (xs.map f) := Holes.map_turnedFrom f xs

/-- the whole conversion, as placeholders and what stands behind them -/
theorem toMrkdwn_eq {text : Text} (h : NUL ∉ text) : ∃ found,
    toMrkdwn text = Placeholders.spliced NUL number (fences text ++ found)
        ((rewritten (prose text)).takeWhile (· != NUL) ++
          (numbered text).flatMap fun e => placeholder e.1 ++ e.2) ∧
      (linkOrder text (numbers text)).length = List.count NUL (rewritten (prose text)) ∧
      List.Forall₂ (Found text) found (inlineSpans text) ∧ ∀ s ∈ found, Inline s := by
  obtain ⟨found, hcarve, hprose, hfound, hinline⟩ := carve_eq h
  obtain ⟨hfilled, hrewritten⟩ := rewritten_fill hprose
  have hlen := hfilled.length
  rw [← map_linkOrder, List.length_map] at hlen
  refine ⟨found, ?_, hlen, hfound, hinline⟩
  have hmap : ((linkOrder text (numbers text)).map placeholder).length = List.count NUL (rewritten (prose text)) := by
    rw [List.length_map]
    exact hlen
  unfold toMrkdwn
  rw [hcarve]
  dsimp only
  rw [hrewritten, ← map_linkOrder, Holes.fill_behind NUL hmap, List.zip_map_left, List.flatMap_map]
  rfl

/-! ## the spans put back -/

/-- a span that holds no fenced block is found as it is, one that does begins with what is no placeholder -/
theorem Found.cases {text s v : Text} (h : Found text s v) :
    (NUL ∉ v ∧ s = v) ∨
      NUL ∈ v ∧ ∃ u k w, s = u ++ (placeholder k ++ w) ∧ NUL ∉ u ∧ k < (fences text).length := by
  obtain ⟨xs, hsub, hfilled, rfl⟩ := h
  by_cases hv : NUL ∈ v
  · right
    refine ⟨hv, ?_⟩
    obtain ⟨u, w, rfl, hu⟩ := List.eq_append_cons_of_mem hv
    obtain ⟨ys, zs, rfl, hys, hzs⟩ := hfilled.split
    have hnil : ys = [] := List.length_eq_zero_iff.mp (hys.length.trans (List.count_eq_zero.mpr hu))
    subst hnil
    rcases hzs.cases with ⟨-, b, zs, rfl, -, -⟩ | ⟨hne, -⟩
    · obtain ⟨k, hk, rfl⟩ := List.mem_map.mp (hsub List.mem_cons_self)
      refine ⟨u, k, fill NUL zs w, ?_, hu, ?_⟩
      · rw [hys.fill_append, Holes.fill_of_notMem NUL [] hu, Holes.fill_hole]
      · have hlt := (List.mem_range'_1.mp hk).2
        omega
    · exact absurd rfl hne
  · exact Or.inl ⟨hv, Holes.fill_of_notMem NUL xs hv⟩

section
variable {text : Text} {found : List Text}

theorem mem_numbers {n : ℕ} (h : n ∈ numbers text) : n < (fences text).length + (inlineSpans text).length := by
  rcases Holes.mem_weaveFrom h with h | h
  · have hlt := (List.mem_range'_1.mp h).2
    omega
  · exact (List.mem_range'_1.mp h).2

theorem mem_numbered {e : ℕ × Text} (h : e ∈ numbered text) : e.1 ∈ numbers text ∧ NUL ∉ e.2 := by
  obtain ⟨hn, hs⟩ := List.of_mem_zip h
  exact ⟨(linkOrder_perm text _).mem_iff.mp hn, Holes.notMem_behind NUL hs⟩

/-- what stands at a number -/
theorem getD_store (hfound : List.Forall₂ (Found text) found (inlineSpans text)) {n : ℕ}
    (h : n < (fences text).length + (inlineSpans text).length) :
    (∃ s ∈ fences text, (fences text ++ found).getD n [] = s) ∨
      (fences text).length ≤ n ∧ ∃ v ∈ inlineSpans text, Found text ((fences text ++ found).getD n []) v := by
  by_cases hn : n < (fences text).length
  · left
    refine ⟨(fences text)[n], List.getElem_mem hn, ?_⟩
    rw [List.getD_append _ _ _ _ hn, List.getD_eq_getElem _ _ hn]
  · right
    have hle : (fences text).length ≤ n := Nat.le_of_not_lt hn
    have hv : n - (fences text).length < (inlineSpans text).length := by omega
    have hs : n - (fences text).length < found.length := by
      rw [hfound.length_eq]
      exact hv
    refine ⟨hle, _, List.getElem_mem hv, ?_⟩
    rw [List.getD_append_right _ _ _ _ hle, List.getD_eq_getElem _ _ hs]
    exact hfound.get hs hv

theorem bounded_store (hinline : ∀ s ∈ found, Inline s) :
    ∀ s ∈ fences text ++ found, Placeholders.Bounded NUL Char.isDigit s := by
  intro s hs
  rcases List.mem_append.mp hs with hs | hs
  · exact (fence_of_mem hs).1.bounded
  · exact (hinline s hs).bounded

theorem kept_store (h : NUL ∉ text) (hfound : List.Forall₂ (Found text) found (inlineSpans text)) :
    Placeholders.Kept NUL number (fences text ++ found) := by
  intro i hi hmark
  rw [List.length_append, hfound.length_eq] at hi
  rcases getD_store hfound hi with ⟨s, hs, heq⟩ | ⟨hle, v, -, hv⟩
  · rw [heq] at hmark
    exact absurd ((fence_of_mem hs).2 hmark) h
  · rcases hv.cases with ⟨hfree, heq⟩ | ⟨-, u, k, w, heq, hu, hk⟩
    · rw [heq] at hmark
      exact absurd hmark hfree
    · exact ⟨u, k, w, heq, hu, by omega⟩

/-- the numbers with a mark in what stands there are those of inline spans with a fenced block in them -/
theorem free_iff (h : NUL ∉ text) (hfound : List.Forall₂ (Found text) found (inlineSpans text))
    (hlen : (linkOrder text (numbers text)).length = List.count NUL (rewritten (prose text))) :
    (∀ e ∈ numbered text, NUL ∉ (fences text ++ found).getD e.1 []) ↔ ∀ s ∈ inlineSpans text, NUL ∉ s := by
  constructor
  · intro hall s hs hmark
    obtain ⟨j, hj, rfl⟩ := List.mem_iff_getElem.mp hs
    have hrange : (fences text).length + j ∈
        List.range' (fences text).length (inlineSpans text).length := List.mem_range'_1.mpr ⟨by omega, by omega⟩
    have hnumber : (fences text).length + j ∈ linkOrder text (numbers text) :=
      (linkOrder_perm text _).mem_iff.mpr (Holes.subset_weaveFrom (List.length_range').le hrange)
    have hfst : (numbered text).map Prod.fst = linkOrder text (numbers text) :=
      List.map_fst_zip (by rw [hlen, Holes.length_behind])
    rw [← hfst] at hnumber
    obtain ⟨e, he, heq⟩ := List.mem_map.mp hnumber
    have hjf : j < found.length := by
      rw [hfound.length_eq]
      exact hj
    have hget := hall e he
    rw [heq, List.getD_append_right _ _ _ _ (Nat.le_add_right _ _), Nat.add_sub_cancel_left,
      List.getD_eq_getElem _ _ hjf] at hget
    rcases (hfound.get hjf hj).cases with ⟨hfree, -⟩ | ⟨-, u, k, w, hcut, -, -⟩
    · exact hfree hmark
    · refine hget ?_
      rw [show found[j] = found.get ⟨j, hjf⟩ from rfl, hcut]
      exact List.mem_append_right u List.mem_cons_self
  · intro hall e he
    rcases getD_store hfound (mem_numbers (mem_numbered he).1) with ⟨s, hs, heq⟩ | ⟨-, v, hv, hcases⟩
    · rw [heq]
      exact fun hmark => h ((fence_of_mem hs).2 hmark)
    · rcases hcases.cases with ⟨hfree, heq⟩ | ⟨hmark, -⟩
      · rw [heq]
        exact hfree
      · exact absurd hmark (hall v hv)

theorem found_eq (hfound : List.Forall₂ (Found text) found (inlineSpans text))
    (hfree : ∀ s ∈ inlineSpans text, NUL ∉ s) : found = inlineSpans text := by
  revert hfree
  generalize inlineSpans text = spans at hfound
  intro hfree
  induction hfound with
  | nil => rfl
  | cons hs _ ih =>
    rcases hs.cases with ⟨-, rfl⟩ | ⟨hmark, -⟩
    · rw [ih fun r hr => hfree r (List.mem_cons_of_mem _ hr)]
    · exact absurd hmark (hfree _ List.mem_cons_self)

end

/-- a part of a list, read by its places -/
theorem map_getD_range' (xs ys zs : List Text) :
    (List.range' xs.length ys.length).map (fun i => (xs ++ (ys ++ zs)).getD i []) = ys := by
  refine List.ext_getElem ?_ fun i hi hi' => ?_
  · rw [List.length_map, List.length_range']
  · rw [List.getElem_map, List.getElem_range', Nat.one_mul, List.getD_append_right _ _ _ _ (Nat.le_add_right _ _),
      Nat.add_sub_cancel_left, List.getD_append _ _ _ _ hi', List.getD_eq_getElem _ _ hi']

/-- the spans by their numbers -/
theorem map_numbers (text : Text) :
    (numbers text).map (fun i => (fences text ++ inlineSpans text).getD i []) = codeSpans text := by
  have hfences := map_getD_range' [] (fences text) (inlineSpans text)
  have hinline := map_getD_range' (fences text) (inlineSpans text) []
  rw [List.append_nil] at hinline
  unfold numbers woven Holes.weave
  rw [Holes.map_weaveFrom, hinline]
  exact congrArg (fun fs => Holes.weaveFrom NUL inline 0 (outsideFences text) fs (inlineSpans text)) hfences

/-- what is written behind the placeholders, by the spans -/
theorem fill_numbered {text : Text} {store : List Text}
    (hlen : (linkOrder text (numbers text)).length = List.count NUL (rewritten (prose text))) :
    ((rewritten (prose text)).takeWhile (· != NUL) ++ (numbered text).flatMap fun e => store.getD e.1 [] ++ e.2) =
      fill NUL (linkOrder text ((numbers text).map fun i => store.getD i [])) (rewritten (prose text)) := by
  have hmap : ((linkOrder text (numbers text)).map fun i => store.getD i []).length =
      List.count NUL (rewritten (prose text)) := by
    rw [List.length_map]
    exact hlen
  rw [← map_linkOrder, Holes.fill_behind NUL hmap, List.zip_map_left, List.flatMap_map]
  rfl

/-- the spans are where they were exactly when the links leave them in their order -/
theorem fill_linkOrder_iff {text : Text}
    (hlen : (linkOrder text (numbers text)).length = List.count NUL (rewritten (prose text))) :
    fill NUL (linkOrder text (codeSpans text)) (rewritten (prose text)) =
        fill NUL (codeSpans text) (rewritten (prose text)) ↔
      linkOrder text (codeSpans text) = codeSpans text := by
  have hspans : (codeSpans text).length = List.count NUL (rewritten (prose text)) := by
    rw [← map_numbers, List.length_map, ← hlen, (linkOrder_perm text _).length_eq]
  have horder : (linkOrder text (codeSpans text)).length = List.count NUL (rewritten (prose text)) := by
    rw [(linkOrder_perm text _).length_eq, hspans]
  refine ⟨fun heq => ?_, fun heq => by rw [heq]⟩
  refine code_prefixFree.fill_inj NUL (fun s hs => ?_) (fun s hs => code_of_mem hs) horder hspans heq
  exact code_of_mem ((linkOrder_perm text _).mem_iff.mp hs)

/-- code survives exactly when no inline span holds a fenced block, no digits between two spans are the number of
a span before theirs, and no link has other code in its target than in its text -/
theorem survives_iff (text : Text) (h : NUL ∉ text) : Survives text ↔
    (∀ s ∈ inlineSpans text, NUL ∉ s) ∧ (∀ i, ¬ Placeholders.Forged number (numbered text) i) ∧
      linkOrder text (codeSpans text) = codeSpans text := by
  obtain ⟨found, htext, hlen, hfound, hinline⟩ := toMrkdwn_eq h
  have hbound : ∀ e ∈ numbered text, e.1 < (fences text ++ found).length := fun e he => by
    rw [List.length_append, hfound.length_eq]
    exact mem_numbers (mem_numbered he).1
  obtain ⟨hfree, hspliced⟩ := labels.spliced_iff (bounded_store hinline) (kept_store h hfound)
    (Holes.notMem_takeWhile NUL (rewritten (prose text))) (fun e he => (mem_numbered he).2) hbound
  have hplaceholder : ∀ n, Placeholders.placeholder NUL number n = placeholder n := fun _ => rfl
  simp only [hplaceholder] at hfree hspliced
  rw [← htext] at hfree hspliced
  rw [free_iff h hfound hlen] at hfree
  -- the text when no mark is left
  have hdone : NUL ∉ toMrkdwn text →
      toMrkdwn text = fill NUL (linkOrder text (codeSpans text)) (rewritten (prose text)) := by
    intro hclean
    rw [hspliced hclean, fill_numbered hlen, found_eq hfound (hfree.mp hclean).2, map_numbers]
  constructor
  · rintro ⟨htext, hclean⟩
    obtain ⟨hforged, hspans⟩ := hfree.mp hclean
    refine ⟨hspans, hforged, (fill_linkOrder_iff hlen).mp ?_⟩
    rw [← hdone hclean, htext]
  · rintro ⟨hspans, hforged, horder⟩
    have hclean := hfree.mpr ⟨hforged, hspans⟩
    exact ⟨by rw [hdone hclean, horder], hclean⟩

/-- no number is forged where nothing but digits stands behind no span -/
theorem not_forged {text : Text} (h : ∀ e ∈ numbered text, e.2.isEmpty || e.2.any (!·.isDigit)) (i : ℕ) :
    ¬ Placeholders.Forged number (numbered text) i := by
  rintro ⟨l₁, j, j', s, l₂, heq, -⟩
  have hmem : (j, number i) ∈ numbered text := by
    rw [heq]
    exact List.mem_append_right l₁ List.mem_cons_self
  have hi := h _ hmem
  rw [Bool.or_eq_true, List.isEmpty_iff, List.any_eq_true] at hi
  rcases hi with hnil | ⟨c, hc, hdigit⟩
  · exact Nat.toDigits_ne_nil hnil
  · rw [digit_of_mem_number hc] at hdigit
    exact nomatch hdigit

theorem survives_iff_heading : Survives "# `a` **b**\n```c\nd\n``` `e`".toList :=
  (survives_iff _ (by decide)).mpr ⟨by decide +kernel, not_forged (by decide +kernel), by decide +kernel⟩

/-- the digit between the second and the third span, with their placeholders around it, is taken for the placeholder
of the first -/
theorem not_survives : ¬ ∀ text : Text, NUL ∉ text → Survives text := by
  intro h
  have hs := (h "`x` `a`0`b`".toList (by decide)).2
  revert hs
  decide +kernel

end Mrkdwn
