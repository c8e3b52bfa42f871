import Mathlib.Algebra.GroupWithZero.Nat
import Mathlib.Algebra.Ring.Int.Defs
import Mathlib.Data.List.DropRight

/-!
# Texts as lists of characters

The string operations the models share: white space, stripping, words, lines, prefixes.  White space
is the set of characters the host language's `isspace` names.

* `strip`, `lstrip`, `rstrip`   outer white space removed;
* `words`, `oneLine`            the runs between white space, and the words joined by one space;
* `linesOf`, `unlines`          a text split at every newline, and put together again;
* `words_append_space`, `words_space_append`   outer white space changes no word;
* `find`, `count`               the first occurrence of another text, and how many there are;
* `universalNewlines`, `splitlines`   the line ends a text is read with;
* `map_oneLine`                 what is the same of a text and of its words joined;
* `oneLine_oneLine`, `strip_strip`    normal forms;
* `head?_splitlines`            what stands before the first line end is the first line.
-/

set_option linter.unusedSectionVars false

abbrev Text := List Char

instance : LawfulBEq Text := inferInstance

namespace Text

/-- decided over the characters of the text, before any search over all characters -/
instance (priority := 2000) decidableForall {p : Char → Prop} [DecidablePred p] (t : Text) :
    Decidable (∀ c ∈ t, p c) := List.decidableBAll p t

instance (priority := 2000) decidableExists {p : Char → Prop} [DecidablePred p] (t : Text) :
    Decidable (∃ c ∈ t, p c) := List.decidableBEx p t

/-- the characters `str.isspace` accepts -/
def isSpace (c : Char) : Bool :=
  let n := c.toNat
  (9 ≤ n && n ≤ 13) || (28 ≤ n && n ≤ 32) || n == 0x85 || n == 0xa0 || n == 0x1680 ||
    (0x2000 ≤ n && n ≤ 0x200a) || n == 0x2028 || n == 0x2029 || n == 0x202f || n == 0x205f ||
    n == 0x3000

def lstrip (t : Text) : Text := t.dropWhile isSpace
def rstrip (t : Text) : Text := t.rdropWhile isSpace
def strip (t : Text) : Text := rstrip (lstrip t)

/-- `str.strip(chars)` for one character -/
def stripChar (c : Char) (t : Text) : Text := (t.dropWhile (· == c)).rdropWhile (· == c)

/-- nothing but white space -/
def isBlank (t : Text) : Bool := t.all isSpace

/-- `str.split()`: the maximal runs without white space -/
def words (t : Text) : List Text := (t.splitOnP isSpace).filter fun w => !w.isEmpty

/-- `" ".join(str.split())` -/
def oneLine (t : Text) : Text := [' '].intercalate (words t)

def linesOf (t : Text) : List Text := t.splitOn '\n'
def unlines (ls : List Text) : Text := ['\n'].intercalate ls

def startsWith (p t : Text) : Bool := p.isPrefixOf t
def endsWith (p t : Text) : Bool := p.isSuffixOf t

/-- `str.partition(p)`: the text before and after the first occurrence of `p` -/
def find (p : Text) : Text → Option (Text × Text)
  | [] => if p.isEmpty then some ([], []) else none
  | c :: t =>
    if p.isPrefixOf (c :: t) then some ([], (c :: t).drop p.length)
    else (find p t).map fun r => (c :: r.1, r.2)

/-- `p in t` -/
def contains (p t : Text) : Bool := (find p t).isSome

/-- `str.removesuffix(p)` -/
def removeSuffix (p t : Text) : Text := if p.isSuffixOf t then t.take (t.length - p.length) else t

/-- `str.count(p)`: how often `p` occurs, places not overlapping -/
def countFrom (p : Text) : ℕ → Text → ℕ
  | _, [] => 0
  | k + 1, _ :: t => countFrom p k t
  | 0, c :: t =>
    if p.isPrefixOf (c :: t) then countFrom p (p.length - 1) t + 1 else countFrom p 0 t

def count (p t : Text) : ℕ := countFrom p 0 t

/-- the line ends of `str.splitlines` -/
def isLineEnd (c : Char) : Bool :=
  let n := c.toNat
  (10 ≤ n && n ≤ 13) || (0x1c ≤ n && n ≤ 0x1e) || n == 0x85 || n == 0x2028 || n == 0x2029

/-- text read with universal newlines -/
def universalNewlines : Text → Text
  | '\r' :: '\n' :: t => '\n' :: universalNewlines t
  | '\r' :: t => '\n' :: universalNewlines t
  | c :: t => c :: universalNewlines t
  | [] => []

/-- `str.splitlines()`: no line after a line end that ends the text -/
def splitlines (t : Text) : List Text :=
  let ls := (universalNewlines t).splitOnP isLineEnd
  if ls.getLast? = some [] then ls.dropLast else ls

/-! ## white space -/

theorem isSpace_newline : isSpace '\n' = true := rfl
theorem isSpace_space : isSpace ' ' = true := rfl

theorem isBlank_iff {t : Text} : isBlank t = true ↔ ∀ c ∈ t, isSpace c = true :=
  List.all_eq_true

theorem isBlank_append {s t : Text} : isBlank (s ++ t) = (isBlank s && isBlank t) :=
  List.all_append

theorem rstrip_prefix (t : Text) : rstrip t <+: t := List.rdropWhile_prefix isSpace t

/-- a text is its stripped form followed by white space -/
theorem rstrip_append (t : Text) : ∃ w, isBlank w = true ∧ t = rstrip t ++ w := by
  refine ⟨t.rtakeWhile isSpace, ?_, List.rdropWhile_append_rtakeWhile.symm⟩
  exact isBlank_iff.mpr fun c hc => List.mem_rtakeWhile_imp hc

theorem lstrip_append (t : Text) : ∃ w, isBlank w = true ∧ t = w ++ lstrip t := by
  refine ⟨t.takeWhile isSpace, ?_, List.takeWhile_append_dropWhile.symm⟩
  exact isBlank_iff.mpr fun c hc => List.mem_takeWhile_imp hc

theorem rstrip_eq_self {t : Text} (h : ∀ hl : t ≠ [], isSpace (t.getLast hl) = false) :
    rstrip t = t :=
  List.rdropWhile_eq_self_iff.mpr fun hl => by rw [h hl]; exact Bool.false_ne_true

theorem lstrip_eq_self {c : Char} {t : Text} (h : isSpace c = false) :
    lstrip (c :: t) = c :: t := by
  unfold lstrip
  rw [List.dropWhile_cons_of_neg (by rw [h]; exact Bool.false_ne_true)]

theorem strip_eq_self_of_all {t : Text} (h : ∀ c ∈ t, isSpace c = false) : strip t = t := by
  have hleft : lstrip t = t := by
    cases t with
    | nil => rfl
    | cons c t => exact lstrip_eq_self (h c List.mem_cons_self)
  unfold strip
  rw [hleft]
  exact rstrip_eq_self fun hl => h _ (List.getLast_mem hl)

theorem rstrip_nil : rstrip [] = [] := List.rdropWhile_nil isSpace

theorem rstrip_append_blank {t w : Text} (hw : isBlank w = true) : rstrip (t ++ w) = rstrip t := by
  induction w using List.reverseRecOn with
  | nil => rw [List.append_nil]
  | append_singleton w c ih =>
    rw [isBlank_append, Bool.and_eq_true] at hw
    have hc : isSpace c = true := isBlank_iff.mp hw.2 c (List.mem_singleton_self c)
    rw [← List.append_assoc]
    show List.rdropWhile isSpace ((t ++ w) ++ [c]) = _
    rw [List.rdropWhile_concat_pos isSpace _ _ hc]
    exact ih hw.1

theorem rstrip_append_of_ne {s t : Text} (h : isBlank t = false) :
    rstrip (s ++ t) = s ++ rstrip t := by
  obtain ⟨w, hw, ht⟩ := rstrip_append t
  have hne : rstrip t ≠ [] := by
    intro e
    rw [e, List.nil_append] at ht
    rw [ht, hw] at h
    exact Bool.noConfusion h
  have hlast : isSpace ((rstrip t).getLast hne) = false := by
    exact Bool.eq_false_iff.mpr (List.rdropWhile_last_not isSpace t hne)
  calc rstrip (s ++ t) = rstrip ((s ++ rstrip t) ++ w) := by rw [List.append_assoc, ← ht]
    _ = rstrip (s ++ rstrip t) := rstrip_append_blank hw
    _ = s ++ rstrip t := rstrip_eq_self fun hl => by
        rw [List.getLast_append_of_ne_nil hl hne]; exact hlast

/-! ## words -/

theorem splitOnP_blank {w : Text} (hw : isBlank w = true) :
    ∀ v ∈ w.splitOnP isSpace, v = [] := by
  induction w with
  | nil => intro v hv; simpa using hv
  | cons c w ih =>
    have hc : isSpace c = true := isBlank_iff.mp hw c List.mem_cons_self
    have hw' : isBlank w = true :=
      isBlank_iff.mpr fun d hd => isBlank_iff.mp hw d (List.mem_cons_of_mem c hd)
    intro v hv
    rw [List.splitOnP_cons_eq_if_modifyHead, if_pos hc] at hv
    rcases List.mem_cons.mp hv with rfl | hv
    · rfl
    · exact ih hw' v hv

theorem words_blank {w : Text} (hw : isBlank w = true) : words w = [] := by
  unfold words
  rw [List.filter_eq_nil_iff]
  intro v hv
  rw [splitOnP_blank hw v hv]
  simp

theorem words_cons_space {c : Char} {t : Text} (hc : isSpace c = true) : words (c :: t) = words t := by
  unfold words
  rw [List.splitOnP_cons_eq_if_modifyHead, if_pos hc, List.filter_cons_of_neg (by simp)]

theorem words_append_cons {s t : Text} {c : Char} (hc : isSpace c = true) :
    words (s ++ c :: t) = words s ++ words t := by
  unfold words
  rw [List.splitOnP_append_cons s t hc, List.filter_append]

theorem words_append_space {t w : Text} (hw : isBlank w = true) : words (t ++ w) = words t := by
  cases w with
  | nil => rw [List.append_nil]
  | cons c w =>
    have hc : isSpace c = true := isBlank_iff.mp hw c List.mem_cons_self
    have hw' : isBlank w = true :=
      isBlank_iff.mpr fun d hd => isBlank_iff.mp hw d (List.mem_cons_of_mem c hd)
    rw [words_append_cons hc, words_blank hw', List.append_nil]

theorem words_space_append {t w : Text} (hw : isBlank w = true) : words (w ++ t) = words t := by
  induction w with
  | nil => rfl
  | cons c w ih =>
    have hc : isSpace c = true := isBlank_iff.mp hw c List.mem_cons_self
    have hw' : isBlank w = true :=
      isBlank_iff.mpr fun d hd => isBlank_iff.mp hw d (List.mem_cons_of_mem c hd)
    rw [List.cons_append, words_cons_space hc, ih hw']

/-! ## lines -/

theorem unlines_linesOf (t : Text) : unlines (linesOf t) = t := List.intercalate_splitOn '\n'

theorem linesOf_unlines {ls : List Text} (h : ∀ l ∈ ls, '\n' ∉ l) (hne : ls ≠ []) :
    linesOf (unlines ls) = ls := List.splitOn_intercalate '\n' h hne

theorem linesOf_ne_nil (t : Text) : linesOf t ≠ [] := List.splitOn_ne_nil '\n' t

theorem unlines_cons {l : Text} {ls : List Text} (h : ls ≠ []) :
    unlines (l :: ls) = l ++ '\n' :: unlines ls := by
  unfold unlines
  rw [List.intercalate_cons_of_ne_nil h]
  simp

theorem unlines_append {as bs : List Text} (ha : as ≠ []) (hb : bs ≠ []) :
    unlines (as ++ bs) = unlines as ++ '\n' :: unlines bs := by
  induction as with
  | nil => exact absurd rfl ha
  | cons a as ih =>
    cases as with
    | nil =>
      rw [List.singleton_append, unlines_cons hb]
      simp [unlines]
    | cons a' as =>
      rw [List.cons_append, unlines_cons (by simp), unlines_cons (by simp), ih (by simp)]
      simp

theorem mem_linesOf_newline {t l : Text} (h : l ∈ linesOf t) : '\n' ∉ l := by
  induction t generalizing l with
  | nil =>
    have : l = [] := by simpa [linesOf] using h
    rw [this]; exact List.not_mem_nil
  | cons c t ih =>
    unfold linesOf at h ih
    rw [List.splitOn_cons_eq_if_modifyHead] at h
    by_cases hc : c = '\n'
    · rw [if_pos (by simpa using hc)] at h
      rcases List.mem_cons.mp h with rfl | h
      · exact List.not_mem_nil
      · exact ih h
    · rw [if_neg (by simpa using hc)] at h
      obtain ⟨m, ms, hm⟩ := List.exists_cons_of_ne_nil (List.splitOn_ne_nil '\n' t)
      rw [hm] at h ih
      rcases List.mem_cons.mp (by simpa using h) with rfl | h
      · intro hn
        rcases List.mem_cons.mp hn with e | hn
        · exact hc e.symm
        · exact ih List.mem_cons_self hn
      · exact ih (List.mem_cons_of_mem m h)

theorem unlines_singleton (l : Text) : unlines [l] = l := by
  unfold unlines
  simp

theorem head?_unlines_cons {l : Text} (hl : l ≠ []) (ls : List Text) :
    (unlines (l :: ls)).head? = l.head? := by
  cases ls with
  | nil => rw [unlines_singleton]
  | cons m ls =>
    rw [unlines_cons (List.cons_ne_nil m ls)]
    cases l with
    | nil => exact absurd rfl hl
    | cons c l => rfl

theorem getLast?_unlines_append {l : Text} (hl : l ≠ []) (ls : List Text) :
    (unlines (ls ++ [l])).getLast? = l.getLast? := by
  cases ls with
  | nil => rw [List.nil_append, unlines_singleton]
  | cons m ls =>
    rw [unlines_append (List.cons_ne_nil m ls) (List.cons_ne_nil l []), unlines_singleton,
      List.getLast?_append_of_ne_nil _ (List.cons_ne_nil '\n' l), List.getLast?_cons]
    cases h : l.getLast? with
    | none => exact absurd (List.getLast?_eq_none_iff.mp h) hl
    | some c => rfl

theorem stripChar_eq_self {c : Char} {t : Text} (hh : t.head? ≠ some c) (hl : t.getLast? ≠ some c) :
    stripChar c t = t := by
  have hd : t.dropWhile (· == c) = t := by
    cases t with
    | nil => rfl
    | cons d t =>
      refine List.dropWhile_cons_of_neg fun hdc => hh ?_
      rw [List.head?_cons, beq_iff_eq.mp hdc]
  unfold stripChar
  rw [hd]
  refine List.rdropWhile_eq_self_iff.mpr fun hne hlast => hl ?_
  rw [List.getLast?_eq_some_getLast hne, beq_iff_eq.mp hlast]

/-- the end of one character that `str.strip(chars)` takes off -/
theorem stripChar_concat {c : Char} {t : Text} (hh : t.head? ≠ some c) (ht : t ≠ []) :
    stripChar c (t ++ [c]) = stripChar c t := by
  cases t with
  | nil => exact absurd rfl ht
  | cons d t =>
    have hd : ¬ (d == c) = true := fun hdc => hh (by rw [List.head?_cons, beq_iff_eq.mp hdc])
    have hdrop (u : Text) : (d :: u).dropWhile (· == c) = d :: u := List.dropWhile_cons_of_neg hd
    unfold stripChar
    rw [List.cons_append, hdrop, hdrop, ← List.cons_append]
    exact List.rdropWhile_concat_pos (· == c) _ _ (beq_self_eq_true c)

theorem rstrip_rdropWhile_newline (t : Text) : rstrip (t.rdropWhile (· == '\n')) = rstrip t := by
  have hblank : isBlank (t.rtakeWhile (· == '\n')) = true := isBlank_iff.mpr fun c hc => by
    have hnl := List.mem_rtakeWhile_imp hc
    rw [beq_iff_eq.mp hnl]
    rfl
  calc rstrip (t.rdropWhile (· == '\n'))
      = rstrip (t.rdropWhile (· == '\n') ++ t.rtakeWhile (· == '\n')) :=
        (rstrip_append_blank hblank).symm
    _ = rstrip t := by rw [List.rdropWhile_append_rtakeWhile]

theorem rstrip_stripChar_append {t w : Text} (ht : isBlank t = false) (hw : isBlank w = true) :
    rstrip (stripChar '\n' (t ++ w)) = rstrip (stripChar '\n' t) := by
  have hne : (t.dropWhile (· == '\n')).isEmpty = false := by
    refine Bool.eq_false_iff.mpr fun hemp => ?_
    have hall := List.dropWhile_eq_nil_iff.mp (List.isEmpty_iff.mp hemp)
    refine Bool.eq_false_iff.mp ht (isBlank_iff.mpr fun c hc => ?_)
    rw [beq_iff_eq.mp (hall c hc)]
    rfl
  unfold stripChar
  rw [rstrip_rdropWhile_newline, rstrip_rdropWhile_newline, List.dropWhile_append, hne,
    if_neg Bool.false_ne_true, rstrip_append_blank hw]

theorem unlines_concat_append (ls : List Text) (l w : Text) :
    unlines (ls ++ [l ++ w]) = unlines (ls ++ [l]) ++ w := by
  cases ls with
  | nil => rw [List.nil_append, List.nil_append, unlines_singleton, unlines_singleton]
  | cons m ls =>
    rw [unlines_append (List.cons_ne_nil m ls) (List.cons_ne_nil _ []),
      unlines_append (List.cons_ne_nil m ls) (List.cons_ne_nil _ []), unlines_singleton,
      unlines_singleton, List.append_assoc, List.cons_append]

theorem rstrip_unlines_concat (ls : List Text) {l : Text} (h : isBlank l = false) :
    rstrip (unlines (ls ++ [l])) = unlines (ls ++ [rstrip l]) := by
  cases ls with
  | nil => rw [List.nil_append, List.nil_append, unlines_singleton, unlines_singleton]
  | cons m ls =>
    rw [unlines_append (List.cons_ne_nil m ls) (List.cons_ne_nil _ []),
      unlines_append (List.cons_ne_nil m ls) (List.cons_ne_nil _ []), unlines_singleton,
      unlines_singleton]
    have hcons := rstrip_append_of_ne (s := unlines (m :: ls) ++ ['\n']) h
    rwa [List.append_assoc, List.append_assoc] at hcons

theorem ne_nil_of_not_blank {t : Text} (h : isBlank t = false) : t ≠ [] := by
  rintro rfl
  exact Bool.noConfusion h

theorem rstrip_rstrip (t : Text) : rstrip (rstrip t) = rstrip t := by
  obtain ⟨w, hw, ht⟩ := rstrip_append t
  calc rstrip (rstrip t) = rstrip (rstrip t ++ w) := (rstrip_append_blank hw).symm
    _ = rstrip t := by rw [← ht]

theorem rstrip_eq_nil_of_blank {t : Text} (h : isBlank t = true) : rstrip t = [] := by
  have hnil := rstrip_append_blank (t := []) h
  rwa [List.nil_append, rstrip_nil] at hnil

theorem rstrip_cons_of_not_space {c : Char} {t : Text} (h : isSpace c = false) :
    rstrip (c :: t) = c :: rstrip t := by
  cases hb : isBlank t with
  | true =>
    have happ := rstrip_append_blank (t := [c]) hb
    rw [List.singleton_append] at happ
    rw [happ, rstrip_eq_nil_of_blank hb]
    exact rstrip_eq_self fun _ => h
  | false => exact rstrip_append_of_ne (s := [c]) hb

theorem not_blank_rstrip {t : Text} (h : isBlank t = false) : isBlank (rstrip t) = false := by
  obtain ⟨w, hw, ht⟩ := rstrip_append t
  rw [ht, isBlank_append, hw, Bool.and_true] at h
  exact h

theorem not_blank_cons {c : Char} (h : isSpace c = false) (t : Text) : isBlank (c :: t) = false := by
  unfold isBlank
  rw [List.all_cons, h]
  rfl

/-- a text that is not blank is white space and a text that begins with something else -/
theorem not_blank_split {t : Text} (h : isBlank t = false) :
    ∃ ws c u, t = ws ++ c :: u ∧ isBlank ws = true ∧ isSpace c = false := by
  induction t with
  | nil => exact Bool.noConfusion h
  | cons d t ih =>
    cases hd : isSpace d with
    | false => exact ⟨[], d, t, rfl, rfl, hd⟩
    | true =>
      have ht : isBlank t = false := by
        unfold isBlank at h ⊢
        rwa [List.all_cons, hd, Bool.true_and] at h
      obtain ⟨ws, c, u, rfl, hws, hc⟩ := ih ht
      refine ⟨d :: ws, c, u, rfl, ?_, hc⟩
      unfold isBlank at hws ⊢
      rw [List.all_cons, hd, hws]
      rfl

theorem lstrip_append_of_blank {w t : Text} (h : isBlank w = true) : lstrip (w ++ t) = lstrip t := by
  unfold lstrip
  rw [List.dropWhile_append, List.dropWhile_eq_nil_iff.mpr (isBlank_iff.mp h)]
  rfl

theorem strip_rstrip (t : Text) : strip (rstrip t) = strip t := by
  cases hb : isBlank t with
  | true =>
    unfold strip
    rw [rstrip_eq_nil_of_blank hb]
    have hl : lstrip t = [] := List.dropWhile_eq_nil_iff.mpr (isBlank_iff.mp hb)
    rw [hl]
    rfl
  | false =>
    obtain ⟨ws, c, u, rfl, hws, hc⟩ := not_blank_split hb
    unfold strip
    rw [rstrip_append_of_ne (not_blank_cons hc u), lstrip_append_of_blank hws, lstrip_append_of_blank hws,
      rstrip_cons_of_not_space hc, lstrip_eq_self hc, lstrip_eq_self hc,
      rstrip_cons_of_not_space hc, rstrip_cons_of_not_space hc, rstrip_rstrip]

theorem lstrip_lstrip (t : Text) : lstrip (lstrip t) = lstrip t := List.dropWhile_idempotent _ t

theorem strip_strip (t : Text) : strip (strip t) = strip t := by
  show strip (rstrip (lstrip t)) = rstrip (lstrip t)
  rw [strip_rstrip]
  show rstrip (lstrip (lstrip t)) = rstrip (lstrip t)
  rw [lstrip_lstrip]

theorem isBlank_strip {t : Text} (h : isBlank t = false) : isBlank (strip t) = false := by
  obtain ⟨w, hw, ht⟩ := lstrip_append t
  rw [ht, isBlank_append, hw, Bool.true_and] at h
  exact not_blank_rstrip h

theorem length_strip_le (t : Text) : (strip t).length ≤ t.length :=
  (( rstrip_prefix (lstrip t)).length_le).trans (List.dropWhile_suffix isSpace).length_le

theorem mem_strip {t : Text} {c : Char} (h : c ∈ strip t) : c ∈ t :=
  (List.dropWhile_suffix isSpace).subset (( rstrip_prefix (lstrip t)).subset h)

/-- stripping keeps the characters of a class that white space is not in -/
theorem filter_strip {p : Char → Bool} (hp : ∀ c, isSpace c = true → p c = false) (t : Text) :
    (strip t).filter p = t.filter p := by
  have hblank : ∀ w : Text, isBlank w = true → w.filter p = [] := fun w hw => by
    rw [List.filter_eq_nil_iff]
    intro c hc
    rw [hp c (List.all_eq_true.mp hw c hc)]
    exact Bool.false_ne_true
  obtain ⟨v, hv, hl⟩ := lstrip_append t
  obtain ⟨w, hw, hr⟩ := rstrip_append (lstrip t)
  have ht : t = v ++ (strip t ++ w) := hl.trans (congrArg (v ++ ·) hr)
  conv_rhs => rw [ht]
  rw [List.filter_append, List.filter_append, hblank v hv, hblank w hw, List.nil_append, List.append_nil]

/-! ## one line -/

theorem not_space_of_mem_words {t w : Text} (h : w ∈ words t) : w ≠ [] ∧ ∀ c ∈ w, isSpace c = false := by
  obtain ⟨hw, hne⟩ := List.mem_filter.mp h
  refine ⟨fun e => Bool.false_ne_true (by rw [e] at hne; exact hne), ?_⟩
  clear h hne
  induction t generalizing w with
  | nil =>
    rw [List.splitOnP_nil, List.mem_singleton] at hw
    rw [hw]
    exact fun c hc => absurd hc List.not_mem_nil
  | cons d t ih =>
    rw [List.splitOnP_cons_eq_if_modifyHead] at hw
    split at hw
    · rcases List.mem_cons.mp hw with rfl | hw
      · exact fun c hc => absurd hc List.not_mem_nil
      · exact ih hw
    · next hd =>
      obtain ⟨m, ms, hm⟩ := List.exists_cons_of_ne_nil (List.splitOnP_ne_nil isSpace t)
      rw [hm, List.modifyHead_cons] at hw
      rcases List.mem_cons.mp hw with rfl | hw
      · intro c hc
        rcases List.mem_cons.mp hc with rfl | hc
        · exact (Bool.not_eq_true _).mp hd
        · exact ih (hm ▸ List.mem_cons_self) c hc
      · exact ih (hm ▸ List.mem_cons_of_mem m hw)

theorem words_eq_singleton {w : Text} (hne : w ≠ []) (h : ∀ c ∈ w, isSpace c = false) :
    words w = [w] := by
  have hsplit : w.splitOnP isSpace = [w] :=
    List.splitOnP_eq_singleton h
  rw [words, hsplit, List.filter_cons_of_pos]
  · rfl
  · rw [List.isEmpty_eq_false_iff.mpr hne]
    rfl

theorem words_oneLine (t : Text) : words (oneLine t) = words t := by
  have hwords : ∀ ws : List Text, (∀ w ∈ ws, w ≠ [] ∧ ∀ c ∈ w, isSpace c = false) →
      words ([' '].intercalate ws) = ws := by
    intro ws hws
    induction ws with
    | nil => rfl
    | cons w ws ih =>
      obtain ⟨hne, hspace⟩ := hws w List.mem_cons_self
      have ih := ih fun v hv => hws v (List.mem_cons_of_mem w hv)
      cases ws with
      | nil =>
        rw [List.intercalate_singleton]
        exact words_eq_singleton hne hspace
      | cons v ws =>
        rw [List.intercalate_cons_of_ne_nil (List.cons_ne_nil v ws), List.append_assoc,
          List.singleton_append, words_append_cons isSpace_space, ih, words_eq_singleton hne hspace]
        rfl
  exact hwords _ fun w hw => not_space_of_mem_words hw

theorem mem_oneLine {t : Text} {c : Char} (h : c ∈ oneLine t) : c = ' ' ∨ isSpace c = false := by
  have hjoin : ∀ ws : List Text, (∀ w ∈ ws, ∀ d ∈ w, isSpace d = false) → c ∈ [' '].intercalate ws →
      c = ' ' ∨ isSpace c = false := by
    intro ws
    induction ws with
    | nil => exact fun _ hc => absurd hc List.not_mem_nil
    | cons w ws ih =>
      intro hws hc
      cases ws with
      | nil =>
        rw [List.intercalate_singleton] at hc
        exact Or.inr (hws w List.mem_cons_self c hc)
      | cons v ws =>
        rw [List.intercalate_cons_cons] at hc
        rcases List.mem_append.mp hc with hc | hc
        · rcases List.mem_append.mp hc with hc | hc
          · exact Or.inr (hws w List.mem_cons_self c hc)
          · exact Or.inl (List.mem_singleton.mp hc)
        · exact ih (fun u hu => hws u (List.mem_cons_of_mem w hu)) hc
  exact hjoin (words t) (fun w hw => (not_space_of_mem_words hw).2) h

/-- a function that takes a text apart at white space sees no difference -/
theorem map_oneLine {β : Type*} {f : Text → List β} (hnil : f [] = [])
    (happend : ∀ a b c, isSpace c = true → f (a ++ c :: b) = f a ++ f b) (t : Text) : f (oneLine t) = f t := by
  have hline : ∀ ws : List Text, f ([' '].intercalate ws) = ws.flatMap f := by
    intro ws
    induction ws with
    | nil => exact hnil
    | cons w ws ih =>
      cases ws with
      | nil => rw [List.intercalate_singleton, List.flatMap_singleton]
      | cons v ws =>
        rw [List.intercalate_cons_of_ne_nil (List.cons_ne_nil v ws), List.append_assoc, List.singleton_append,
          happend _ _ _ isSpace_space, ih]
        rfl
  -- the first word grows until white space comes
  have hwords : ∀ a : Text, (∀ c ∈ a, isSpace c = false) → (words (a ++ t)).flatMap f = f (a ++ t) := by
    induction t with
    | nil =>
      intro a ha
      rw [List.append_nil]
      by_cases hne : a = []
      · rw [hne, hnil]
        rfl
      · rw [words_eq_singleton hne ha, List.flatMap_singleton]
    | cons c t ih =>
      intro a ha
      by_cases hc : isSpace c = true
      · have hrest := ih [] nofun
        rw [List.nil_append] at hrest
        have hfirst : (words a).flatMap f = f a := by
          by_cases hne : a = []
          · rw [hne, hnil]
            rfl
          · rw [words_eq_singleton hne ha, List.flatMap_singleton]
        rw [words_append_cons hc, List.flatMap_append, hfirst, hrest, happend _ _ _ hc]
      · have hgrow := ih (a ++ [c]) (by
          intro d hd
          rcases List.mem_append.mp hd with hd | hd
          · exact ha d hd
          · rw [List.mem_singleton.mp hd]
            exact Bool.eq_false_iff.mpr hc)
        rwa [List.append_assoc, List.singleton_append] at hgrow
  have hall := hwords [] nofun
  rw [List.nil_append] at hall
  rw [oneLine, hline, hall]

theorem oneLine_oneLine (t : Text) : oneLine (oneLine t) = oneLine t := by
  show [' '].intercalate (words (oneLine t)) = _
  rw [words_oneLine]
  rfl

theorem strip_oneLine (t : Text) : strip (oneLine t) = oneLine t := by
  have hline : ∀ ws : List Text, (∀ w ∈ ws, w ≠ [] ∧ ∀ c ∈ w, isSpace c = false) →
      rstrip ([' '].intercalate ws) = [' '].intercalate ws := by
    intro ws hws
    induction ws with
    | nil => exact rstrip_nil
    | cons w ws ih =>
      obtain ⟨hne, hspace⟩ := hws w List.mem_cons_self
      cases ws with
      | nil =>
        rw [List.intercalate_singleton]
        exact rstrip_eq_self fun hl => hspace _ (List.getLast_mem hl)
      | cons v ws =>
        have ih := ih fun u hu => hws u (List.mem_cons_of_mem w hu)
        have hblank : isBlank ([' '].intercalate (v :: ws)) = false := by
          rw [Bool.eq_false_iff]
          intro hblank
          obtain ⟨hv, hvspace⟩ := hws v (List.mem_cons_of_mem w List.mem_cons_self)
          obtain ⟨c, v', rfl⟩ := List.exists_cons_of_ne_nil hv
          have hc : c ∈ [' '].intercalate ((c :: v') :: ws) := by
            cases ws with
            | nil => exact List.mem_cons_self
            | cons u ws => exact List.mem_cons_self
          have hspace := isBlank_iff.mp hblank c hc
          rw [hvspace c List.mem_cons_self] at hspace
          exact nomatch hspace
        rw [List.intercalate_cons_of_ne_nil (List.cons_ne_nil v ws), rstrip_append_of_ne hblank, ih]
  have hfirst : ∀ ws : List Text, (∀ w ∈ ws, w ≠ [] ∧ ∀ c ∈ w, isSpace c = false) →
      lstrip ([' '].intercalate ws) = [' '].intercalate ws := by
    intro ws hws
    cases ws with
    | nil => rfl
    | cons w ws =>
      obtain ⟨hne, hspace⟩ := hws w List.mem_cons_self
      obtain ⟨c, w', rfl⟩ := List.exists_cons_of_ne_nil hne
      cases ws with
      | nil => exact lstrip_eq_self (hspace c List.mem_cons_self)
      | cons v ws => exact lstrip_eq_self (hspace c List.mem_cons_self)
  have hwords : ∀ w ∈ words t, w ≠ [] ∧ ∀ c ∈ w, isSpace c = false :=
    fun w hw => not_space_of_mem_words hw
  show rstrip (lstrip ([' '].intercalate (words t))) = _
  rw [hfirst _ hwords, hline _ hwords]
  rfl

theorem length_splitOnP (p : Char → Bool) (t : Text) :
    ((t.splitOnP p).map List.length).sum + (t.splitOnP p).length = t.length + 1 := by
  induction t with
  | nil => rfl
  | cons c t ih =>
    rw [List.splitOnP_cons_eq_if_modifyHead]
    split
    · rw [List.map_cons, List.sum_cons, List.length_cons, List.length_cons, List.length_nil]
      omega
    · obtain ⟨m, ms, hm⟩ := List.exists_cons_of_ne_nil (List.splitOnP_ne_nil p t)
      rw [hm] at ih ⊢
      simp only [List.modifyHead_cons, List.map_cons, List.sum_cons, List.length_cons] at ih ⊢
      omega

theorem length_oneLine_le (t : Text) : (oneLine t).length ≤ t.length := by
  have hjoin : ∀ ws : List Text,
      ([' '].intercalate ws).length = (ws.map List.length).sum + (ws.length - 1) := by
    intro ws
    induction ws with
    | nil => rfl
    | cons w ws ih =>
      cases ws with
      | nil => simp
      | cons v ws =>
        rw [List.intercalate_cons_of_ne_nil (List.cons_ne_nil v ws), List.length_append,
          List.length_append, ih]
        simp only [List.map_cons, List.sum_cons, List.length_cons, List.length_nil]
        omega
  have hfilter : ∀ ws : List Text,
      ((ws.filter fun w => !w.isEmpty).map List.length).sum ≤ (ws.map List.length).sum ∧
      (ws.filter fun w => !w.isEmpty).length ≤ ws.length := by
    intro ws
    refine ⟨?_, List.length_filter_le _ ws⟩
    induction ws with
    | nil => exact le_rfl
    | cons w ws ih =>
      rw [List.filter_cons]
      split
      · rw [List.map_cons, List.sum_cons, List.map_cons, List.sum_cons]
        omega
      · rw [List.map_cons, List.sum_cons]
        omega
  have hsplit := length_splitOnP isSpace t
  obtain ⟨hsum, hlen⟩ := hfilter (t.splitOnP isSpace)
  have hpos : 0 < (t.splitOnP isSpace).length := List.length_pos_of_ne_nil (List.splitOnP_ne_nil isSpace t)
  rw [oneLine, hjoin, words]
  omega

/-! ## the first line -/

theorem return_universalNewlines (t : Text) : '\r' ∉ universalNewlines t := by
  fun_induction universalNewlines t with
  | case1 t ih =>
    intro h
    rcases List.mem_cons.mp h with e | h
    · exact absurd e (by decide)
    · exact ih h
  | case2 t hne ih =>
    intro h
    rcases List.mem_cons.mp h with e | h
    · exact absurd e (by decide)
    · exact ih h
  | case3 c t hpair hreturn ih =>
    intro h
    rcases List.mem_cons.mp h with e | h
    · exact hreturn e.symm
    · exact ih h
  | case4 => exact List.not_mem_nil

/-- a text is read as it is written exactly if it has no carriage return -/
theorem universalNewlines_eq_self {t : Text} : universalNewlines t = t ↔ '\r' ∉ t := by
  constructor
  · intro h
    rw [← h]
    exact return_universalNewlines t
  · intro h
    fun_induction universalNewlines t with
    | case1 t ih => exact absurd List.mem_cons_self h
    | case2 t hne ih => exact absurd List.mem_cons_self h
    | case3 c t hpair hreturn ih => rw [ih fun ht => h (List.mem_cons_of_mem c ht)]
    | case4 => rfl

theorem universalNewlines_line {l rest : Text} {c : Char} (h : ∀ d ∈ l, isLineEnd d = false)
    (hc : c ≠ '\r') : universalNewlines (l ++ c :: rest) = l ++ c :: universalNewlines rest := by
  induction l with
  | nil => exact universalNewlines.eq_3 _ _ (fun _ e _ => hc e) hc
  | cons d l ih =>
    have hd : d ≠ '\r' := by
      rintro rfl
      exact absurd (h _ List.mem_cons_self) (by decide)
    have ih := ih fun e he => h e (List.mem_cons_of_mem d he)
    rw [List.cons_append, universalNewlines.eq_3 _ _ (fun _ e _ => hd e) hd, ih]
    rfl

/-- what stands before the first line end is the first line -/
theorem head?_splitlines {l rest : Text} {c : Char} (h : ∀ d ∈ l, isLineEnd d = false)
    (hend : isLineEnd c = true) (hc : c ≠ '\r') : (splitlines (l ++ c :: rest)).head? = some l := by
  have hsplit : (universalNewlines (l ++ c :: rest)).splitOnP isLineEnd =
      l :: (universalNewlines rest).splitOnP isLineEnd := by
    rw [universalNewlines_line h hc, List.splitOnP_append_cons _ _ hend, List.splitOnP_eq_singleton h]
    rfl
  have hne := List.splitOnP_ne_nil isLineEnd (universalNewlines rest)
  rw [splitlines, hsplit]
  split
  · rw [List.dropLast_cons_of_ne_nil hne]
    rfl
  · rfl

/-! ## counting -/

theorem contains_cons (p : Text) (c : Char) (t : Text) :
    contains p (c :: t) = (p.isPrefixOf (c :: t) || contains p t) := by
  rw [contains, find]
  split
  · next h =>
    rw [h]
    rfl
  · next h =>
    rw [(Bool.not_eq_true _).mp h, Bool.false_or, contains, Option.isSome_map]

theorem contains_iff {p t : Text} : contains p t = true ↔ p <:+: t := by
  induction t with
  | nil =>
    rw [List.infix_nil, ← List.isEmpty_iff, contains, find]
    cases p.isEmpty <;> exact Iff.rfl
  | cons c t ih => rw [contains_cons, Bool.or_eq_true, List.isPrefixOf_iff_prefix, ih, List.infix_cons_iff]

theorem countFrom_drop (p : Text) (k : ℕ) (t : Text) : countFrom p k t = count p (t.drop k) := by
  induction k generalizing t with
  | zero => rfl
  | succ k ih =>
    cases t with
    | nil => rfl
    | cons c t => exact ih t

theorem count_cons (p : Text) (c : Char) (t : Text) : count p (c :: t) =
    if p.isPrefixOf (c :: t) then count p (t.drop (p.length - 1)) + 1 else count p t := by
  rw [count, countFrom, countFrom_drop]
  rfl

/-- occurrences that end before the second text does not begin to matter -/
theorem count_append {p a b : Text} (hp : p ≠ [])
    (h : ∀ s, s <:+ a → s ≠ [] → p <+: s ++ b → p <+: s) : count p (a ++ b) = count p a + count p b := by
  induction hn : a.length using Nat.strong_induction_on generalizing a with
  | _ n ih =>
    cases a with
    | nil => exact (Nat.zero_add _).symm
    | cons c a =>
      have hsuffix : ∀ k, ∀ s, s <:+ a.drop k → s ≠ [] → p <+: s ++ b → p <+: s := fun k s hs =>
        h s ((hs.trans (List.drop_suffix k a)).trans (List.suffix_cons c a))
      have hlt : ∀ k, (a.drop k).length < n := by
        intro k
        rw [List.length_drop, ← hn, List.length_cons]
        omega
      have hiff : p.isPrefixOf (c :: (a ++ b)) = p.isPrefixOf (c :: a) := by
        rw [Bool.eq_iff_iff, List.isPrefixOf_iff_prefix, List.isPrefixOf_iff_prefix]
        refine ⟨h (c :: a) List.suffix_rfl (List.cons_ne_nil c a), fun hpre => ?_⟩
        exact hpre.trans (List.prefix_append (c :: a) b)
      rw [List.cons_append, count_cons, count_cons, hiff]
      split
      · next hpre =>
        have hlen := (List.isPrefixOf_iff_prefix.mp hpre).length_le
        rw [List.length_cons] at hlen
        have hfit : p.length - 1 ≤ a.length := by omega
        rw [List.drop_append_of_le_length hfit, ih _ (hlt (p.length - 1)) (hsuffix (p.length - 1)) rfl]
        omega
      · exact ih _ (hlt 0) (hsuffix 0) rfl

/-- a word that does not hold a character but in front ends before it -/
theorem prefix_of_append_cons {p s b : Text} {c : Char} (hs : s ≠ []) (hc : c ∉ p.tail)
    (h : p <+: s ++ c :: b) : p <+: s := by
  rcases List.prefix_or_prefix_of_prefix h (List.prefix_append s (c :: b)) with h' | ⟨q, rfl⟩
  · exact h'
  · rw [List.prefix_append_right_inj] at h
    cases q with
    | nil => exact (List.append_nil s).symm ▸ List.prefix_rfl
    | cons d q =>
      rw [List.cons_prefix_cons] at h
      obtain ⟨e, s, rfl⟩ := List.exists_cons_of_ne_nil hs
      exact absurd (h.1 ▸ List.mem_append_right s List.mem_cons_self) hc

/-- a word that does not end in white space ends before it -/
theorem prefix_of_append_blank {p s w : Text} (hp : ∀ hl : p ≠ [], isSpace (p.getLast hl) = false)
    (hw : isBlank w = true) (h : p <+: s ++ w) : p <+: s := by
  rcases List.prefix_or_prefix_of_prefix h (List.prefix_append s w) with h' | ⟨q, rfl⟩
  · exact h'
  · rw [List.prefix_append_right_inj] at h
    by_cases hq : q = []
    · simp only [hq, List.append_nil, List.prefix_rfl]
    · have hlast := hp (List.append_ne_nil_of_right_ne_nil s hq)
      rw [List.getLast_append_of_ne_nil _ hq] at hlast
      rw [isBlank_iff.mp hw _ (h.subset (List.getLast_mem hq))] at hlast
      exact nomatch hlast

theorem count_append_cons {p a b : Text} {c : Char} (hp : p ≠ []) (hc : c ∉ p.tail) :
    count p (a ++ c :: b) = count p a + count p (c :: b) :=
  count_append hp fun _ _ hs => prefix_of_append_cons hs hc

theorem count_append_blank {p a w : Text} (hp : p ≠ [])
    (hl : ∀ hl : p ≠ [], isSpace (p.getLast hl) = false) (hw : isBlank w = true) :
    count p (a ++ w) = count p a := by
  rw [count_append hp fun s _ _ => prefix_of_append_blank hl hw]
  have hzero : ∀ w, isBlank w = true → count p w = 0 := by
    intro w hw
    induction w with
    | nil => rfl
    | cons c w ih =>
      have hnot : p.isPrefixOf (c :: w) = false := by
        rw [Bool.eq_false_iff, ne_eq, List.isPrefixOf_iff_prefix]
        intro h
        have := prefix_of_append_blank (s := []) hl hw h
        exact hp (List.prefix_nil.mp this)
      rw [count_cons, hnot, if_neg Bool.false_ne_true]
      exact ih (isBlank_iff.mpr fun d hd => isBlank_iff.mp hw d (List.mem_cons_of_mem c hd))
  rw [hzero w hw, Nat.add_zero]

/-- text without the first character of a word holds no occurrence of it -/
theorem count_append_of_notMem {c : Char} {q x : Text} (hx : c ∉ x) (t : Text) :
    count (c :: q) (x ++ t) = count (c :: q) t := by
  induction x with
  | nil => rfl
  | cons d x ih =>
    have hne : (c == d) = false := beq_false_of_ne fun h => hx (h ▸ List.mem_cons_self)
    rw [List.cons_append, count_cons, List.isPrefixOf, hne, Bool.false_and, if_neg Bool.false_ne_true]
    exact ih fun h => hx (List.mem_cons_of_mem d h)

theorem count_of_notMem {c : Char} {q x : Text} (hx : c ∉ x) : count (c :: q) x = 0 := by
  rw [← List.append_nil x, count_append_of_notMem hx]
  rfl

theorem count_eq_zero_iff {p t : Text} (hp : p ≠ []) : count p t = 0 ↔ contains p t = false := by
  induction t with
  | nil =>
    have hnil : p.isEmpty = false := List.isEmpty_eq_false_iff.mpr hp
    rw [contains, find, hnil]
    exact ⟨fun _ => rfl, fun _ => rfl⟩
  | cons c t ih =>
    rw [count_cons, contains_cons, Bool.or_eq_false_iff, ← ih]
    split
    · next h => exact ⟨fun h0 => absurd h0 (Nat.succ_ne_zero _), fun h0 => absurd h (by rw [h0.1]; decide)⟩
    · next h => exact ⟨fun h0 => ⟨(Bool.not_eq_true _).mp h, h0⟩, fun h0 => h0.2⟩

/-- where a word does not occur, no part of the text begins with it -/
theorem not_prefix_of_count {p t s : Text} (hp : p ≠ []) (h : count p t = 0) (hs : s <:+ t) : ¬p <+: s := by
  rw [count_eq_zero_iff hp] at h
  induction t with
  | nil =>
    rw [List.suffix_nil.mp hs]
    exact fun h => hp (List.prefix_nil.mp h)
  | cons c t ih =>
    rw [contains_cons, Bool.or_eq_false_iff] at h
    rcases List.suffix_cons_iff.mp hs with rfl | hs
    · rw [← List.isPrefixOf_iff_prefix, h.1]
      exact Bool.false_ne_true
    · exact ih h.2 hs

/-- white space at the end of a text whose last character is none -/
theorem rstrip_append_of_last {x t : Text} (hx : ∀ hl : x ≠ [], isSpace (x.getLast hl) = false) :
    rstrip (x ++ t) = x ++ rstrip t := by
  cases ht : isBlank t with
  | false => exact rstrip_append_of_ne ht
  | true => rw [rstrip_append_blank ht, rstrip_eq_self hx, rstrip_eq_nil_of_blank ht, List.append_nil]

/-- a text that ends in no white space is in a line exactly when it is in the line without the white space at its end -/
theorem infix_rstrip {p t : Text} (hp : ∀ hl : p ≠ [], isSpace (p.getLast hl) = false) :
    p <:+: rstrip t ↔ p <:+: t := by
  constructor
  · intro h
    have hfront := rstrip_prefix t
    exact h.trans hfront.isInfix
  · rintro ⟨a, b, rfl⟩
    by_cases hnil : p = []
    · rw [hnil]
      exact List.nil_infix
    · have hlast : ∀ hl : a ++ p ≠ [], isSpace ((a ++ p).getLast hl) = false := by
        intro hl
        rw [List.getLast_append_of_ne_nil hl hnil]
        exact hp hnil
      rw [rstrip_append_of_last hlast]
      exact ⟨a, rstrip b, rfl⟩

/-! ## one test for each place -/

theorem eq_of_zipWith {s t : Text} (hlen : t.length = s.length)
    (h : (List.zipWith (fun p c => p c) (s.map fun c d => d == c) t).all id = true) : t = s := by
  induction s generalizing t with
  | nil => exact List.length_eq_zero_iff.mp hlen
  | cons c s ih =>
    cases t with
    | nil => exact nomatch hlen
    | cons d t =>
      rw [List.map_cons, List.zipWith_cons_cons, List.all_cons, Bool.and_eq_true] at h
      rw [ih (Nat.succ.inj hlen) h.2, beq_iff_eq.mp h.1]

theorem forall_of_zipWith {Q : Char → Prop} {ps : List (Char → Bool)} {t : Text} (hlen : t.length = ps.length)
    (hps : ∀ p ∈ ps, ∀ c, p c = true → Q c) (h : (List.zipWith (fun p c => p c) ps t).all id = true) :
    ∀ c ∈ t, Q c := by
  induction ps generalizing t with
  | nil =>
    intro c hc
    rw [List.length_eq_zero_iff.mp hlen] at hc
    exact absurd hc List.not_mem_nil
  | cons p ps ih =>
    cases t with
    | nil => exact fun c hc => absurd hc List.not_mem_nil
    | cons d t =>
      rw [List.zipWith_cons_cons, List.all_cons, Bool.and_eq_true] at h
      intro c hc
      rcases List.mem_cons.mp hc with rfl | hc
      · exact hps p List.mem_cons_self c h.1
      · exact ih (Nat.succ.inj hlen) (fun q hq => hps q (List.mem_cons_of_mem p hq)) h.2 c hc

end Text
