import Stigmergy.Kernel.Ascii
import Stigmergy.Lib.Scan
import Stigmergy.Lib.Decimal

/-!
# Figures of an answer

`answer/numbers.py`: which numbers of an answer no number of the evidence backs.  Floating point
numbers are exact decimals; the text `_canon` gives a number is the number with six significant digits.

* `token`               `_TOKEN` at one place of a text, its choices in the order of the pattern;
* `asserted`, `readings`   the numbers a token of the answer asserts, and those one of the evidence backs;
* `unverifiedFigures`   the figures that nothing backs;
* `apart_of_display`    the text of a figure tells its number, its scale and its percent sign;
* `figuresExact_iff`           the figures left out are in the evidence as they are exactly when no figure is
                        in it up to six digits only.
-/

set_option linter.unusedSectionVars false

namespace Numbers

structure Token where
  num : Text
  suffix : Option Text
  pct : Bool
  /-- the match, stripped -/
  display : Text
deriving DecidableEq

section
variable (R : Runtime)

/-- `\w` -/
def isWord (c : Char) : Bool := R.isAlnum c || c == '_'

def isSeparator (c : Char) : Bool := c == '.' || c == ','

/-! ## the pattern: what each part takes and what it leaves, preferred choice first -/

/-- one character or more of a class, as many as there are first -/
def run (p : Char → Bool) : Text → List (Text × Text)
  | [] => []
  | c :: t => if p c then ((run p t).map fun e => (c :: e.1, e.2)) ++ [([c], t)] else []

/-- `\d{1,3}` -/
def upToThree (t : Text) : List (Text × Text) := (run R.isDecimal t).filter fun e => e.1.length ≤ 3

/-- `(?:[.,]\d{3})+` -/
def groups : Text → List (Text × Text)
  | s :: a :: b :: c :: t =>
    if isSeparator s && R.isDecimal a && R.isDecimal b && R.isDecimal c then
      ((groups t).map fun e => (s :: a :: b :: c :: e.1, e.2)) ++ [([s, a, b, c], t)]
    else []
  | _ => []

/-- `(?:[.,]\d+)?` -/
def fraction : Text → List (Text × Text)
  | s :: t =>
    (if isSeparator s then (run R.isDecimal t).map fun e => (s :: e.1, e.2) else []) ++ [([], s :: t)]
  | [] => [([], [])]

/-- the number of a token -/
def number (t : Text) : List (Text × Text) :=
  ((upToThree R t).flatMap fun d => (groups R d.2).flatMap fun g =>
    (fraction R g.2).map fun f => (d.1 ++ g.1 ++ f.1, f.2)) ++
  (run R.isDecimal t).flatMap fun d => (fraction R d.2).map fun f => (d.1 ++ f.1, f.2)

/-- `\s?` -/
def blank : Text → List (Text × Text)
  | c :: t => if Text.isSpace c then [([c], t), ([], c :: t)] else [([], c :: t)]
  | [] => [([], [])]

/-- the class `[kKmMbBxX]` -/
def scaleChars : Text := "kKmMbBxX".toList

/-- `bn` -/
def billion : Text → List (Option Text × Text)
  | 'b' :: 'n' :: t => [(some ['b', 'n'], t)]
  | _ => []

/-- `[kKmMbBxX]` -/
def letter : Text → List (Option Text × Text)
  | c :: t => if List.elem c scaleChars then [(some [c], t)] else []
  | [] => []

/-- `(bn|[kKmMbBxX])?` -/
def scale (t : Text) : List (Option Text × Text) := billion t ++ letter t ++ [(none, t)]

/-- `(%)?` -/
def percent : Text → List (Bool × Text)
  | '%' :: t => [(true, t), (false, '%' :: t)]
  | t => [(false, t)]

/-- `(?!\w)` -/
def atEnd (t : Text) : Bool := !t.head?.any (isWord R)

/-- what follows the number -/
def dimension (t : Text) : List (Option Text × Bool × Text) :=
  ((blank t).flatMap fun u => (scale u.2).flatMap fun s => (blank s.2).flatMap fun v =>
    (percent v.2).map fun p => (s.1, p.1, p.2)).filter fun e => atEnd R e.2.2

/-- `_TOKEN` after a character: the length of its match, and the token -/
def token (prev : Option Char) (t : Text) : Option (ℕ × Token) :=
  if prev.any fun c => isWord R c || isSeparator c then none
  else
    ((number R t).flatMap fun n => (dimension R n.2).map fun d =>
      (t.length - d.2.2.length, Token.mk n.1 d.1 d.2.1 (Text.strip (t.take (t.length - d.2.2.length))))).head?

def tokens (t : Text) : List Token := Scan.foundBehind (token R) t

/-! ## values -/

/-- `_MAGNITUDE`: a dimension has none -/
def magnitude (suffix : Text) : Option ℕ :=
  if suffix == ['k'] then some (10 ^ 3)
  else if suffix == ['m'] then some (10 ^ 6)
  else if suffix == ['b'] || suffix == ['b', 'n'] then some (10 ^ 9)
  else none

/-- the magnitude of a token -/
def magnitudeOf (t : Token) : Option ℕ := t.suffix.bind fun s => magnitude (R.lower s)

def digitsValue (t : Text) : ℕ := t.foldl (fun n c => 10 * n + R.digit c) 0

/-- `float` of a text of digits and points; nothing for a `ValueError` -/
def float (t : Text) : Option Decimal :=
  match t.splitOn '.' with
  | [whole] => if whole.isEmpty then none else some ⟨digitsValue R whole, 0⟩
  | [whole, part] =>
    if whole.isEmpty && part.isEmpty then none else some ⟨digitsValue R (whole ++ part), part.length⟩
  | _ => none

/-- `_values`; of two kinds of separators the last one is the decimal one -/
def values (num : Text) : List Decimal :=
  if List.elem '.' num && List.elem ',' num then
    let dec := (num.reverse.find? isSeparator).getD '.'
    let thou := if dec == '.' then ',' else '.'
    (float R ((num.filter fun c => c != thou).map fun c => if c == dec then '.' else c)).toList
  else if List.elem '.' num || List.elem ',' num then
    match num.splitOn (if List.elem '.' num then '.' else ',') with
    | [head, tail] =>
      (if tail.length = 3 then (float R (head ++ tail)).toList else []) ++
        (float R (head ++ '.' :: tail)).toList
    | parts => (float R parts.flatten).toList
  else (float R num).toList

/-- a number and whether it counts percents -/
structure Reading where
  number : Decimal
  percent : Bool
deriving DecidableEq

/-- what `interpretations` reads in a token of the evidence -/
def readings (t : Token) : List Reading :=
  (values R t.num).flatMap fun v =>
    ⟨v, false⟩ :: ((magnitudeOf R t).map fun m => Reading.mk (v.times m) false).toList ++
      if t.pct then [⟨v, true⟩] else []

/-- what `claimed` takes a token of the answer to assert -/
def asserted (t : Token) : List Reading :=
  (values R t.num).map fun v =>
    match magnitudeOf R t with
    | some m => ⟨v.times m, false⟩
    | none => ⟨v, t.pct⟩

/-- `_canon`, with the percent sign -/
def canon (r : Reading) : ℚ × Bool := (r.number.canon 6, r.percent)

def interpretations (t : Token) : List (ℚ × Bool) := (readings R t).map canon

def claimed (t : Token) : List (ℚ × Bool) := (asserted R t).map canon

def numberPool (text : Text) : List (ℚ × Bool) := (tokens R text).flatMap (interpretations R)

/-- a single digit that stands alone -/
def isMarker (t : Token) : Bool :=
  (t.num.filter R.isDecimal).length == 1 && t.suffix.isNone && !t.pct

def isBacked (pool : List (ℚ × Bool)) (t : Token) : Bool := (claimed R t).any fun c => List.elem c pool

/-- the loop of `unverified_figures` -/
def missing (pool : List (ℚ × Bool)) : List Text → List Token → List Text
  | _, [] => []
  | seen, t :: ts =>
    if isMarker R t || List.elem t.display seen then missing pool seen ts
    else if isBacked R pool t then missing pool (t.display :: seen) ts
    else t.display :: missing pool (t.display :: seen) ts

def unverifiedFigures (answer evidence : Text) : List Text :=
  missing R (numberPool R evidence) [] (tokens R answer)

/-! ## the text of a figure -/

/-- decimal digits are no white space and none of the other characters of a figure -/
structure Digits : Prop where
  notSpace : ∀ c, R.isDecimal c = true → Text.isSpace c = false
  apart : ∀ c ∈ "kKmMbBxXn%.,".toList, R.isDecimal c = false

/-- a digit or a separator -/
def inNumber (c : Char) : Bool := R.isDecimal c || isSeparator c

/-- `\d+` -/
def IsDigits (w : Text) : Prop := w ≠ [] ∧ ∀ c ∈ w, R.isDecimal c = true

/-- separators with three digits each -/
inductive IsGrouped : Text → Prop where
  | one {s a b c : Char} (hs : isSeparator s = true) (ha : R.isDecimal a = true) (hb : R.isDecimal b = true)
      (hc : R.isDecimal c = true) : IsGrouped [s, a, b, c]
  | more {s a b c : Char} {w : Text} (hs : isSeparator s = true) (ha : R.isDecimal a = true)
      (hb : R.isDecimal b = true) (hc : R.isDecimal c = true) (hw : IsGrouped w) : IsGrouped (s :: a :: b :: c :: w)

/-- nothing, or a separator and digits -/
def IsFraction (w : Text) : Prop := w = [] ∨ ∃ s d, isSeparator s = true ∧ IsDigits R d ∧ w = s :: d

/-- the number of a figure: digits, in groups if the first one has no more than three, and a fraction -/
def IsNumber (w : Text) : Prop :=
  (∃ d g f, IsDigits R d ∧ d.length ≤ 3 ∧ IsGrouped R g ∧ IsFraction R f ∧ w = d ++ g ++ f) ∨
    ∃ d f, IsDigits R d ∧ IsFraction R f ∧ w = d ++ f

/-- the scales of the pattern -/
def scales : List Text := ['b', 'n'] :: scaleChars.map fun c => [c]

def inScale (c : Char) : Bool := List.elem c ('n' :: scaleChars)

/-- a figure is told by its text -/
structure Apart (t : Token) : Prop where
  num : t.num = t.display.filter (inNumber R)
  suffix : t.suffix.getD [] = t.display.filter inScale
  suffix_ne : t.suffix ≠ some []
  pct : t.pct = !(t.display.filter (· == '%')).isEmpty

end

section
variable {R : Runtime}

theorem Apart.ext {t u : Token} (ht : Apart R t) (hu : Apart R u) (h : t.display = u.display) : t = u := by
  have hnum : t.num = u.num := by rw [ht.num, hu.num, h]
  have hpct : t.pct = u.pct := by rw [ht.pct, hu.pct, h]
  have hsuffix : t.suffix.getD [] = u.suffix.getD [] := by rw [ht.suffix, hu.suffix, h]
  obtain ⟨tn, ts, tp, td⟩ := t
  obtain ⟨un, us, up, ud⟩ := u
  have hs : ts = us := by
    cases ts with
    | none =>
      cases us with
      | none => rfl
      | some v => exact absurd (congrArg some hsuffix.symm) hu.suffix_ne
    | some w =>
      cases us with
      | none => exact absurd (congrArg some hsuffix) ht.suffix_ne
      | some v => exact congrArg some hsuffix
  cases hnum
  cases hpct
  cases h
  cases hs
  rfl

/-! ### the parts of a match -/

theorem mem_run {p : Char → Bool} {t w r : Text} :
    (w, r) ∈ run p t ↔ t = w ++ r ∧ w ≠ [] ∧ ∀ c ∈ w, p c = true := by
  induction t generalizing w with
  | nil =>
    refine ⟨fun h => absurd h List.not_mem_nil, ?_⟩
    rintro ⟨ht, hne, -⟩
    exact absurd (List.append_eq_nil_iff.mp ht.symm).1 hne
  | cons c t ih =>
    by_cases hc : p c = true
    · rw [run, if_pos hc, List.mem_append, List.mem_singleton]
      constructor
      · rintro (h | h)
        · obtain ⟨⟨v, u⟩, hf, heq⟩ := List.mem_map.mp h
          obtain ⟨rfl, rfl⟩ := Prod.mk.inj heq
          obtain ⟨ht, -, hall⟩ := ih.mp hf
          exact ⟨congrArg (c :: ·) ht, List.cons_ne_nil c v, List.forall_mem_cons.mpr ⟨hc, hall⟩⟩
        · obtain ⟨rfl, rfl⟩ := Prod.mk.inj h
          exact ⟨rfl, List.cons_ne_nil c [], List.forall_mem_cons.mpr ⟨hc, fun d hd => absurd hd List.not_mem_nil⟩⟩
      · rintro ⟨ht, hne, hall⟩
        obtain ⟨d, v, rfl⟩ := List.exists_cons_of_ne_nil hne
        obtain ⟨rfl, htail⟩ := List.cons.inj ht
        by_cases hv : v = []
        · subst hv
          exact Or.inr (Prod.ext rfl htail.symm)
        · refine Or.inl (List.mem_map.mpr ⟨(v, r), ih.mpr ⟨htail, hv, ?_⟩, rfl⟩)
          exact fun e he => hall e (List.mem_cons_of_mem _ he)
    · rw [run, if_neg hc]
      refine ⟨fun h => absurd h List.not_mem_nil, ?_⟩
      rintro ⟨ht, hne, hall⟩
      obtain ⟨d, v, rfl⟩ := List.exists_cons_of_ne_nil hne
      rw [(List.cons.inj ht).1] at hc
      exact absurd (hall d List.mem_cons_self) hc

theorem mem_groups {t w r : Text} : (w, r) ∈ groups R t ↔ t = w ++ r ∧ IsGrouped R w := by
  constructor
  · intro h
    induction t using groups.induct R generalizing w with
    | case1 s a b c t hc ih =>
      rw [groups, if_pos hc] at h
      simp only [Bool.and_eq_true] at hc
      obtain ⟨⟨⟨hs, ha⟩, hb⟩, hc⟩ := hc
      rcases List.mem_append.mp h with h | h
      · obtain ⟨⟨v, u⟩, hf, heq⟩ := List.mem_map.mp h
        obtain ⟨rfl, rfl⟩ := Prod.mk.inj heq
        obtain ⟨ht, hv⟩ := ih hf
        exact ⟨congrArg (s :: a :: b :: c :: ·) ht, .more hs ha hb hc hv⟩
      · obtain ⟨rfl, rfl⟩ := Prod.mk.inj (List.mem_singleton.mp h)
        exact ⟨rfl, .one hs ha hb hc⟩
    | case2 s a b c t hc =>
      rw [groups, if_neg hc] at h
      exact absurd h List.not_mem_nil
    | case3 t hne =>
      rw [groups] at h
      · exact absurd h List.not_mem_nil
      · exact hne
  · rintro ⟨rfl, hw⟩
    induction hw with
    | @one s a b c hs ha hb hc =>
      show _ ∈ groups R (s :: a :: b :: c :: r)
      rw [groups, if_pos (by simp only [hs, ha, hb, hc, Bool.and_true])]
      exact List.mem_append_right _ List.mem_cons_self
    | @more s a b c v hs ha hb hc hv ih =>
      show _ ∈ groups R (s :: a :: b :: c :: (v ++ r))
      rw [groups, if_pos (by simp only [hs, ha, hb, hc, Bool.and_true])]
      exact List.mem_append_left _ (List.mem_map.mpr ⟨(v, r), ih, rfl⟩)

theorem mem_fraction {t w r : Text} : (w, r) ∈ fraction R t ↔ t = w ++ r ∧ IsFraction R w := by
  cases t with
  | nil =>
    rw [fraction, List.mem_singleton]
    constructor
    · intro h
      obtain ⟨rfl, rfl⟩ := Prod.mk.inj h
      exact ⟨rfl, Or.inl rfl⟩
    · rintro ⟨ht, -⟩
      obtain ⟨rfl, rfl⟩ := List.append_eq_nil_iff.mp ht.symm
      rfl
  | cons s t =>
    rw [fraction, List.mem_append, List.mem_singleton]
    constructor
    · rintro (h | h)
      · split at h
        · next hs =>
          obtain ⟨⟨v, u⟩, hf, heq⟩ := List.mem_map.mp h
          obtain ⟨rfl, rfl⟩ := Prod.mk.inj heq
          obtain ⟨ht, hv⟩ := mem_run.mp hf
          exact ⟨congrArg (s :: ·) ht, Or.inr ⟨s, v, hs, hv, rfl⟩⟩
        · exact absurd h List.not_mem_nil
      · obtain ⟨rfl, rfl⟩ := Prod.mk.inj h
        exact ⟨rfl, Or.inl rfl⟩
    · rintro ⟨ht, rfl | ⟨s', v, hs, hv, rfl⟩⟩
      · exact Or.inr (Prod.ext rfl ht.symm)
      · obtain ⟨rfl, htail⟩ := List.cons.inj ht
        rw [if_pos hs]
        exact Or.inl (List.mem_map.mpr ⟨(v, r), mem_run.mpr ⟨htail, hv⟩, rfl⟩)

/-- the numbers of the pattern are those of its grammar -/
theorem mem_number {t w r : Text} : (w, r) ∈ number R t ↔ t = w ++ r ∧ IsNumber R w := by
  rw [number, List.mem_append]
  constructor
  · rintro (h | h)
    · obtain ⟨⟨d, u⟩, hd, h⟩ := List.mem_flatMap.mp h
      obtain ⟨⟨g, v⟩, hg, h⟩ := List.mem_flatMap.mp h
      obtain ⟨⟨f, x⟩, hf, heq⟩ := List.mem_map.mp h
      obtain ⟨rfl, rfl⟩ := Prod.mk.inj heq
      obtain ⟨hrun, hlen⟩ := List.mem_filter.mp hd
      obtain ⟨rfl, hdigits⟩ := mem_run.mp hrun
      obtain ⟨rfl, hgrouped⟩ := mem_groups.mp hg
      obtain ⟨rfl, hfraction⟩ := mem_fraction.mp hf
      refine ⟨?_, Or.inl ⟨d, g, f, hdigits, of_decide_eq_true hlen, hgrouped, hfraction, rfl⟩⟩
      simp only [List.append_assoc]
    · obtain ⟨⟨d, u⟩, hd, h⟩ := List.mem_flatMap.mp h
      obtain ⟨⟨f, x⟩, hf, heq⟩ := List.mem_map.mp h
      obtain ⟨rfl, rfl⟩ := Prod.mk.inj heq
      obtain ⟨rfl, hdigits⟩ := mem_run.mp hd
      obtain ⟨rfl, hfraction⟩ := mem_fraction.mp hf
      exact ⟨(List.append_assoc d f x).symm, Or.inr ⟨d, f, hdigits, hfraction, rfl⟩⟩
  · rintro ⟨rfl, ⟨d, g, f, hd, hlen, hg, hf, rfl⟩ | ⟨d, f, hd, hf, rfl⟩⟩
    · rw [List.append_assoc, List.append_assoc]
      refine Or.inl (List.mem_flatMap.mpr ⟨(d, g ++ (f ++ r)), ?_, ?_⟩)
      · exact List.mem_filter.mpr ⟨mem_run.mpr ⟨rfl, hd⟩, decide_eq_true hlen⟩
      · refine List.mem_flatMap.mpr ⟨(g, f ++ r), mem_groups.mpr ⟨rfl, hg⟩, ?_⟩
        exact List.mem_map.mpr ⟨(f, r), mem_fraction.mpr ⟨rfl, hf⟩, rfl⟩
    · rw [List.append_assoc]
      refine Or.inr (List.mem_flatMap.mpr ⟨(d, f ++ r), mem_run.mpr ⟨rfl, hd⟩, ?_⟩)
      exact List.mem_map.mpr ⟨(f, r), mem_fraction.mpr ⟨rfl, hf⟩, rfl⟩

theorem inNumber_of_decimal {c : Char} (h : R.isDecimal c = true) : inNumber R c = true := by
  rw [inNumber, h, Bool.true_or]

theorem inNumber_of_separator {c : Char} (h : isSeparator c = true) : inNumber R c = true := by
  rw [inNumber, h, Bool.or_true]

theorem IsDigits.inNumber {w : Text} (h : IsDigits R w) : ∀ c ∈ w, inNumber R c = true := fun c hc =>
  inNumber_of_decimal (h.2 c hc)

theorem IsGrouped.inNumber {w : Text} (h : IsGrouped R w) : ∀ c ∈ w, inNumber R c = true := by
  induction h with
  | one hs ha hb hc =>
    simp only [List.forall_mem_cons]
    exact ⟨inNumber_of_separator hs, inNumber_of_decimal ha, inNumber_of_decimal hb, inNumber_of_decimal hc,
      fun d hd => absurd hd List.not_mem_nil⟩
  | more hs ha hb hc _ ih =>
    simp only [List.forall_mem_cons]
    exact ⟨inNumber_of_separator hs, inNumber_of_decimal ha, inNumber_of_decimal hb, inNumber_of_decimal hc, ih⟩

theorem IsFraction.inNumber {w : Text} (h : IsFraction R w) : ∀ c ∈ w, inNumber R c = true := by
  rcases h with rfl | ⟨s, d, hs, hd, rfl⟩
  · exact fun c hc => absurd hc List.not_mem_nil
  · exact List.forall_mem_cons.mpr ⟨inNumber_of_separator hs, hd.inNumber⟩

theorem IsNumber.inNumber {w : Text} (h : IsNumber R w) : ∀ c ∈ w, inNumber R c = true := by
  rcases h with ⟨d, g, f, hd, -, hg, hf, rfl⟩ | ⟨d, f, hd, hf, rfl⟩
  · exact List.forall_mem_append.mpr ⟨List.forall_mem_append.mpr ⟨hd.inNumber, hg.inNumber⟩, hf.inNumber⟩
  · exact List.forall_mem_append.mpr ⟨hd.inNumber, hf.inNumber⟩

theorem blank_spec {t : Text} {e : Text × Text} (h : e ∈ blank t) :
    t = e.1 ++ e.2 ∧ ∀ c ∈ e.1, Text.isSpace c = true := by
  have hnone : ∀ u : Text, ([], u) = e → u = e.1 ++ e.2 ∧ ∀ c ∈ e.1, Text.isSpace c = true := by
    rintro u rfl
    exact ⟨rfl, fun c hc => absurd hc List.not_mem_nil⟩
  cases t with
  | nil => exact hnone [] (List.mem_singleton.mp h).symm
  | cons c t =>
    rw [blank] at h
    split at h
    · next hc =>
      rcases List.mem_cons.mp h with rfl | h
      · exact ⟨rfl, List.forall_mem_cons.mpr ⟨hc, fun d hd => absurd hd List.not_mem_nil⟩⟩
      · exact hnone (c :: t) (List.mem_singleton.mp h).symm
    · exact hnone (c :: t) (List.mem_singleton.mp h).symm

theorem scale_spec {t : Text} {e : Option Text × Text} (h : e ∈ scale t) :
    t = e.1.getD [] ++ e.2 ∧ ∀ s ∈ e.1, s ∈ scales := by
  rcases List.mem_append.mp h with h | h
  · rcases List.mem_append.mp h with h | h
    · unfold billion at h
      split at h
      · rw [List.mem_singleton.mp h]
        refine ⟨rfl, fun s hs => ?_⟩
        rw [← Option.some.inj hs]
        exact List.mem_cons_self
      · exact absurd h List.not_mem_nil
    · unfold letter at h
      split at h
      · next c u _ _ =>
        by_cases hc : List.elem c scaleChars = true
        · rw [if_pos hc] at h
          rw [List.mem_singleton.mp h]
          refine ⟨rfl, fun s hs => ?_⟩
          rw [← Option.some.inj hs]
          exact List.mem_cons_of_mem _ (List.mem_map_of_mem (List.mem_of_elem_eq_true hc))
        · rw [if_neg hc] at h
          exact absurd h List.not_mem_nil
      · exact absurd h List.not_mem_nil
  · rw [List.mem_singleton.mp h]
    exact ⟨rfl, fun s hs => absurd hs.symm (Option.some_ne_none s)⟩

theorem scales_spec : ∀ s ∈ scales, s ≠ [] ∧ ∀ c ∈ s, inScale c = true := by decide

def percentText (pct : Bool) : Text := if pct then ['%'] else []

theorem percent_spec {t : Text} {e : Bool × Text} (h : e ∈ percent t) : t = percentText e.1 ++ e.2 := by
  unfold percent at h
  split at h
  · rcases List.mem_cons.mp h with rfl | h
    · rfl
    · rw [List.mem_singleton.mp h]
      rfl
  · rw [List.mem_singleton.mp h]
    rfl

/-- what follows a number: its scale and its percent sign, each behind white space -/
structure Dimension (t : Text) (suffix : Option Text) (pct : Bool) (v w rest : Text) : Prop where
  eq : t = v ++ (suffix.getD [] ++ (w ++ (percentText pct ++ rest)))
  blanks : (∀ c ∈ v, Text.isSpace c = true) ∧ ∀ c ∈ w, Text.isSpace c = true
  scale : ∀ s ∈ suffix, s ∈ scales
  atEnd : atEnd R rest = true

theorem dimension_spec {t : Text} {e : Option Text × Bool × Text} (h : e ∈ dimension R t) :
    ∃ v w, Dimension (R := R) t e.1 e.2.1 v w e.2.2 := by
  obtain ⟨h, hend⟩ := List.mem_filter.mp h
  obtain ⟨u, hu, h⟩ := List.mem_flatMap.mp h
  obtain ⟨s, hs, h⟩ := List.mem_flatMap.mp h
  obtain ⟨v, hv, h⟩ := List.mem_flatMap.mp h
  obtain ⟨p, hp, rfl⟩ := List.mem_map.mp h
  obtain ⟨hu1, hu2⟩ := blank_spec hu
  obtain ⟨hs1, hs2⟩ := scale_spec hs
  obtain ⟨hv1, hv2⟩ := blank_spec hv
  have hp1 := percent_spec hp
  refine ⟨u.1, v.1, ?_, ⟨hu2, hv2⟩, hs2, hend⟩
  rw [hu1, hs1, hv1, hp1]

/-- a match: its number, and what follows -/
theorem token_spec {prev : Option Char} {t : Text} {n : ℕ} {tok : Token} (h : token R prev t = some (n, tok)) :
    ∃ after v w rest, (tok.num, after) ∈ number R t ∧ Dimension (R := R) after tok.suffix tok.pct v w rest ∧
      n = t.length - rest.length ∧
      tok.display = Text.strip (tok.num ++ (v ++ (tok.suffix.getD [] ++ (w ++ percentText tok.pct)))) := by
  unfold token at h
  split at h
  · exact absurd h.symm (Option.some_ne_none _)
  · obtain ⟨e, he, h⟩ := List.mem_flatMap.mp (List.mem_of_head? h)
    obtain ⟨d, hd, h⟩ := List.mem_map.mp h
    obtain ⟨v, w, hdim⟩ := dimension_spec hd
    obtain ⟨hn, htok⟩ := Prod.mk.inj h
    subst htok
    refine ⟨e.2, v, w, d.2.2, he, hdim, hn.symm, ?_⟩
    have ht : t = e.1 ++ (v ++ (d.1.getD [] ++ (w ++ percentText d.2.1))) ++ d.2.2 := by
      rw [(mem_number.mp he).1, hdim.eq]
      simp only [List.append_assoc]
    show Text.strip (t.take (t.length - d.2.2.length)) = _
    conv_lhs => rw [ht]
    rw [List.length_append, Nat.add_sub_cancel, List.take_left]

theorem Dimension.inScale {t v w rest : Text} {suffix : Option Text} {pct : Bool}
    (h : Dimension (R := R) t suffix pct v w rest) : ∀ c ∈ suffix.getD [], inScale c = true := by
  cases suffix with
  | none => exact fun c hc => absurd hc List.not_mem_nil
  | some s => exact (scales_spec s (h.scale s rfl)).2

theorem Digits.space (hd : Digits R) {c : Char} (h : Text.isSpace c = true) :
    inNumber R c = false ∧ inScale c = false ∧ (c == '%') = false := by
  have hnot : ∀ d ∈ "nkKmMbBxX%.,".toList, c ≠ d := by
    have hspace : ∀ d ∈ "nkKmMbBxX%.,".toList, Text.isSpace d = false := by decide
    rintro d hm rfl
    exact Bool.false_ne_true ((hspace c hm).symm.trans h)
  refine ⟨?_, ?_, beq_eq_false_iff_ne.mpr (hnot '%' (by decide))⟩
  · rw [inNumber, isSeparator, beq_eq_false_iff_ne.mpr (hnot '.' (by decide)),
      beq_eq_false_iff_ne.mpr (hnot ',' (by decide)), Bool.or_false, Bool.or_false, ← Bool.not_eq_true]
    intro hc
    exact Bool.false_ne_true ((hd.notSpace c hc).symm.trans h)
  · rw [← Bool.not_eq_true]
    intro hc
    have hall : ∀ d ∈ 'n' :: scaleChars, d ∈ "nkKmMbBxX%.,".toList := by decide
    exact hnot c (hall c (List.mem_of_elem_eq_true hc)) rfl

theorem Digits.scale (hd : Digits R) {c : Char} (h : inScale c = true) :
    inNumber R c = false ∧ (c == '%') = false := by
  have hall : ∀ d ∈ 'n' :: scaleChars, d ∈ "kKmMbBxXn%.,".toList ∧ isSeparator d = false ∧ (d == '%') = false := by
    decide
  obtain ⟨hm, hs, hp⟩ := hall c (List.mem_of_elem_eq_true h)
  exact ⟨by rw [inNumber, hd.apart c hm, hs, Bool.false_or], hp⟩

theorem Digits.number (hd : Digits R) {c : Char} (h : inNumber R c = true) :
    inScale c = false ∧ (c == '%') = false := by
  constructor
  · rw [← Bool.not_eq_true]
    intro hc
    exact Bool.false_ne_true ((hd.scale hc).1.symm.trans h)
  · rw [beq_eq_false_iff_ne]
    rintro rfl
    rw [inNumber, hd.apart '%' (by decide)] at h
    exact absurd h (by decide)

/-- the number, the scale and the percent sign of a figure are the characters of three classes -/
theorem apart_of_token (hd : Digits R) {prev : Option Char} {t : Text} {n : ℕ} {tok : Token}
    (h : token R prev t = some (n, tok)) : Apart R tok := by
  obtain ⟨after, v, w, rest, hnum, hdim, -, hshow⟩ := token_spec h
  have hin := (mem_number.mp hnum).2.inNumber
  have hfilter : ∀ p : Char → Bool, (∀ c, Text.isSpace c = true → p c = false) →
      tok.display.filter p = tok.num.filter p ++ ((tok.suffix.getD []).filter p ++ (percentText tok.pct).filter p) := by
    intro p hp
    have hnil : ∀ u : Text, (∀ c ∈ u, Text.isSpace c = true) → u.filter p = [] := fun u hu =>
      List.filter_eq_nil_iff.mpr fun c hc => by
        rw [hp c (hu c hc)]
        exact Bool.false_ne_true
    rw [hshow, Text.filter_strip hp]
    simp only [List.filter_append, hnil v hdim.blanks.1, hnil w hdim.blanks.2, List.nil_append]
  have hnone : ∀ {p : Char → Bool} {u : Text}, (∀ c ∈ u, p c = false) → u.filter p = [] := fun hu =>
    List.filter_eq_nil_iff.mpr fun c hc => by
      rw [hu c hc]
      exact Bool.false_ne_true
  have hpct : ∀ p : Char → Bool, p '%' = false → (percentText tok.pct).filter p = [] := by
    intro p hp
    apply hnone
    intro c hc
    unfold percentText at hc
    split at hc
    · rw [List.mem_singleton.mp hc, hp]
    · exact absurd hc List.not_mem_nil
  refine ⟨?_, ?_, fun hnil => (scales_spec [] (hdim.scale [] hnil)).1 rfl, ?_⟩
  · rw [hfilter _ fun c hc => (hd.space hc).1, List.filter_eq_self.mpr hin,
      hnone fun c hc => (hd.scale (hdim.inScale c hc)).1, hpct, List.append_nil, List.append_nil]
    rw [inNumber, hd.apart '%' (by decide)]
    rfl
  · rw [hfilter _ fun c hc => (hd.space hc).2.1, List.filter_eq_self.mpr hdim.inScale,
      hnone fun c hc => (hd.number (hin c hc)).1, hpct _ (by decide), List.append_nil, List.nil_append]
  · rw [hfilter _ fun c hc => (hd.space hc).2.2, hnone fun c hc => (hd.scale (hdim.inScale c hc)).2,
      hnone fun c hc => (hd.number (hin c hc)).2, List.nil_append, List.nil_append]
    cases tok.pct <;> rfl

/-! ## the gate -/

theorem mem_missing {pool : List (ℚ × Bool)} {ts : List Token} (seen : List Text)
    (hts : ∀ t ∈ ts, ∀ u ∈ ts, t.display = u.display → t = u) (d : Text) :
    d ∈ missing R pool seen ts ↔
      d ∉ seen ∧ ∃ t ∈ ts, t.display = d ∧ isMarker R t = false ∧ isBacked R pool t = false := by
  induction ts generalizing seen with
  | nil =>
    refine ⟨fun h => absurd h List.not_mem_nil, ?_⟩
    rintro ⟨-, t, ht, -⟩
    exact absurd ht List.not_mem_nil
  | cons t ts ih =>
    have ih := fun seen => ih seen fun a ha b hb => hts a (List.mem_cons_of_mem _ ha) b (List.mem_cons_of_mem _ hb)
    rw [missing]
    by_cases hskip : (isMarker R t || List.elem t.display seen) = true
    · rw [if_pos hskip, ih]
      refine and_congr_right fun hd => ⟨fun ⟨u, hu, h⟩ => ⟨u, List.mem_cons_of_mem _ hu, h⟩, ?_⟩
      rintro ⟨u, hu, hshow, hmark, hback⟩
      refine ⟨u, (List.mem_cons.mp hu).resolve_left ?_, hshow, hmark, hback⟩
      rintro rfl
      rcases Bool.or_eq_true _ _ ▸ hskip with h | h
      · exact Bool.false_ne_true (hmark.symm.trans h)
      · exact hd (hshow ▸ List.mem_of_elem_eq_true h)
    · rw [if_neg hskip]
      rw [Bool.or_eq_true, not_or, Bool.not_eq_true] at hskip
      obtain ⟨hmark, hseen⟩ := hskip
      have hnew : t.display ∉ seen := fun h => hseen (List.elem_eq_true_of_mem h)
      by_cases hback : isBacked R pool t = true
      · rw [if_pos hback, ih]
        constructor
        · rintro ⟨hd, u, hu, h⟩
          exact ⟨fun hs => hd (List.mem_cons_of_mem _ hs), u, List.mem_cons_of_mem _ hu, h⟩
        · rintro ⟨hd, u, hu, hshow, hm, hb⟩
          have hne : u ≠ t := by
            rintro rfl
            exact Bool.false_ne_true (hb.symm.trans hback)
          refine ⟨?_, u, (List.mem_cons.mp hu).resolve_left hne, hshow, hm, hb⟩
          rw [List.mem_cons, not_or]
          exact ⟨fun h => hne (hts u hu t List.mem_cons_self (hshow.trans h)), hd⟩
      · rw [if_neg hback, List.mem_cons, ih]
        rw [Bool.not_eq_true] at hback
        constructor
        · rintro (rfl | ⟨hd, u, hu, h⟩)
          · exact ⟨hnew, t, List.mem_cons_self, rfl, hmark, hback⟩
          · exact ⟨fun hs => hd (List.mem_cons_of_mem _ hs), u, List.mem_cons_of_mem _ hu, h⟩
        · rintro ⟨hd, u, hu, hshow, h⟩
          by_cases hdt : d = t.display
          · exact Or.inl hdt
          · refine Or.inr ⟨?_, u, (List.mem_cons.mp hu).resolve_left ?_, hshow, h⟩
            · rw [List.mem_cons, not_or]
              exact ⟨hdt, hd⟩
            · rintro rfl
              exact hdt hshow.symm

/-- figures of an answer with one text are one figure -/
theorem display_inj (hd : Digits R) (answer : Text) :
    ∀ a ∈ tokens R answer, ∀ b ∈ tokens R answer, a.display = b.display → a = b := by
  intro a ha b hb
  obtain ⟨_, _, _, hta⟩ := Scan.mem_foundBehind ha
  obtain ⟨_, _, _, htb⟩ := Scan.mem_foundBehind hb
  exact (apart_of_token hd hta).ext (apart_of_token hd htb)

theorem mem_unverifiedFigures (hd : Digits R) {answer evidence : Text} {t : Token} (ht : t ∈ tokens R answer)
    (hmark : isMarker R t = false) :
    t.display ∉ unverifiedFigures R answer evidence ↔ isBacked R (numberPool R evidence) t = true := by
  have hext := display_inj hd answer
  rw [unverifiedFigures, mem_missing [] hext]
  constructor
  · intro h
    by_contra hback
    exact h ⟨List.not_mem_nil, t, ht, rfl, hmark, Bool.not_eq_true _ ▸ hback⟩
  · rintro hback ⟨-, u, hu, hshow, -, hb⟩
    rw [hext u hu t ht hshow] at hb
    exact Bool.false_ne_true (hb.symm.trans hback)

/-! ## what backs a figure -/

/-- equal numbers, with the same dimension -/
def Exact (a b : Reading) : Prop := a.number.value = b.number.value ∧ a.percent = b.percent

/-- equal up to six significant digits, with the same dimension -/
def Near (a b : Reading) : Prop := canon a = canon b

variable (R) in
/-- some number a figure asserts is so related to some number of the evidence -/
def Traced (rel : Reading → Reading → Prop) (evidence : Text) (t : Token) : Prop :=
  ∃ a ∈ asserted R t, ∃ u ∈ tokens R evidence, ∃ b ∈ readings R u, rel a b

theorem isBacked_iff {evidence : Text} {t : Token} :
    isBacked R (numberPool R evidence) t = true ↔ Traced R Near evidence t := by
  rw [isBacked, List.any_eq_true]
  constructor
  · rintro ⟨c, hc, hpool⟩
    obtain ⟨a, ha, rfl⟩ := List.mem_map.mp hc
    obtain ⟨u, hu, hb⟩ := List.mem_flatMap.mp (List.mem_of_elem_eq_true hpool)
    obtain ⟨b, hb, heq⟩ := List.mem_map.mp hb
    exact ⟨a, ha, u, hu, b, hb, heq.symm⟩
  · rintro ⟨a, ha, u, hu, b, hb, heq⟩
    refine ⟨canon a, List.mem_map_of_mem ha, List.elem_eq_true_of_mem ?_⟩
    exact List.mem_flatMap.mpr ⟨u, hu, List.mem_map.mpr ⟨b, hb, heq.symm⟩⟩

theorem Exact.near {a b : Reading} (h : Exact a b) : Near a b :=
  Prod.ext (Decimal.canon_congr h.1) h.2

/-- a figure the evidence has as it is never counts as unverified -/
theorem verified_of_exact (hd : Digits R) {answer evidence : Text} {t : Token} (ht : t ∈ tokens R answer)
    (hmark : isMarker R t = false) (h : Traced R Exact evidence t) :
    t.display ∉ unverifiedFigures R answer evidence := by
  obtain ⟨a, ha, u, hu, b, hb, heq⟩ := h
  exact (mem_unverifiedFigures hd ht hmark).mpr (isBacked_iff.mpr ⟨a, ha, u, hu, b, hb, heq.near⟩)

/-- a number of six digits or less -/
def Short (r : Reading) : Prop := (Nat.digits 10 r.number.num).length ≤ 6

theorem Near.exact {a b : Reading} (h : Near a b) (ha : Short a) (hb : Short b) : Exact a b := by
  obtain ⟨hnum, hpct⟩ := Prod.mk.inj h
  exact ⟨(Decimal.canon_eq_value ha).symm.trans (hnum.trans (Decimal.canon_eq_value hb)), hpct⟩

/-- among numbers of six digits or less only what is equal backs a figure -/
theorem exact_of_short (hd : Digits R) {answer evidence : Text} {t : Token} (ht : t ∈ tokens R answer)
    (hmark : isMarker R t = false) (hshort : ∀ a ∈ asserted R t, Short a)
    (hpool : ∀ u ∈ tokens R evidence, ∀ b ∈ readings R u, Short b)
    (h : t.display ∉ unverifiedFigures R answer evidence) : Traced R Exact evidence t := by
  obtain ⟨a, ha, u, hu, b, hb, hnear⟩ := isBacked_iff.mp ((mem_unverifiedFigures hd ht hmark).mp h)
  exact ⟨a, ha, u, hu, b, hb, hnear.exact (hshort a ha) (hpool u hu b hb)⟩

/-- the figures left out are equal to numbers of the evidence exactly when none is equal to them in six
digits alone -/
theorem figuresExact_iff (hd : Digits R) (answer evidence : Text) :
    (∀ t ∈ tokens R answer, isMarker R t = false → t.display ∉ unverifiedFigures R answer evidence →
      Traced R Exact evidence t) ↔
    ∀ t ∈ tokens R answer, isMarker R t = false → Traced R Near evidence t → Traced R Exact evidence t := by
  refine forall_congr' fun t => forall_congr' fun ht => forall_congr' fun hmark => ?_
  rw [mem_unverifiedFigures hd ht hmark, isBacked_iff]

theorem digits_ascii : Digits ascii where
  notSpace := by
    intro c hc
    have hall : ∀ n ≤ 57, 48 ≤ n → Text.isSpace (Char.ofNat n) = false := by decide
    obtain ⟨hlo, hhi⟩ := Bool.and_eq_true _ _ ▸ (show (decide ('0' ≤ c) && decide (c ≤ '9')) = true from hc)
    have h := hall c.toNat (of_decide_eq_true hhi) (of_decide_eq_true hlo)
    rwa [Char.ofNat_toNat] at h
  apart := by decide

theorem figuresExact_iff_units :
    (∀ t ∈ tokens ascii "2M".toList, isMarker ascii t = false →
      t.display ∉ unverifiedFigures ascii "2M".toList "2,000,000".toList → Traced ascii Exact "2,000,000".toList t) ↔
    ∀ t ∈ tokens ascii "2M".toList, isMarker ascii t = false →
      Traced ascii Near "2,000,000".toList t → Traced ascii Exact "2,000,000".toList t :=
  figuresExact_iff digits_ascii "2M".toList "2,000,000".toList

/-- 1234568 passes where the evidence has 1234567 -/
theorem not_figuresExact : ¬∀ (R : Runtime) (answer evidence : Text), Digits R → ∀ t ∈ tokens R answer,
    isMarker R t = false → t.display ∉ unverifiedFigures R answer evidence → Traced R Exact evidence t := by
  intro h
  have hanswer : tokens ascii "1234568".toList = [⟨"1234568".toList, none, false, "1234568".toList⟩] := by
    decide +kernel
  have hevidence : tokens ascii "1234567".toList = [⟨"1234567".toList, none, false, "1234567".toList⟩] := by
    decide +kernel
  have hpass : unverifiedFigures ascii "1234568".toList "1234567".toList = [] := by decide +kernel
  obtain ⟨a, ha, u, hu, b, hb, heq, -⟩ := h ascii "1234568".toList "1234567".toList digits_ascii
    ⟨"1234568".toList, none, false, "1234568".toList⟩ (hanswer ▸ List.mem_singleton.mpr rfl) (by decide)
    (hpass ▸ List.not_mem_nil)
  rw [hevidence, List.mem_singleton] at hu
  subst hu
  have hasserted : asserted ascii ⟨"1234568".toList, none, false, "1234568".toList⟩ = [⟨⟨1234568, 0⟩, false⟩] := by
    decide +kernel
  have hreadings : readings ascii ⟨"1234567".toList, none, false, "1234567".toList⟩ = [⟨⟨1234567, 0⟩, false⟩] := by
    decide +kernel
  rw [hasserted, List.mem_singleton] at ha
  rw [hreadings, List.mem_singleton] at hb
  subst ha hb
  exact absurd (Decimal.value_eq_iff.mp heq) (by decide)

end

end Numbers
