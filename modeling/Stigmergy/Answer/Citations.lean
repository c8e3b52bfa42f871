import Stigmergy.Index.Fragments
import Stigmergy.Kernel.Ascii
import Stigmergy.Lib.Enclosed

/-!
# Quotes of an answer

`answer/verify_answer.py`: a citation holds when the run surfaced its page and its quote stands in the
page, as a reader sees it or with its links as written, and in both without what the page has struck
through.

* `derenderPage`      links, struck spans and emphasis of a page, as a renderer leaves them;
* `checkCitations`    the problems of the citations, the pages normalised once;
* `checkCitations_eq` one citation after the other;
* `asRead`, `asWritten` a page without its struck spans, however long these are;
* `quotable`          what is accepted stands outside the struck spans.
-/

set_option linter.unusedSectionVars false

namespace Citations
open Fragments (parseReference)

def SPAN : ℕ := 200

def tick : Char := Char.ofNat 0x60

/-- `[A-Za-z0-9]` -/
def isAlnum (c : Char) : Bool := ('A' ≤ c && c ≤ 'Z') || ('a' ≤ c && c ≤ 'z') || ('0' ≤ c && c ≤ '9')

/-! ## what a renderer strips -/

/-- `_WIKILINK` and what it is replaced by -/
def wikilink (t : Text) : Option (ℕ × Text) :=
  if Text.startsWith "[[".toList t then
    let target := (t.drop 2).takeWhile fun c => c != ']' && c != '|' && c != '\n'
    if target.isEmpty || SPAN < target.length then none
    else
      let after := t.drop (2 + target.length)
      if Text.startsWith "]]".toList after then some (target.length + 4, target)
      else if after.head? = some '|' then
        let label := (after.drop 1).takeWhile fun c => c != ']' && c != '\n'
        if label.isEmpty || SPAN < label.length then none
        else if Text.startsWith "]]".toList (after.drop (1 + label.length)) then
          some (target.length + 1 + label.length + 4, label)
        else none
      else none
  else none

/-- `_MDLINK` and what it is replaced by -/
def mdlink (t : Text) : Option (ℕ × Text) :=
  if t.head? = some '[' then
    let label := (t.drop 1).takeWhile fun c => c != ']' && c != '\n'
    if label.isEmpty || SPAN < label.length then none
    else
      let after := t.drop (1 + label.length)
      if Text.startsWith "](".toList after then
        let target := (after.drop 2).takeWhile fun c => c != ')' && !Text.isSpace c
        if 500 < target.length then none
        else if (after.drop (2 + target.length)).head? = some ')' then
          some (1 + label.length + 2 + target.length + 1, label)
        else none
      else none
  else none

def STRIKE : Text := "~~".toList

/-- `_STRIKE.sub(" ", s)` -/
def strike (s : Text) : Text := Enclosed.droppedUpTo SPAN STRIKE s

/-- a marker pair of `_PAIRED`, replaced by what stands between -/
def pair (mark s : Text) : Text := Scan.sub (Enclosed.enclosedUpTo SPAN mark fun _ => true) s

/-- a marker pair with no letter or digit around it -/
def lonePair (mark s : Text) : Text :=
  Scan.subBehind (fun prev t =>
    if prev.any isAlnum then none else Enclosed.enclosedUpTo SPAN mark (fun u => !u.head?.any isAlnum) t) s

/-- runs of backticks: as many to open as there can be, and all that follow to close -/
def code (t : Text) : Option (ℕ × Text) :=
  (List.range (t.takeWhile (· == tick)).length).reverse.findSome? fun i =>
    let rest := t.drop (i + 1)
    (Enclosed.reachUpTo (fun u => u.head? == some tick) SPAN rest).map fun k =>
      (i + 1 + k + ((rest.drop k).takeWhile (· == tick)).length, rest.take k)

def derenderPairs (s : Text) : Text :=
  lonePair "_".toList (lonePair "__".toList (lonePair "___".toList (Scan.sub code (lonePair "*".toList
    (pair "**".toList (pair "***".toList s))))))

/-- the links of a page by their text -/
def showLinks (s : Text) : Text := Scan.sub mdlink (Scan.sub wikilink s)

def derenderPage (s : Text) : Text := derenderPairs (strike (showLinks s))

/-! ## what both sides fold -/

def FOLD : List (Char × Text) :=
  [(Char.ofNat 0x2018, ['\'']), (Char.ofNat 0x2019, ['\'']), (Char.ofNat 0x201A, ['\'']), (Char.ofNat 0x201B, ['\'']),
    (Char.ofNat 0x201C, ['"']), (Char.ofNat 0x201D, ['"']), (Char.ofNat 0x201E, ['"']), (Char.ofNat 0x201F, ['"']),
    (Char.ofNat 0x2026, "...".toList)]

section
variable (R : Runtime)

def fold (s : Text) : Text := (R.nfc s).flatMap fun c => (FOLD.lookup c).getD [c]

/-- folded, white space collapsed, in lower case -/
def normalize (s : Text) : Text := R.lower (Text.oneLine (fold R s))

def normalizePage (s : Text) : Text := normalize R (derenderPage s)
def normalizeQuote (s : Text) : Text := normalize R (derenderPairs s)
def normalizePageSource (s : Text) : Text := normalizeQuote R (strike s)

/-! ## the check -/

structure Citation where
  path : Text
  quote : Text

/-- what `get_page` answers with: an empty mapping is no page -/
abbrev Page := List (Text × Text)

def Page.get (page : Page) (key : String) : Text := (page.lookup key.toList).getD []

def Page.text (page : Page) : Text := page.get "title" ++ ' ' :: page.get "body"

/-- `hay_by_path` -/
abbrev Hay := List (Text × Text × Text)

variable (getPage : Text → Option Page) (readPaths : Text → Bool)

/-- the problem of one citation, and the pages normalised so far -/
def checkCitation (hay : Hay) (c : Citation) : List Text × Hay :=
  let path := (parseReference c.path).1
  if !readPaths path then (["citation to a page the run never surfaced: ".toList ++ c.path], hay)
  else
    match getPage path with
    | none | some [] => (["citation to an unknown page: ".toList ++ c.path], hay)
    | some page =>
      let quote := normalizeQuote R c.quote
      if quote.isEmpty then (["citation with no quote: ".toList ++ c.path], hay)
      else
        let hay := if (hay.lookup c.path).isSome then hay
          else (c.path, normalizePage R page.text, normalizePageSource R page.text) :: hay
        let (shown, source) := (hay.lookup c.path).getD ([], [])
        if Text.contains quote shown || Text.contains quote source then ([], hay)
        else (["citation quote not found in ".toList ++ c.path ++ ": ".toList ++ R.repr (c.quote.take 80)], hay)

def checkCitations (citations : List Citation) : List Text :=
  (citations.foldl (fun (s : List Text × Hay) c =>
    let r := checkCitation R getPage readPaths s.2 c
    (s.1 ++ r.1, r.2)) ([], [])).1

/-! ## one citation after the other -/

/-- what is kept for a path is what its page is normalised to -/
def Sound (hay : Hay) : Prop :=
  ∀ path h, hay.lookup path = some h → ∀ page, getPage (parseReference path).1 = some page →
    h = (normalizePage R page.text, normalizePageSource R page.text)

variable {R getPage}

theorem sound_nil : Sound R getPage [] := by
  intro _ _ hlook
  exact nomatch hlook

theorem sound_cons {hay : Hay} (hhay : Sound R getPage hay) {path : Text} {page : Page}
    (hpage : getPage (parseReference path).1 = some page) :
    Sound R getPage ((path, normalizePage R page.text, normalizePageSource R page.text) :: hay) := by
  intro key h hlook other hother
  rw [List.lookup_cons] at hlook
  split at hlook
  · next hkey =>
    rw [beq_iff_eq.mp hkey] at hother
    obtain rfl := Option.some.inj (hpage.symm.trans hother)
    exact (Option.some.inj hlook).symm
  · exact hhay key h hlook other hother

/-- the pages kept make no difference -/
theorem checkCitation_spec {hay : Hay} (hhay : Sound R getPage hay) (c : Citation) :
    (checkCitation R getPage readPaths hay c).1 = (checkCitation R getPage readPaths [] c).1 ∧
      Sound R getPage (checkCitation R getPage readPaths hay c).2 := by
  unfold checkCitation
  dsimp only
  split
  · exact ⟨rfl, hhay⟩
  · split
    · exact ⟨rfl, hhay⟩
    · exact ⟨rfl, hhay⟩
    · next page _ hpage =>
      split
      · exact ⟨rfl, hhay⟩
      · cases hlook : hay.lookup c.path with
        | none =>
          have hnew := sound_cons hhay hpage
          simp only [Option.isSome_none, List.lookup_nil, Bool.false_eq_true, if_false, List.lookup_cons_self,
            Option.getD_some]
          split
          · exact ⟨rfl, hnew⟩
          · exact ⟨rfl, hnew⟩
        | some h =>
          have hh := hhay c.path h hlook page hpage
          simp only [Option.isSome_some, Option.isSome_none, hlook, List.lookup_nil, Bool.false_eq_true, if_true,
            if_false, List.lookup_cons_self, Option.getD_some, hh]
          split
          · exact ⟨rfl, hhay⟩
          · exact ⟨rfl, hhay⟩

theorem foldl_checkCitation {hay : Hay} (hhay : Sound R getPage hay) (problems : List Text) (cs : List Citation) :
    (cs.foldl (fun (s : List Text × Hay) c =>
      let r := checkCitation R getPage readPaths s.2 c
      (s.1 ++ r.1, r.2)) (problems, hay)).1 =
      problems ++ cs.flatMap fun c => (checkCitation R getPage readPaths [] c).1 := by
  induction cs generalizing problems hay with
  | nil => exact (List.append_nil problems).symm
  | cons c cs ih =>
    obtain ⟨hone, hnext⟩ := checkCitation_spec readPaths hhay c
    rw [List.foldl_cons, ih hnext, List.flatMap_cons, ← List.append_assoc]
    dsimp only
    rw [hone]

/-- each citation is judged by itself -/
theorem checkCitations_eq (cs : List Citation) :
    checkCitations R getPage readPaths cs = cs.flatMap fun c => (checkCitation R getPage readPaths [] c).1 :=
  foldl_checkCitation readPaths sound_nil [] cs

/-- a citation adds a problem, or it does not -/
theorem accepted_iff (before after : List Citation) (c : Citation) :
    checkCitations R getPage readPaths (before ++ c :: after) = checkCitations R getPage readPaths (before ++ after) ↔
      (checkCitation R getPage readPaths [] c).1 = [] := by
  simp only [checkCitations_eq, List.flatMap_append, List.flatMap_cons]
  rw [List.append_cancel_left_eq]
  exact List.append_left_eq_self

/-- when a citation is accepted -/
theorem checkCitation_nil {c : Citation} : (checkCitation R getPage readPaths [] c).1 = [] ↔
    readPaths (parseReference c.path).1 = true ∧ ∃ page, getPage (parseReference c.path).1 = some page ∧
      page ≠ [] ∧ normalizeQuote R c.quote ≠ [] ∧ (normalizeQuote R c.quote <:+: normalizePage R page.text ∨
        normalizeQuote R c.quote <:+: normalizePageSource R page.text) := by
  unfold checkCitation
  dsimp only
  split
  · next hread =>
    rw [Bool.not_eq_true'] at hread
    refine iff_of_false (List.cons_ne_nil _ _) ?_
    rintro ⟨hin, _⟩
    exact Bool.false_ne_true (hread.symm.trans hin)
  · next hread =>
    rw [Bool.not_eq_true, Bool.not_eq_false'] at hread
    split
    · next hpage =>
      refine iff_of_false (List.cons_ne_nil _ _) ?_
      rintro ⟨_, page, hsome, _⟩
      exact absurd (hpage.symm.trans hsome) (Option.some_ne_none page).symm
    · next hpage =>
      refine iff_of_false (List.cons_ne_nil _ _) ?_
      rintro ⟨_, page, hsome, hne, _⟩
      exact absurd (Option.some.inj (hpage.symm.trans hsome)).symm hne
    · next page hne hpage =>
      have hpick : ∀ P : Page → Prop,
          (∃ other, getPage (parseReference c.path).1 = some other ∧ P other) ↔ P page := by
        intro P
        constructor
        · rintro ⟨other, hother, hP⟩
          obtain rfl := Option.some.inj (hpage.symm.trans hother)
          exact hP
        · exact fun hP => ⟨page, hpage, hP⟩
      rw [hpick, and_iff_right hread, and_iff_right (show page ≠ [] from fun h => hne (h ▸ rfl))]
      split
      · next hempty => exact iff_of_false (List.cons_ne_nil _ _) fun h => h.1 (List.isEmpty_iff.mp hempty)
      · next hquote =>
        rw [and_iff_right (fun h => hquote (List.isEmpty_iff.mpr h)), ← Text.contains_iff, ← Text.contains_iff,
          ← Bool.or_eq_true]
        simp only [Option.isSome_none, List.lookup_nil, Bool.false_eq_true, if_false, List.lookup_cons_self,
          Option.getD_some]
        split
        · next hfound => exact iff_of_true rfl hfound
        · next hlost => exact iff_of_false (List.cons_ne_nil _ _) hlost

/-! ## pages without what they strike -/

/-- no struck span of a text holds more than the bound -/
def Short (s : Text) : Prop := ∀ content ∈ Enclosed.contents STRIKE s, content.length ≤ SPAN

variable (R)

/-- a page as a reader sees it, every struck span gone -/
def asRead (s : Text) : Text := normalize R (derenderPairs (Enclosed.dropped STRIKE (showLinks s)))

/-- a page with its links as written, every struck span gone -/
def asWritten (s : Text) : Text := normalize R (derenderPairs (Enclosed.dropped STRIKE s))

theorem normalizePage_eq {s : Text} (h : Short (showLinks s)) : normalizePage R s = asRead R s :=
  congrArg (fun t => normalize R (derenderPairs t)) (Enclosed.droppedUpTo_eq h)

theorem normalizePageSource_eq {s : Text} (h : Short s) : normalizePageSource R s = asWritten R s :=
  congrArg (fun t => normalize R (derenderPairs t)) (Enclosed.droppedUpTo_eq h)

variable {R}

/-- a citation that adds no problem quotes what its page does not strike through, as a reader sees it or as
it is written -/
theorem quotable (before after : List Citation) {c : Citation} {page : Page}
    (hpage : getPage (parseReference c.path).1 = some page) (hshown : Short (showLinks page.text))
    (hwritten : Short page.text) :
    (checkCitations R getPage readPaths (before ++ c :: after) =
        checkCitations R getPage readPaths (before ++ after) →
      normalizeQuote R c.quote ≠ [] ∧ (normalizeQuote R c.quote <:+: asRead R page.text ∨
        normalizeQuote R c.quote <:+: asWritten R page.text)) ∧
    (readPaths (parseReference c.path).1 = true → page ≠ [] → normalizeQuote R c.quote ≠ [] →
      normalizeQuote R c.quote <:+: asRead R page.text →
      checkCitations R getPage readPaths (before ++ c :: after) =
        checkCitations R getPage readPaths (before ++ after)) := by
  rw [accepted_iff, checkCitation_nil, ← normalizePage_eq R hshown, ← normalizePageSource_eq R hwritten]
  constructor
  · rintro ⟨_, other, hother, _, hquote, hfound⟩
    obtain rfl := Option.some.inj (hpage.symm.trans hother)
    exact ⟨hquote, hfound⟩
  · intro hread hne hquote hfound
    exact ⟨hread, page, hpage, hne, hquote, Or.inl hfound⟩

def revised : Page :=
  [("title".toList, "Margin".toList), ("body".toList, "was ~~12%~~ 14% of [sales](http://a/12)".toList)]

def quoting (quote : String) : Citation := ⟨"wiki/margin.md".toList, quote.toList⟩

theorem revised_short : Short (showLinks revised.text) ∧ Short revised.text := by
  unfold Short
  decide +kernel

theorem quotable_revised :
    checkCitations ascii (fun _ => some revised) (fun _ => true) [quoting "was 14% of **sales**"] = [] ∧
      normalizeQuote ascii "12%".toList ≠ [] ∧
      checkCitations ascii (fun _ => some revised) (fun _ => true) [quoting "12%"] ≠ [] := by
  have hq := fun quote : String => @quotable ascii (fun _ => some revised) (fun _ => true) [] [] (quoting quote)
    revised rfl revised_short.1 revised_short.2
  refine ⟨(hq "was 14% of **sales**").2 rfl (List.cons_ne_nil _ _) (by decide +kernel) (by decide +kernel),
    by decide +kernel, fun h => ?_⟩
  have hfound := ((hq "12%").1 h).2
  revert hfound
  decide +kernel

/-- the reader sees 12 struck through only, and a link to it -/
theorem not_refused : ¬∀ (page : Page) (c : Citation), Short (showLinks page.text) →
    ¬normalizeQuote ascii c.quote <:+: asRead ascii page.text →
    checkCitations ascii (fun _ => some page) (fun _ => true) [c] ≠ [] := by
  intro h
  exact h revised (quoting "12") revised_short.1 (by decide +kernel) (by decide +kernel)

end
end Citations
