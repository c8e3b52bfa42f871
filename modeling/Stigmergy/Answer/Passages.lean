import Stigmergy.Answer.Citations
import Stigmergy.Kernel.Body
import Stigmergy.Lib.Dict
import Stigmergy.Lib.SortedSet
import Stigmergy.Server.Listing

/-!
# Quotes and the parts of a page that were read

What a quote is checked against (`page_as_read`, `get_page`, `fragment_text`): the title, the head of the
body and the windows the run read, joined.

* `windowParts`      a fragment with the end of the one before and the start of the one after;
* `pageAsRead`       the head and the windows as one body;
* `parts`            the texts a reader was shown;
* `Passages`         every quote that is accepted stands in one of them;
* `passages_iff`     it does exactly when the joined text stands in one of them.
-/

set_option linter.unusedSectionVars false

namespace Citations
open Fragments (parseReference)

def PAGE_EXCERPT : ℕ := 6000

/-- `_CONTROL_RE` -/
def isControl (c : Char) : Bool :=
  let n := c.toNat
  n ≤ 8 || (0x0b ≤ n && n ≤ 0x1f) || (0x7f ≤ n && n ≤ 0x9f)

def sanitize (t : Text) : Text := t.filter fun c => !isControl c

/-- a visible fragment of a page -/
structure FragmentRow where
  layer : Text
  trail : Text
  text : Text

/-- `fused_pages`: the fused record of a page -/
structure FusedPage where
  path : Text
  title : Text
  body : Text

def digits (n : ℕ) : Text := (toString n).toList

section
variable (R : Runtime) (fusedPage : Text → Option FusedPage) (visible : Text → List FragmentRow)

/-- the fragments of a page from `number - 1` to `number + 1` with their numbers, and how many there are -/
def fragmentWindow (vpath : Text) (number : ℕ) : Option (List (FragmentRow × ℕ) × ℕ) :=
  let rows := ((visible vpath).zipIdx 1).filter fun r => number ≤ r.2 + 1 && r.2 ≤ number + 1
  if rows.any fun r => r.2 == number then some (rows, (visible vpath).length) else none

/-- `text[number]` -/
def textOf (rows : List (FragmentRow × ℕ)) (number : ℕ) : Option Text :=
  (rows.find? fun r => r.2 == number).map fun r => sanitize (Body.readingText R r.1.layer r.1.text)

def trailOf (rows : List (FragmentRow × ℕ)) (number : ℕ) : Text :=
  ((rows.find? fun r => r.2 == number).map fun r => sanitize r.1.trail).getD []

/-- `_window_parts`: labels and texts -/
def windowParts (vpath : Text) (number : ℕ) : Option (List (Text × Text) × ℕ) :=
  (fragmentWindow visible vpath number).map fun (rows, total) =>
    let center := ((textOf R rows number).getD []).take PAGE_EXCERPT
    let room := (PAGE_EXCERPT - center.length) / 2
    let before := if room = 0 then none else textOf R rows (number - 1)
    let after := if room = 0 then none else textOf R rows (number + 1)
    let trail := trailOf rows number
    let of (n : ℕ) : Text := "fragment ".toList ++ digits n ++ " of ".toList ++ digits total
    ((before.map fun t => ("… ".toList ++ of (number - 1) ++ ", its end".toList, t.drop (t.length - room))).toList ++
      [(of number ++ (if trail.isEmpty then [] else ": ".toList ++ trail), center)] ++
      (after.map fun t => (of (number + 1) ++ ", its start …".toList, t.take room)).toList, total)

def joined (texts : List Text) : Text := "\n\n".toList.intercalate texts

def fragmentText (path : Text) (number : ℕ) : Option Text :=
  (windowParts R visible (Listing.virtual path) number).map fun parts => joined (parts.1.map Prod.snd)

/-- `fetch_page_raw` -/
def fetchPageRaw (path : Text) : Option Page :=
  (fusedPage (Listing.virtual path)).map fun page =>
    [("path".toList, page.path), ("title".toList, page.title), ("body".toList, (sanitize page.body).take PAGE_EXCERPT)]

def getPage (path : Text) (windows : List ℕ) : Option Page :=
  let pagePath := (parseReference path).1
  (fetchPageRaw fusedPage pagePath).map fun page =>
    let texts := (sortedSet windows).filterMap (fragmentText R visible pagePath)
    if texts.isEmpty then page else Dict.put page "body".toList (joined (page.get "body" :: texts))

/-- `page_as_read`, after the run has read `windows` -/
def pageAsRead (windows : List (Text × ℕ)) (path : Text) : Option Page :=
  getPage R fusedPage visible path ((windows.filter fun w => w.1 == path).map Prod.snd)

/-! ## what a reader was shown -/

/-- the title, the head of the body, and the fragments of each window -/
def parts (windows : List (Text × ℕ)) (path : Text) : List Text :=
  let pagePath := (parseReference path).1
  ((fetchPageRaw fusedPage pagePath).map fun page =>
    page.get "title" :: page.get "body" ::
      (sortedSet ((windows.filter fun w => w.1 == path).map Prod.snd)).flatMap fun number =>
        ((windowParts R visible (Listing.virtual pagePath) number).map fun shown => shown.1.map Prod.snd).getD []).getD []

/-- `t` stands in one of the texts, as a reader sees it or with its links as written -/
def Within (texts : List Text) (t : Text) : Prop :=
  ∃ text ∈ texts, t <:+: normalizePage R text ∨ t <:+: normalizePageSource R text

variable (readPaths : Text → Bool)

/-- every quote of the page that is accepted stands in one of the texts of it that the run was shown -/
def Passages (windows : List (Text × ℕ)) (path : Text) : Prop :=
  ∀ (before after : List Citation) (quote : Text),
    checkCitations R (pageAsRead R fusedPage visible windows) readPaths (before ++ ⟨path, quote⟩ :: after) =
        checkCitations R (pageAsRead R fusedPage visible windows) readPaths (before ++ after) →
      Within R (parts R fusedPage visible windows (parseReference path).1) (normalizeQuote R quote)

variable {R fusedPage visible readPaths}

/-- a page that was read has its title among the texts shown -/
theorem parts_of_read {windows : List (Text × ℕ)} {path : Text} {page : Page}
    (h : pageAsRead R fusedPage visible windows path = some page) :
    page ≠ [] ∧ ∃ title texts, parts R fusedPage visible windows path = title :: texts := by
  unfold pageAsRead getPage at h
  unfold parts
  dsimp only at h ⊢
  cases hraw : fetchPageRaw fusedPage (parseReference path).1 with
  | none =>
    rw [hraw] at h
    exact nomatch h
  | some raw =>
    rw [hraw] at h
    refine ⟨?_, _, _, rfl⟩
    have hne : raw ≠ [] := by
      unfold fetchPageRaw at hraw
      obtain ⟨fused, -, rfl⟩ := Option.map_eq_some_iff.mp hraw
      exact List.cons_ne_nil _ _
    rw [← Option.some.inj h]
    dsimp only
    split
    · exact hne
    · exact Dict.put_ne_nil _ _ _

theorem Within.of_infix {texts : List Text} {s t : Text} (h : Within R texts t) (hs : s <:+: t) : Within R texts s := by
  obtain ⟨text, hmem, hor⟩ := h
  exact ⟨text, hmem, hor.imp hs.trans hs.trans⟩

/-- a quote that is read as `t` where `t` stands in the joined page -/
theorem Passages.within {windows : List (Text × ℕ)} {path : Text} {page : Page}
    (h : Passages R fusedPage visible readPaths windows path) (hread : readPaths (parseReference path).1 = true)
    (hpage : pageAsRead R fusedPage visible windows (parseReference path).1 = some page) {quote t : Text}
    (hquote : normalizeQuote R quote = t)
    (ht : t <:+: normalizePage R page.text ∨ t <:+: normalizePageSource R page.text) :
    Within R (parts R fusedPage visible windows (parseReference path).1) t := by
  obtain ⟨hne, title, texts, hparts⟩ := parts_of_read hpage
  subst hquote
  by_cases hnil : normalizeQuote R quote = []
  · rw [hnil, hparts]
    exact ⟨title, List.mem_cons_self, Or.inl (List.nil_infix)⟩
  · refine h [] [] quote ?_
    rw [accepted_iff, checkCitation_nil]
    exact ⟨hread, page, hpage, hne, hnil, ht⟩

/-- every quote stands in one of the texts shown exactly when the joined page does -/
theorem passages_iff {windows : List (Text × ℕ)} {path : Text} {page : Page}
    (hread : readPaths (parseReference path).1 = true)
    (hpage : pageAsRead R fusedPage visible windows (parseReference path).1 = some page) :
    Passages R fusedPage visible readPaths windows path ↔
      Within R (parts R fusedPage visible windows (parseReference path).1) (normalizePage R page.text) ∧
      Within R (parts R fusedPage visible windows (parseReference path).1) (normalizePageSource R page.text) := by
  constructor
  · intro h
    -- the joined page is a quote of itself, with its links shown or as written
    have hshown : normalizeQuote R (strike (showLinks page.text)) = normalizePage R page.text := rfl
    have hwritten : normalizeQuote R (strike page.text) = normalizePageSource R page.text := rfl
    exact ⟨h.within hread hpage hshown (Or.inl List.infix_rfl), h.within hread hpage hwritten (Or.inr List.infix_rfl)⟩
  · rintro ⟨hshown, hwritten⟩ before after quote haccepted
    rw [accepted_iff, checkCitation_nil] at haccepted
    obtain ⟨-, other, hother, -, -, hfound⟩ := haccepted
    obtain rfl := Option.some.inj (hpage.symm.trans hother)
    rcases hfound with hfound | hfound
    · exact hshown.of_infix hfound
    · exact hwritten.of_infix hfound

end

def refunds (title : String) : FusedPage :=
  ⟨"wiki/refunds.md".toList, title.toList, "Paid within **30** days.".toList⟩

theorem untitled_read : pageAsRead ascii (fun _ => some (refunds "")) (fun _ => []) [] "wiki/refunds.md".toList =
    some [("path".toList, "wiki/refunds.md".toList), ("title".toList, []),
      ("body".toList, "Paid within **30** days.".toList)] := by
  decide +kernel

theorem passages_iff_untitled :
    Passages ascii (fun _ => some (refunds "")) (fun _ => []) (fun _ => true) [] "wiki/refunds.md".toList :=
  (passages_iff rfl untitled_read).mpr (by
    unfold Within
    decide +kernel)

/-- the end of the title and the start of the body make a sentence that no text of the page holds -/
theorem not_passages : ¬∀ (R : Runtime) (fusedPage : Text → Option FusedPage) (visible : Text → List FragmentRow)
    (readPaths : Text → Bool) (windows : List (Text × ℕ)) (path : Text),
    readPaths (parseReference path).1 = true → Passages R fusedPage visible readPaths windows path := by
  intro h
  have hquote := h ascii (fun _ => some (refunds "Refunds are never")) (fun _ => []) (fun _ => true) []
    "wiki/refunds.md".toList rfl [] [] "never paid".toList (by decide +kernel)
  revert hquote
  unfold Within
  decide +kernel

end Citations
