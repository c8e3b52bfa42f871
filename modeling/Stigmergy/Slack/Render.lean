import Stigmergy.Lib.Entities
import Stigmergy.Lib.SortedSet
import Stigmergy.Slack.Mrkdwn

/-!
# Answers in Slack

`slack/render.py` and the text that stands in for it in `slack/mention.py`: the answer's Markdown is
escaped and converted, the sources and the verdict follow, and every block's text is held to a length.

* `renderAnswer`, `answerFallbackText`   the two ways an answer is written;
* `renderMarkdown_mixed`   the converted text is escaped text with one token for each link of the answer;
* `clamp_clear`, `clamp_open`   what a cut leaves of it;
* `Spoken`       every `<…>` is a link to a named web or mail address, and every block fits;
* `spoken_iff`   when that is so.
-/

set_option linter.unusedSectionVars false

namespace Render
open Mrkdwn Entities

/-! ## the conversion of escaped text -/

theorem escapeMrkdwn_eq (text : Text) : escapeMrkdwn text = text.flatMap fun c =>
    if c = '&' then "&amp;".toList else if c = '<' then "&lt;".toList else if c = '>' then "&gt;".toList else [c] := by
  have hone : ∀ (c : Char) (r t : Text),
      Placeholders.replace [c] r t = t.flatMap fun d => if d = c then r else [d] := by
    intro c r t
    induction t with
    | nil => rfl
    | cons d t ih =>
      by_cases hd : d = c
      · subst hd
        have hmatch := Placeholders.replace_match (List.cons_ne_nil d []) r t
        rw [List.flatMap_cons, if_pos rfl, ← ih]
        exact hmatch
      · have hne : ((c == d) : Bool) = false := beq_false_of_ne (Ne.symm hd)
        have hnone : Text.startsWith [c] (d :: t) = false := by
          show ((c == d) && _) = false
          rw [hne]
          rfl
        rw [Placeholders.replace_none hnone, List.flatMap_cons, if_neg hd, ih]
        rfl
  unfold escapeMrkdwn
  rw [show "&".toList = ['&'] from rfl, show "<".toList = ['<'] from rfl, show ">".toList = ['>'] from rfl, hone, hone,
    hone]
  induction text with
  | nil => rfl
  | cons c text ih =>
    rw [List.flatMap_cons, List.flatMap_append, List.flatMap_append, ih, List.flatMap_cons]
    congr 1
    by_cases hamp : c = '&'
    · rw [if_pos hamp, if_pos hamp]
      rfl
    · by_cases hl : c = '<'
      · subst hl
        rfl
      · by_cases hu : c = '>'
        · subst hu
          rfl
        · simp [hamp, hl, hu]

theorem escapeMrkdwn_escaped (text : Text) : Escaped (escapeMrkdwn text) := by
  rw [escapeMrkdwn_eq]
  induction text with
  | nil => exact escaped_nil
  | cons c text ih =>
    rw [List.flatMap_cons]
    refine Escaped.append ?_ ih
    split
    · exact escaped_entity (by decide)
    · next hamp =>
      split
      · exact escaped_entity (by decide)
      · next hl =>
        split
        · exact escaped_entity (by decide)
        · next hu =>
          refine .of_plain fun d hd => ?_
          obtain rfl := List.mem_singleton.mp hd
          exact ⟨hamp, hl, hu⟩

theorem starred_escaped {v : Text} (h : Escaped v) : Escaped ('*' :: v ++ ['*']) := by
  have hstar : Escaped ['*'] := .of_plain (by decide)
  exact (hstar.append h).append hstar

theorem bold_keeps {c : Char} {t v : Text} {n : ℕ} (h : Escaped (c :: t)) (hm : bold (c :: t) = some (n, v)) :
    Stop c ∧ Escaped v := by
  unfold bold at hm
  split at hm
  · next d u heq =>
    obtain ⟨⟨x, y⟩, hfind, hx⟩ := Option.map_eq_some_iff.mp hm
    obtain ⟨-, rfl⟩ := Prod.mk.inj hx
    rw [heq, Search.find_eq_some hfind] at h
    have hvalue : Escaped (d :: x ++ '*' :: ('*' :: y)) := by
      refine h.suffix ⟨['*', '*'], ?_⟩
      simp
    refine ⟨?_, hvalue.before (by decide)⟩
    rw [(List.cons.inj heq).1]
    decide
  · exact nomatch hm

theorem boldMatch_keeps {c : Char} {t v : Text} {n : ℕ} (h : Escaped (c :: t)) (hm : boldMatch (c :: t) = some (n, v)) :
    Stop c ∧ Escaped v := by
  obtain ⟨⟨k, x⟩, hx, heq⟩ := Option.map_eq_some_iff.mp hm
  obtain ⟨-, rfl⟩ := Prod.mk.inj heq
  obtain ⟨hc, hv⟩ := bold_keeps h hx
  exact ⟨hc, starred_escaped hv⟩

theorem headingMatch_keeps {prev : Option Char} {c : Char} {t v : Text} {n : ℕ} (h : Escaped (c :: t))
    (hm : headingMatch prev (c :: t) = some (n, v)) : Stop c ∧ Escaped v := by
  obtain ⟨⟨k, x⟩, hx, heq⟩ := Option.map_eq_some_iff.mp hm
  obtain ⟨-, rfl⟩ := Prod.mk.inj heq
  unfold heading at hx
  dsimp only at hx
  split at hx
  · next hcond =>
    obtain ⟨-, rfl⟩ := Prod.mk.inj (Option.some.inj hx)
    have hc : c = '#' := by
      by_contra hne
      have hnil : (c :: t).takeWhile (· == '#') = [] := List.takeWhile_cons_of_neg (by simpa using hne)
      rw [hnil] at hcond
      simp at hcond
    refine ⟨hc ▸ by decide, starred_escaped (escaped_cuts.keeps (fun _ _ _ _ => bold_keeps) ?_)⟩
    refine ((h.dropWhile _).dropWhile _).takeWhile fun d hd => ?_
    have hd : d = '\n' := by simpa using hd
    exact hd ▸ by decide
  · exact nomatch hx

theorem space_stop {c : Char} (h : Text.isSpace c = true) : Stop c ∧ c ≠ '&' ∧ c ≠ '<' ∧ c ≠ '>' := by
  have hword : ∀ d ∈ "&<>amp;ltg".toList, Text.isSpace d = false := by decide
  have hne : ∀ d ∈ "&<>amp;ltg".toList, c ≠ d := fun d hd heq => by
    rw [heq, hword d hd] at h
    exact nomatch h
  have hall : ∀ e ∈ tails, ∀ d ∈ e, d ∈ "&<>amp;ltg".toList := by decide
  exact ⟨fun e he hc => hne c (hall e he c hc) rfl, hne _ (by decide), hne _ (by decide), hne _ (by decide)⟩

theorem bulletMatch_keeps {prev : Option Char} {c : Char} {t v : Text} {n : ℕ} (_ : Escaped (c :: t))
    (hm : bulletMatch prev (c :: t) = some (n, v)) : Stop c ∧ Escaped v := by
  obtain ⟨⟨k, x⟩, hx, heq⟩ := Option.map_eq_some_iff.mp hm
  obtain ⟨-, rfl⟩ := Prod.mk.inj heq
  unfold bullet at hx
  dsimp only at hx
  split at hx
  · next hcond =>
    obtain ⟨-, rfl⟩ := Prod.mk.inj (Option.some.inj hx)
    have hlead : Escaped ((c :: t).takeWhile Text.isSpace) :=
      .of_plain fun d hd => (space_stop (List.mem_takeWhile_imp hd)).2
    refine ⟨?_, hlead.append (.of_plain (by decide))⟩
    by_cases hc : Text.isSpace c = true
    · exact (space_stop hc).1
    · have hmark : (c :: t).dropWhile Text.isSpace = c :: t := List.dropWhile_cons_of_neg hc
      rw [hmark] at hcond
      simp only [List.head?_cons, Bool.and_eq_true, Bool.or_eq_true, decide_eq_true_eq, Option.some.injEq] at hcond
      rcases hcond.1.2 with (rfl | rfl) | rfl <;> decide
  · exact nomatch hx

theorem emphasised_escaped {t : Text} (h : Escaped t) : Escaped (emphasised t) := by
  have hheadings : Escaped (Scan.subBehind headingMatch t) :=
    escaped_cuts.keepsBehind (fun _ _ _ _ _ => headingMatch_keeps) h
  have hbullets : Escaped (Scan.subBehind bulletMatch (Scan.subBehind headingMatch t)) :=
    escaped_cuts.keepsBehind (fun _ _ _ _ _ => bulletMatch_keeps) hheadings
  exact escaped_cuts.keeps (fun _ _ _ _ => boldMatch_keeps) hbullets

/-- a match that ends with a tick -/
theorem ticked_escaped {x u : Text} (h : Escaped (x ++ [tick] ++ u)) : Escaped (x ++ [tick]) := by
  rw [List.append_assoc] at h
  have hx : Escaped x := h.before (by decide)
  exact hx.append (.of_plain (by decide))

theorem prefix_of_inline {t s : Text} {n : ℕ} (h : Mrkdwn.inline t = some (n, s)) : s <+: t := by
  unfold Mrkdwn.inline at h
  dsimp only at h
  split at h
  · next hcond =>
    obtain ⟨-, rfl⟩ := Prod.mk.inj (Option.some.inj h)
    rw [Bool.and_eq_true, Bool.and_eq_true, decide_eq_true_eq, decide_eq_true_eq] at hcond
    obtain ⟨u, rfl⟩ := List.head?_eq_some_iff.mp hcond.1.1
    obtain ⟨r, hr⟩ := List.head?_eq_some_iff.mp hcond.2
    refine ⟨r, ?_⟩
    rw [List.append_assoc, List.cons_append, List.singleton_append, ← hr, List.takeWhile_append_dropWhile]
    rfl
  · exact nomatch h

theorem found_fenced_escaped {t s : Text} (ht : Escaped t) (h : s ∈ Scan.found fenced t) :
    Escaped (stripFenceLang s) := by
  obtain ⟨r, n, hsuffix, hmatch⟩ := Scan.mem_found h
  obtain ⟨⟨x, rfl, -⟩, u, rfl⟩ := fence_of_fenced hmatch
  have hcut : FENCE ++ x ++ FENCE = FENCE ++ x ++ [tick, tick] ++ [tick] := by
    rw [List.append_assoc _ [tick, tick]]
    rfl
  have hall := ht.suffix hsuffix
  rw [hcut] at hall ⊢
  have hspan := ticked_escaped hall
  unfold stripFenceLang
  dsimp only
  split
  · have hfence : Escaped FENCE := .of_plain (by decide)
    exact hfence.append ((hspan.suffix (List.drop_suffix 3 _)).dropWhile _)
  · exact hspan

theorem found_inline_escaped {t s : Text} (ht : Escaped t) (h : s ∈ Scan.found Mrkdwn.inline t) : Escaped s := by
  obtain ⟨r, n, hsuffix, hmatch⟩ := Scan.mem_found h
  obtain ⟨u, rfl⟩ := prefix_of_inline hmatch
  obtain ⟨x, rfl, -⟩ := inline_spec hmatch
  exact ticked_escaped (ht.suffix hsuffix)

theorem placeholder_escaped (n : ℕ) : Escaped (placeholder n) :=
  .of_plain fun c hc => by
    have hinert := (block_placeholder n).inert c hc
    exact ⟨inert_ne hinert (by decide), inert_ne hinert (by decide), inert_ne hinert (by decide)⟩

theorem fenced_stop {c : Char} {t : Text} {l : ℕ} {a : Text} (h : fenced (c :: t) = some (l, a)) : Stop c := by
  unfold fenced at h
  split at h
  · next hstart =>
    obtain ⟨rfl, -⟩ := List.cons_prefix_cons.mp (List.isPrefixOf_iff_prefix.mp hstart)
    decide
  · exact nomatch h

theorem inline_stop {c : Char} {t : Text} {l : ℕ} {a : Text} (h : Mrkdwn.inline (c :: t) = some (l, a)) : Stop c := by
  obtain ⟨x, rfl, -⟩ := inline_spec h
  obtain ⟨rfl, -⟩ := List.cons_prefix_cons.mp (prefix_of_inline h)
  decide

theorem carve_escaped {m : Text → Option (ℕ × Text)} {transform : Text → Text} {s : Text × List Text}
    (hm : ∀ c t l a, m (c :: t) = some (l, a) → Stop c)
    (hfound : ∀ t, Escaped t → ∀ r ∈ Scan.found m t, Escaped (transform r)) (ht : Escaped s.1)
    (hstore : ∀ r ∈ s.2, Escaped r) :
    Escaped (carve m transform s).1 ∧ ∀ r ∈ (carve m transform s).2, Escaped r := by
  refine ⟨?_, fun r hr => ?_⟩
  · exact @Holes.carvedFrom_keeps _ placeholder m Stop Escaped escaped_cuts placeholder_escaped hm 0 s.2.length [] s.1
      (Or.inl ⟨rfl, ht⟩)
  · rcases List.mem_append.mp hr with hr | hr
    · exact hstore r hr
    · obtain ⟨u, hu, rfl⟩ := List.mem_map.mp hr
      exact hfound s.1 ht u hu

/-- the escaped text with its code cut out, and the code -/
def cutOut (raw : Text) : Text × List Text :=
  carve Mrkdwn.inline id (carve fenced stripFenceLang (escapeMrkdwn raw, []))

theorem cutOut_escaped (raw : Text) : Escaped (cutOut raw).1 ∧ ∀ s ∈ (cutOut raw).2, Escaped s := by
  obtain ⟨htext, hstore⟩ := carve_escaped (s := (escapeMrkdwn raw, [])) (fun _ _ _ _ => fenced_stop)
    (fun _ ht _ hr => found_fenced_escaped ht hr) (escapeMrkdwn_escaped raw) fun _ hr => absurd hr List.not_mem_nil
  exact carve_escaped (fun _ _ _ _ => inline_stop) (fun _ ht _ hr => found_inline_escaped ht hr) htext hstore

/-! ## links -/

/-- what a link writes between `<` and `>` -/
def inner (e : Text × Text) : Text := if e.1.isEmpty then e.2 else e.2 ++ '|' :: e.1

theorem shownLink_eq (label target : Text) : shownLink label target = '<' :: (inner (label, target) ++ ['>']) := by
  unfold shownLink inner
  split
  · rfl
  · simp

/-- each link of an escaped text becomes a token -/
theorem links_mixed {pre t : Text} (h : Escaped (pre ++ t)) :
    Mixed ((Scan.found link t).map inner) (pre ++ Scan.sub linkMatch t) := by
  induction hn : t.length using Nat.strongRecOn generalizing pre t with
  | ind n ih =>
    subst hn
    cases t with
    | nil => exact .text h
    | cons c t =>
      cases he : link (c :: t) with
      | none =>
        have hnone : linkMatch (c :: t) = none := by
          unfold linkMatch
          rw [he]
          rfl
        rw [Scan.sub_none hnone, Scan.found_none he, List.append_cons]
        refine ih t.length (Nat.lt_succ_self _) ?_ rfl
        rwa [← List.append_cons]
      | some e =>
        obtain ⟨label, target, rest, heq, hlabel, hne, htarget, rfl⟩ := link_iff.mp he
        have hcut : c :: t = '[' :: (label ++ "](".toList ++ target ++ [')']) ++ rest := by
          rw [heq]
          simp
        have hlen : label.length + target.length + 4 = ('[' :: (label ++ "](".toList ++ target ++ [')'])).length := by
          simp
          omega
        have hspan : '[' :: (label ++ "](".toList ++ target ++ [')']) ≠ [] := List.cons_ne_nil _ _
        have hshort : rest.length < (c :: t).length := by
          rw [hcut, List.length_append]
          have := List.length_pos_iff.mpr hspan
          omega
        rw [hcut, hlen] at he
        have hmatch : linkMatch ('[' :: (label ++ "](".toList ++ target ++ [')']) ++ rest) =
            some (('[' :: (label ++ "](".toList ++ target ++ [')'])).length, shownLink label target) := by
          unfold linkMatch
          rw [he]
          rfl
        -- the parts of the link are escaped, for they end in front of a bracket
        have htail : Escaped (target ++ ')' :: rest) :=
          h.suffix ⟨pre ++ '[' :: (label ++ "](".toList), by rw [heq]; simp⟩
        have hfront : Escaped (label ++ ']' :: ("(".toList ++ (target ++ ')' :: rest))) :=
          h.suffix ⟨pre ++ ['['], by rw [heq]; simp⟩
        have hbar : Escaped ['|'] := .of_plain (by decide)
        have hword : Escaped (inner (label, target)) := by
          have ht := htail.before (by decide)
          unfold inner
          split
          · exact ht
          · exact ht.append (hbar.append (hfront.before (by decide)))
        have hpre : Escaped pre := by
          rw [heq] at h
          exact h.before (by decide)
        have hrest : Escaped ([] ++ rest) := htail.suffix ⟨target ++ [')'], by simp⟩
        have hmixed := ih rest.length hshort hrest rfl
        rw [hcut, Scan.sub_match hspan hmatch, Scan.found_match hspan he, shownLink_eq]
        have hshape : pre ++ ('<' :: (inner (label, target) ++ ['>']) ++ Scan.sub linkMatch rest) =
            pre ++ '<' :: (inner (label, target) ++ '>' :: Scan.sub linkMatch rest) := by simp
        rw [hshape]
        exact .token hpre hword.lower hword.upper hmixed

/-- code put back -/
def splice (store : List Text) (t : Text) : Text := Placeholders.spliced NUL number store t

theorem outer_placeholder {c : Char} (hc : ¬ inert c) (n : ℕ) : c ∉ placeholder n :=
  fun hm => hc ((block_placeholder n).inert c hm)

theorem splice_outer {c : Char} (hc : ¬ inert c) (store : List Text) (s t : Text) :
    splice store (s ++ c :: t) = splice store s ++ c :: splice store t :=
  Placeholders.splicedFrom_outer NUL number (outer_placeholder hc) store s t

section
variable {store : List Text}

theorem splice_notMem {c : Char} (hc : ∀ s ∈ store, c ∉ s) {t : Text} (ht : c ∉ t) :
    c ∉ splice store t := Placeholders.splicedFrom_keeps NUL number (Scan.cuts_notMem c) trivial hc ht

theorem splice_mixed (hstore : ∀ s ∈ store, Escaped s) {ws : List Text} {t : Text} (h : Mixed ws t) :
    Mixed (ws.map (splice store)) (splice store t) := by
  have hkeeps : ∀ {s}, Escaped s → Escaped (splice store s) := fun hs =>
    Placeholders.splicedFrom_keeps NUL number escaped_cuts (by decide) hstore hs
  induction h with
  | text hs => exact .text (hkeeps hs)
  | token hs hl hu _ ih =>
    rw [splice_outer (by decide), splice_outer (by decide)]
    exact .token (hkeeps hs) (splice_notMem (fun s hs => (hstore s hs).lower) hl)
      (splice_notMem (fun s hs => (hstore s hs).upper) hu) ih

end

/-- `_render_markdown` -/
def renderMarkdown (raw : Text) : Text := toMrkdwn (escapeMrkdwn raw)

/-- the text and the target of each link that is read in an answer, with their code put back -/
def readLinks (raw : Text) : List (Text × Text) :=
  (Scan.found link (emphasised (cutOut raw).1)).map fun e => (splice (cutOut raw).2 e.1, splice (cutOut raw).2 e.2)

/-- where Slack sends the reader of a token -/
def target (w : Text) : Text := w.takeWhile (· != '|')

theorem renderMarkdown_mixed (raw : Text) :
    ∃ ws, Mixed ws (renderMarkdown raw) ∧ ws.map target = (readLinks raw).map fun e => target e.2 := by
  obtain ⟨htext, hstore⟩ := cutOut_escaped raw
  have hlinks := @links_mixed [] (emphasised (cutOut raw).1) (emphasised_escaped htext)
  refine ⟨_, splice_mixed hstore hlinks, ?_⟩
  unfold readLinks
  rw [List.map_map, List.map_map, List.map_map]
  refine List.map_congr_left fun e _ => ?_
  show target (splice _ (inner e)) = target (splice _ e.2)
  unfold inner
  split
  · rfl
  · -- the bar ends the target, whatever code the text of the link holds
    have hbar : ∀ s t : Text, target (s ++ '|' :: t) = target s := by
      intro s t
      unfold target
      rw [List.takeWhile_append, List.takeWhile_cons_of_neg (by decide)]
      split
      · next hlen =>
        rw [List.append_nil, (List.takeWhile_prefix _).eq_of_length hlen]
      · rfl
    rw [splice_outer (by decide), hbar]

/-! ## rendering -/

def SECTION_TEXT_MAX : ℕ := 3000

def TRUNCATION_MARKER : Text := "\n\n_[…truncated to fit Slack's block limit]_".toList

def isLower (c : Char) : Bool := 'a' ≤ c && c ≤ 'z'

/-- `_PARTIAL_ENTITY_RE`: `$` is the end of the text or the line break at its end -/
def partialEntity (t : Text) : Option (ℕ × Text) :=
  let letters := (t.drop 1).takeWhile isLower
  let rest := (t.drop 1).dropWhile isLower
  if t.head? = some '&' && letters.length ≤ 3 && (rest.isEmpty || rest = ['\n']) then
    some (letters.length + 1, [])
  else none

def clampSectionText (text : Text) : Text :=
  if text.length ≤ SECTION_TEXT_MAX then text
  else Scan.sub partialEntity (text.take (SECTION_TEXT_MAX - TRUNCATION_MARKER.length)) ++ TRUNCATION_MARKER

inductive Block where
  | sectionText (text : Text)
  | contextText (text : Text)
  | divider
  | actions (label actionId value : Text)

/-- the texts a reader sees -/
def Block.texts : Block → List Text
  | .sectionText text => [text]
  | .contextText text => [text]
  | .divider => []
  | .actions label _ _ => [label]

/-- `_section` -/
def sectionBlock (text : Text) : Block := .sectionText (clampSectionText text)

/-- `_context` -/
def contextBlock (text : Text) : Block := .contextText (clampSectionText text)

def VERDICT_LINES : List (Text × Text) := [
  ("verified".toList, "_I could confirm everything above against the pages cited below._".toList),
  ("partial".toList, "_Heads up: one of the citations below couldn't be confirmed word-for-word against its ".toList ++
    "source page — treat this one with a little more caution. Everything else checked out._".toList)]

/-- a verdict without a line raises -/
def verdictLine (verdict : Text) : Option Text := VERDICT_LINES.lookup verdict

def refusal (reason : Text) : Text := "*I don't have that.* ".toList ++ reason

def SHOW_IT_HERE_LABEL : Text := "Show it here".toList
def SHOW_IT_HERE_ACTION_ID : Text := "slack_show_page".toList

def citationLinked (url title quote : Text) : Text :=
  "• <".toList ++ url ++ "|".toList ++ title ++ "> — \"".toList ++ quote ++ "\"".toList

def citationUnlinked (title quote : Text) : Text :=
  "• ".toList ++ title ++ " — \"".toList ++ quote ++ "\" _(not on the read site yet — Show it here)_".toList

structure Citation where
  path : Text
  quote : Text
  title : Text

structure Answer where
  refused : Bool
  reason : Text
  answerMarkdown : Text
  citations : List Citation
  verdict : Text

def Citation.titleText (c : Citation) : Text := escapeMrkdwn (if c.title.isEmpty then c.path else c.title)

section
variable (linkResolver : Text → Option Text) (mintToken : Text → Text → Text)

/-- no address and an empty one are both none -/
def urlOf (path : Text) : Text := (linkResolver path).getD []

def sourceLine (c : Citation) : Text :=
  if (urlOf linkResolver c.path).isEmpty then citationUnlinked c.titleText (escapeMrkdwn c.quote)
  else citationLinked (urlOf linkResolver c.path) c.titleText (escapeMrkdwn c.quote)

/-- `_show_it_here_button` -/
def showItHereButton (path asker : Text) : Block :=
  .actions SHOW_IT_HERE_LABEL SHOW_IT_HERE_ACTION_ID (mintToken path asker)

/-- the lines, the buttons and the paths that have a button -/
structure Sources where
  lines : List Text
  buttons : List Block
  buttonedPaths : List Text

/-- one turn of the loop of `_citation_blocks` -/
def citationStep (asker : Text) (s : Sources) (c : Citation) : Sources :=
  let lines := s.lines ++ [sourceLine linkResolver c]
  if (urlOf linkResolver c.path).isEmpty && !s.buttonedPaths.contains c.path then
    ⟨lines, s.buttons ++ [showItHereButton mintToken c.path asker], s.buttonedPaths ++ [c.path]⟩
  else { s with lines := lines }

def sourcesOf (asker : Text) (citations : List Citation) : Sources :=
  citations.foldl (citationStep linkResolver mintToken asker) ⟨[], [], []⟩

def sourcesText (lines : List Text) : Text := "*Sources*\n".toList ++ Text.unlines lines

def citationBlocks (asker : Text) (citations : List Citation) : List Block :=
  if citations.isEmpty then []
  else
    let s := sourcesOf linkResolver mintToken asker citations
    contextBlock (sourcesText s.lines) :: s.buttons

def renderAnswer (asker : Text) (answer : Answer) : Option (List Block) :=
  if answer.refused then some [sectionBlock (refusal (escapeMrkdwn answer.reason))]
  else (verdictLine answer.verdict).map fun line =>
    [sectionBlock (renderMarkdown answer.answerMarkdown), .divider] ++
      citationBlocks linkResolver mintToken asker answer.citations ++ [contextBlock line]

/-- `degraded_sources_line` -/
def degradedSourcesLine (titles : List Text) : Text := "Sources: ".toList ++ ", ".toList.intercalate titles

/-- `_answer_fallback_text` -/
def answerFallbackText (answer : Answer) : Text :=
  if answer.refused then "I don't have that.".toList
  else if answer.citations.isEmpty then renderMarkdown answer.answerMarkdown
  else renderMarkdown answer.answerMarkdown ++ "\n\n".toList ++
    degradedSourcesLine (firsts (answer.citations.map Citation.titleText))

end

/-- `no_link_resolver` -/
def noLinkResolver (_path : Text) : Option Text := none

/-! ## cuts -/

theorem length_marker : TRUNCATION_MARKER.length ≤ SECTION_TEXT_MAX := by decide

theorem marker_escaped : Escaped TRUNCATION_MARKER := .of_plain (by decide)

theorem partialEntity_none {t : Text} {c : Char} (hc : c ∈ t) (hamp : c ≠ '&') (hlower : isLower c = false)
    (hbreak : c ≠ '\n') : partialEntity t = none := by
  unfold partialEntity
  dsimp only
  rw [if_neg]
  rw [Bool.and_eq_true, Bool.and_eq_true, decide_eq_true_eq, Bool.or_eq_true, List.isEmpty_iff]
  rintro ⟨⟨hhead, -⟩, hrest⟩
  obtain ⟨u, rfl⟩ := List.head?_eq_some_iff.mp hhead
  have hu : c ∈ u := (List.mem_cons.mp hc).resolve_left hamp
  have hcut : c ∈ u.takeWhile isLower ++ u.dropWhile isLower := by
    rw [List.takeWhile_append_dropWhile]
    exact hu
  rcases List.mem_append.mp hcut with hcut | hcut
  · have hyes := List.mem_takeWhile_imp hcut
    rw [hlower] at hyes
    exact nomatch hyes
  · rcases hrest with hrest | hrest
    · rw [show u.dropWhile isLower = [] from hrest] at hcut
      exact absurd hcut List.not_mem_nil
    · rw [show u.dropWhile isLower = ['\n'] from of_decide_eq_true hrest] at hcut
      exact hbreak (List.mem_singleton.mp hcut)

theorem partialEntity_of_ne {t : Text} (h : t.head? ≠ some '&') : partialEntity t = none := by
  unfold partialEntity
  simp [h]

theorem sub_half {p : Text} (h : p = [] ∨ Half p) : Scan.sub partialEntity p = [] := by
  rcases h with rfl | ⟨e, he, u, v, rfl, hv, rfl⟩
  · rfl
  · have hall : ∀ e ∈ tails, ∀ k < e.length, Scan.sub partialEntity ('&' :: e.take k) = [] := by decide
    have hcut := hall (u ++ v) he u.length (by
      rw [List.length_append]
      have := List.length_pos_iff.mpr hv
      omega)
    rwa [List.take_left] at hcut

/-- part of an entity is dropped, and nothing else -/
theorem sub_partialEntity {us : List Text} {r p : Text} (h : Mixed us r) (hp : p = [] ∨ Half p) :
    Scan.sub partialEntity (r ++ p) = r := by
  rw [Scan.sub_gap fun s hs hne => ?_, sub_half hp, List.append_nil]
  obtain ⟨c, s, rfl⟩ := List.exists_cons_of_ne_nil hne
  by_cases hu : '>' ∈ c :: s
  · exact partialEntity_none (List.mem_append_left p hu) (by decide) (by decide) (by decide)
  · by_cases hc : c = '&'
    · subst hc
      obtain ⟨e, he, hfront⟩ := (h.suffix hs hu).entity s List.suffix_rfl
      have hend : ∀ e ∈ tails, ';' ∈ e := by decide
      have hmem : ';' ∈ '&' :: s := List.mem_cons_of_mem '&' (hfront.subset (hend e he))
      exact partialEntity_none (List.mem_append_left p hmem) (by decide) (by decide) (by decide)
    · exact partialEntity_of_ne fun heq => hc (Option.some.inj heq)

theorem sub_partialEntity_open {t : Text} (h : openFrom false t = true) :
    openFrom false (Scan.sub partialEntity t) = true := by
  obtain ⟨u, v, rfl, hv⟩ := openFrom_iff.mp h
  have hcut : Scan.sub partialEntity (u ++ ['<'] ++ v) = u ++ ['<'] ++ Scan.sub partialEntity v := by
    refine Scan.sub_gap fun s hs hne => ?_
    obtain ⟨w, hw⟩ := hs
    have hlast : '<' ∈ s := by
      have hl : (w ++ s).getLast? = some '<' := by rw [hw, List.getLast?_concat]
      rw [List.getLast?_append_of_ne_nil _ hne] at hl
      exact List.mem_of_getLast? hl
    exact partialEntity_none (List.mem_append_left v hlast) (by decide) (by decide) (by decide)
  have hshape : u ++ '<' :: v = u ++ ['<'] ++ v := by simp
  rw [hshape, hcut, List.append_assoc]
  refine openFrom_iff.mpr ⟨u, _, rfl, fun hm => hv ?_⟩
  refine (Scan.sub_sublist (fun t n w hw => ?_) v).subset hm
  unfold partialEntity at hw
  dsimp only at hw
  split at hw
  · exact (Prod.mk.inj (Option.some.inj hw)).2.symm
  · exact nomatch hw

/-- a text that is longer than a block, and cut between `<` and `>` -/
def CutInToken (text : Text) : Prop :=
  SECTION_TEXT_MAX < text.length ∧ openFrom false (text.take (SECTION_TEXT_MAX - TRUNCATION_MARKER.length)) = true

instance (text : Text) : Decidable (CutInToken text) := inferInstanceAs (Decidable (_ ∧ _))

theorem length_clamp (text : Text) : (clampSectionText text).length ≤ SECTION_TEXT_MAX := by
  unfold clampSectionText
  split
  · assumption
  · have hsub := (Scan.sub_sublist (m := partialEntity) (fun t n v hv => ?_)
      (text.take (SECTION_TEXT_MAX - TRUNCATION_MARKER.length))).length_le
    · have htake := List.length_take_le (SECTION_TEXT_MAX - TRUNCATION_MARKER.length) text
      have hmarker := length_marker
      rw [List.length_append]
      omega
    · unfold partialEntity at hv
      dsimp only at hv
      split at hv
      · exact (Prod.mk.inj (Option.some.inj hv)).2.symm
      · exact nomatch hv

theorem not_cut_of_escaped {text : Text} (h : Escaped text) : ¬ CutInToken text := by
  rintro ⟨-, hopen⟩
  have hsub := List.take_subset (SECTION_TEXT_MAX - TRUNCATION_MARKER.length) text
  rw [openFrom_of_notMem (fun hm => h.lower (hsub hm)) (fun hm => h.upper (hsub hm))] at hopen
  exact nomatch hopen

/-- a cut inside a token leaves the token open -/
theorem clamp_open {text : Text} (h : CutInToken text) : openFrom false (clampSectionText text) = true := by
  obtain ⟨hlong, hopen⟩ := h
  unfold clampSectionText
  rw [if_neg (Nat.not_le_of_lt hlong), openFrom_append, sub_partialEntity_open hopen]
  exact openFrom_true marker_escaped.upper

/-- a cut anywhere else leaves escaped text with fewer tokens -/
theorem clamp_clear {good : Text → Prop} {text : Text} (h : Clear good text) (hcut : ¬ CutInToken text) :
    Clear good (clampSectionText text) := by
  obtain ⟨ws, hmixed, hgood⟩ := h
  unfold clampSectionText
  split
  · exact ⟨ws, hmixed, hgood⟩
  · next hlong =>
    rcases hmixed.take (SECTION_TEXT_MAX - TRUNCATION_MARKER.length) with hopen | ⟨us, r, p, hus, htake, hr, hp⟩
    · exact absurd ⟨Nat.lt_of_not_le hlong, hopen⟩ hcut
    · rw [htake, sub_partialEntity hr hp]
      exact ⟨us, hr.append_text marker_escaped, fun w hw => hgood w (hus.subset hw)⟩

/-! ## what a text says -/

/-- `<!…>`, `<@…>` and `<#…>` -/
def control (w : Text) : Bool := w.head?.any fun c => c == '!' || c == '@' || c == '#'

def schemes : List Text := ["http://".toList, "https://".toList, "mailto:".toList]

/-- a web or mail address -/
def isUrl (t : Text) : Bool :=
  schemes.any (fun p => Text.startsWith p (t.map Char.toLower)) &&
    t.all fun c => !Text.isSpace c && c != '<' && c != '>' && c != '|'

/-- a Markdown link of the text goes to it -/
def Links (raw address : Text) : Prop := ∃ label, '[' :: (label ++ "](".toList ++ (address ++ [')'])) <:+: raw

/-- an address, as it is written in a token, that a link of the answer or the link resolver names -/
def Named (linkResolver : Text → Option Text) (raw address : Text) : Prop :=
  (∃ t, Links raw t ∧ escapeMrkdwn t = address) ∨ ∃ path, linkResolver path = some address

/-- a token is a link to a named web or mail address -/
structure Speaks (linkResolver : Text → Option Text) (raw w : Text) : Prop where
  url : isUrl (target w) = true
  named : Named linkResolver raw (target w)
  control : control w = false

/-- part of an entity at the end, or in front of the note that the text is cut -/
def EndsInEntity (text : Text) : Prop := ∃ r p, (text = r ∨ text = r ++ TRUNCATION_MARKER) ∧ p <:+ r ∧ Half p

/-- what Slack takes for the text of a block -/
structure Fits (text : Text) : Prop where
  length : text.length ≤ SECTION_TEXT_MAX
  closed : openFrom false text = false
  entity : ¬ EndsInEntity text

/-- every token of every text is a link to a named address, and every text of a block fits -/
def Spoken (linkResolver : Text → Option Text) (mintToken : Text → Text → Text) (asker : Text) (answer : Answer) :
    Prop :=
  (∀ blocks, renderAnswer linkResolver mintToken asker answer = some blocks → ∀ b ∈ blocks, ∀ text ∈ b.texts,
      (∀ w ∈ tokens text, Speaks linkResolver answer.answerMarkdown w) ∧ Fits text) ∧
    ∀ w ∈ tokens (answerFallbackText answer), Speaks linkResolver answer.answerMarkdown w

theorem control_of_url {w : Text} (h : isUrl (target w) = true) : control w = false := by
  cases w with
  | nil => rfl
  | cons c w =>
    refine Bool.eq_false_iff.mpr fun hcontrol => ?_
    have hc : c ∈ "!@#".toList := by
      have hor : (c = '!' ∨ c = '@') ∨ c = '#' := by
        rwa [control, List.head?_cons, Option.any_some, Bool.or_eq_true, Bool.or_eq_true, beq_iff_eq, beq_iff_eq,
          beq_iff_eq] at hcontrol
      rcases hor with (rfl | rfl) | rfl <;> decide
    have hbar : ∀ c ∈ "!@#".toList, (c != '|') = true := by decide
    have hfirst : target (c :: w) = c :: target w := List.takeWhile_cons_of_pos (hbar c hc)
    rw [hfirst, isUrl, Bool.and_eq_true, List.any_eq_true] at h
    obtain ⟨⟨p, hp, hstart⟩, -⟩ := h
    have hheads : ∀ c ∈ "!@#".toList, ∀ p ∈ schemes, p.head? ≠ some c.toLower ∧ p ≠ [] := by decide
    obtain ⟨hhead, hne⟩ := hheads c hc p hp
    obtain ⟨d, u, rfl⟩ := List.exists_cons_of_ne_nil hne
    obtain ⟨rfl, -⟩ := List.cons_prefix_cons.mp (List.isPrefixOf_iff_prefix.mp hstart)
    exact hhead rfl

theorem Mixed.not_endsInEntity {ws : List Text} {text : Text} (h : Mixed ws text) : ¬ EndsInEntity text := by
  rintro ⟨r, p, htext, hp, hhalf⟩
  have hplain : '>' ∉ p := by
    obtain ⟨e, he, u, v, rfl, -, rfl⟩ := hhalf
    intro hm
    rcases List.mem_cons.mp hm with hm | hm
    · exact absurd hm (by decide)
    · exact (tails_plain he (List.mem_append_left v hm)).2.2 rfl
  rcases htext with rfl | rfl
  · have hend : Escaped (p ++ []) := by
      rw [List.append_nil]
      exact h.suffix hp hplain
    exact hend.not_half (fun c hc => absurd hc (Option.some_ne_none c).symm) hhalf
  · obtain ⟨u, rfl⟩ := hp
    have hend : Escaped (p ++ TRUNCATION_MARKER) := by
      refine h.suffix ⟨u, (List.append_assoc _ _ _).symm⟩ fun hm => ?_
      exact (List.mem_append.mp hm).elim hplain marker_escaped.upper
    refine hend.not_half (fun c hc => ?_) hhalf
    obtain rfl := Option.some.inj hc
    decide

/-! ## the blocks -/

/-- a link to a named address, as it is written between `<` and `>` -/
def Good (linkResolver : Text → Option Text) (raw w : Text) : Prop :=
  isUrl (target w) = true ∧ Named linkResolver raw (target w)

theorem Good.speaks {linkResolver : Text → Option Text} {raw w : Text} (h : Good linkResolver raw w) :
    Speaks linkResolver raw w := ⟨h.1, h.2, control_of_url h.1⟩

/-- no character of a literal is escaped -/
theorem plain_toList {l : List Char} (h : (l.all fun c => c != '&' && c != '<' && c != '>') = true) :
    ∀ c ∈ (String.ofList l).toList, c ≠ '&' ∧ c ≠ '<' ∧ c ≠ '>' := by
  intro c hc
  rw [String.toList_ofList] at hc
  have hchar := List.all_eq_true.mp h c hc
  rw [Bool.and_eq_true, Bool.and_eq_true, bne_iff_ne, bne_iff_ne, bne_iff_ne] at hchar
  exact ⟨hchar.1.1, hchar.1.2, hchar.2⟩

theorem plain_verdictLines : ∀ e ∈ VERDICT_LINES, ∀ c ∈ e.2, c ≠ '&' ∧ c ≠ '<' ∧ c ≠ '>' := by
  intro e he
  rcases List.mem_cons.mp he with rfl | he
  · exact plain_toList (by decide +kernel)
  · rw [List.mem_singleton.mp he]
    intro c hc
    rcases List.mem_append.mp hc with hc | hc
    · exact plain_toList (by decide +kernel) c hc
    · exact plain_toList (by decide +kernel) c hc

theorem verdictLine_clear {verdict line : Text} (h : verdictLine verdict = some line) (good : Text → Prop) :
    Clear good line ∧ ¬ CutInToken line := by
  obtain ⟨l₁, l₂, hsplit, -⟩ := List.lookup_eq_some_iff.mp h
  have hline : Escaped line := .of_plain
    (plain_verdictLines (verdict, line) (by rw [hsplit]; exact List.mem_append_right l₁ List.mem_cons_self))
  exact ⟨.text hline, not_cut_of_escaped hline⟩

section
variable {linkResolver : Text → Option Text} {mintToken : Text → Text → Text} {asker : Text} {raw : Text}

theorem Clear.speaks {text : Text} (h : Clear (Good linkResolver raw) text) :
    ∀ w ∈ tokens text, Speaks linkResolver raw w := by
  obtain ⟨ws, hmixed, hgood⟩ := h
  rw [hmixed.tokens_eq]
  exact fun w hw => Good.speaks (hgood w hw)

/-- a block of a text that is not cut inside a token -/
theorem clamp_spec {text : Text} (h : Clear (Good linkResolver raw) text) (hcut : ¬ CutInToken text) :
    (∀ w ∈ tokens (clampSectionText text), Speaks linkResolver raw w) ∧ Fits (clampSectionText text) := by
  obtain ⟨ws, hmixed, hgood⟩ := clamp_clear h hcut
  exact ⟨Clear.speaks ⟨ws, hmixed, hgood⟩, length_clamp text, hmixed.closed, Mixed.not_endsInEntity hmixed⟩

theorem titleText_escaped (c : Citation) : Escaped c.titleText := escapeMrkdwn_escaped _

theorem sourceLine_clear (hurl : ∀ path url, linkResolver path = some url → url = [] ∨ isUrl url = true)
    (c : Citation) : Clear (Good linkResolver raw) (sourceLine linkResolver c) := by
  have htitle := titleText_escaped c
  have hquote := escapeMrkdwn_escaped c.quote
  unfold sourceLine
  split
  · refine .text ?_
    have hfirst : Escaped "• ".toList := .of_plain (by decide)
    have hmid : Escaped " — \"".toList := .of_plain (by decide)
    have hlast : Escaped "\" _(not on the read site yet — Show it here)_".toList := .of_plain (by decide)
    exact (((hfirst.append htitle).append hmid).append hquote).append hlast
  · next hne =>
    obtain ⟨url, hres, hval⟩ : ∃ url, linkResolver c.path = some url ∧ urlOf linkResolver c.path = url := by
      unfold urlOf at hne ⊢
      cases hres : linkResolver c.path with
      | none =>
        rw [hres] at hne
        exact absurd rfl hne
      | some url => exact ⟨url, rfl, rfl⟩
    rw [hval] at hne ⊢
    have haddress : isUrl url = true := (hurl _ _ hres).resolve_left fun hnil => hne (by rw [hnil]; rfl)
    have hplain : ∀ d ∈ url, d ≠ '<' ∧ d ≠ '>' ∧ (d != '|') = true := by
      intro d hd
      unfold isUrl at haddress
      rw [Bool.and_eq_true, List.all_eq_true] at haddress
      have hd := haddress.2 d hd
      rw [Bool.and_eq_true, Bool.and_eq_true, Bool.and_eq_true, bne_iff_ne, bne_iff_ne] at hd
      exact ⟨hd.1.1.2, hd.1.2, hd.2⟩
    have htarget : target (url ++ '|' :: c.titleText) = url := by
      unfold target
      rw [List.takeWhile_append_of_pos fun d hd => (hplain d hd).2.2]
      exact List.append_nil url
    have hfirst : Escaped "• ".toList := .of_plain (by decide)
    have hmid : Escaped " — \"".toList := .of_plain (by decide)
    have hlast : Escaped "\"".toList := .of_plain (by decide)
    have hshape : citationLinked url c.titleText (escapeMrkdwn c.quote) =
        "• ".toList ++ '<' :: ((url ++ '|' :: c.titleText) ++ '>' :: (" — \"".toList ++ escapeMrkdwn c.quote ++
          "\"".toList)) := by
      unfold citationLinked
      simp
    rw [hshape]
    refine ⟨[url ++ '|' :: c.titleText], .token hfirst (fun hm => ?_) (fun hm => ?_)
      (.text ((hmid.append hquote).append hlast)), fun w hw => ?_⟩
    · rcases List.mem_append.mp hm with hm | hm
      · exact (hplain _ hm).1 rfl
      · exact (List.mem_cons.mp hm).elim (by decide) htitle.lower
    · rcases List.mem_append.mp hm with hm | hm
      · exact (hplain _ hm).2.1 rfl
      · exact (List.mem_cons.mp hm).elim (by decide) htitle.upper
    · obtain rfl := List.mem_singleton.mp hw
      unfold Good
      rw [htarget]
      exact ⟨haddress, Or.inr ⟨_, hres⟩⟩

theorem foldl_citationStep (citations : List Citation) (s : Sources) :
    (citations.foldl (citationStep linkResolver mintToken asker) s).lines =
        s.lines ++ citations.map (sourceLine linkResolver) ∧
      ∀ b ∈ (citations.foldl (citationStep linkResolver mintToken asker) s).buttons,
        b ∈ s.buttons ∨ ∃ path, b = showItHereButton mintToken path asker := by
  induction citations generalizing s with
  | nil => exact ⟨(List.append_nil _).symm, fun b hb => Or.inl hb⟩
  | cons c citations ih =>
    obtain ⟨hlines, hbuttons⟩ := ih (citationStep linkResolver mintToken asker s c)
    have hstep : (citationStep linkResolver mintToken asker s c).lines = s.lines ++ [sourceLine linkResolver c] ∧
        ∀ b ∈ (citationStep linkResolver mintToken asker s c).buttons,
          b ∈ s.buttons ∨ ∃ path, b = showItHereButton mintToken path asker := by
      unfold citationStep
      dsimp only
      split
      · refine ⟨rfl, fun b hb => ?_⟩
        rcases List.mem_append.mp hb with hb | hb
        · exact Or.inl hb
        · exact Or.inr ⟨c.path, List.mem_singleton.mp hb⟩
      · exact ⟨rfl, fun b hb => Or.inl hb⟩
    rw [List.foldl_cons]
    refine ⟨?_, fun b hb => ?_⟩
    · rw [hlines, hstep.1, List.append_assoc, List.map_cons]
      rfl
    · rcases hbuttons b hb with hb | hb
      · exact hstep.2 b hb
      · exact Or.inr hb

theorem sourcesOf_spec (citations : List Citation) :
    (sourcesOf linkResolver mintToken asker citations).lines = citations.map (sourceLine linkResolver) ∧
      ∀ b ∈ (sourcesOf linkResolver mintToken asker citations).buttons,
        ∃ path, b = showItHereButton mintToken path asker := by
  obtain ⟨hlines, hbuttons⟩ := @foldl_citationStep linkResolver mintToken asker citations ⟨[], [], []⟩
  exact ⟨hlines, fun b hb => (hbuttons b hb).resolve_left List.not_mem_nil⟩

theorem sourcesText_clear (hurl : ∀ path url, linkResolver path = some url → url = [] ∨ isUrl url = true)
    (citations : List Citation) :
    Clear (Good linkResolver raw) (sourcesText (citations.map (sourceLine linkResolver))) := by
  have hhead : Escaped "*Sources*\n".toList := .of_plain (by decide)
  refine (Clear.text hhead).append (Clear.unlines fun l hl => ?_)
  obtain ⟨c, -, rfl⟩ := List.mem_map.mp hl
  exact sourceLine_clear hurl c

end

theorem clear_plain {good : Text → Prop} {text : Text} (h : ∀ c ∈ text, c ≠ '&' ∧ c ≠ '<' ∧ c ≠ '>') :
    Clear good text := .text (.of_plain h)

/-- the answer's text is clear exactly when its links are good -/
theorem renderMarkdown_clear_iff {linkResolver : Text → Option Text} {raw : Text} :
    Clear (Good linkResolver raw) (renderMarkdown raw) ↔ ∀ e ∈ readLinks raw,
      isUrl (target e.2) = true ∧ Named linkResolver raw (target e.2) := by
  obtain ⟨ws, hmixed, htargets⟩ := renderMarkdown_mixed raw
  constructor
  · rintro ⟨vs, hvs, hgood⟩ e he
    have hmem : target e.2 ∈ ws.map target := by
      rw [htargets]
      exact List.mem_map_of_mem he
    obtain ⟨w, hw, heq⟩ := List.mem_map.mp hmem
    rw [← hmixed.tokens_eq, hvs.tokens_eq] at hw
    rw [← heq]
    exact hgood w hw
  · intro hall
    refine ⟨ws, hmixed, fun w hw => ?_⟩
    have hmem : target w ∈ (readLinks raw).map fun e => target e.2 := by
      rw [← htargets]
      exact List.mem_map_of_mem hw
    obtain ⟨e, he, heq⟩ := List.mem_map.mp hmem
    unfold Good
    rw [← heq]
    exact hall e he

/-- the text that stands in for the blocks has the tokens of the answer's text -/
theorem tokens_fallback {answer : Answer} (h : answer.refused = false) :
    tokens (answerFallbackText answer) = tokens (renderMarkdown answer.answerMarkdown) ∧
      ∀ {good}, Clear good (renderMarkdown answer.answerMarkdown) → Clear good (answerFallbackText answer) := by
  obtain ⟨ws, hmixed, -⟩ := renderMarkdown_mixed answer.answerMarkdown
  unfold answerFallbackText
  rw [if_neg (Bool.eq_false_iff.mp h)]
  split
  · exact ⟨rfl, id⟩
  · have htitles : ∀ titles : List Text, (∀ t ∈ titles, Escaped t) → Escaped (", ".toList.intercalate titles) := by
      intro titles ht
      induction titles with
      | nil => exact escaped_nil
      | cons t titles ih =>
        have ih := ih fun u hu => ht u (List.mem_cons_of_mem t hu)
        have hcomma : Escaped ", ".toList := .of_plain (by decide)
        cases titles with
        | nil =>
          rw [List.intercalate_singleton]
          exact ht t List.mem_cons_self
        | cons u titles =>
          rw [List.intercalate_cons_cons]
          exact ((ht t List.mem_cons_self).append hcomma).append ih
    have hsources : Escaped (degradedSourcesLine (firsts (answer.citations.map Citation.titleText))) := by
      have hhead : Escaped "Sources: ".toList := .of_plain (by decide)
      refine hhead.append (htitles _ fun t ht => ?_)
      obtain ⟨c, -, rfl⟩ := List.mem_map.mp (mem_firsts.mp ht)
      exact titleText_escaped c
    have hbreak : Escaped "\n\n".toList := .of_plain (by decide)
    have hall := (hmixed.append_text hbreak).append_text hsources
    refine ⟨by rw [hall.tokens_eq, hmixed.tokens_eq], fun hclear => ?_⟩
    exact (hclear.append (.text hbreak)).append (.text hsources)

section
variable {linkResolver : Text → Option Text} {mintToken : Text → Text → Text} {asker : Text} {answer : Answer}

theorem renderAnswer_eq (h : answer.refused = false) :
    renderAnswer linkResolver mintToken asker answer = (verdictLine answer.verdict).map fun line =>
      [sectionBlock (renderMarkdown answer.answerMarkdown), .divider] ++
        citationBlocks linkResolver mintToken asker answer.citations ++ [contextBlock line] :=
  if_neg (Bool.eq_false_iff.mp h)

theorem spoken_refused (h : answer.refused = true) : Spoken linkResolver mintToken asker answer := by
  have hblocks : renderAnswer linkResolver mintToken asker answer =
      some [sectionBlock (refusal (escapeMrkdwn answer.reason))] := if_pos h
  have hfallback : answerFallbackText answer = "I don't have that.".toList := if_pos h
  refine ⟨fun blocks heq b hb text htext => ?_, ?_⟩
  · rw [hblocks] at heq
    obtain rfl := Option.some.inj heq
    obtain rfl := List.mem_singleton.mp hb
    obtain rfl := List.mem_singleton.mp htext
    have hhead : Escaped "*I don't have that.* ".toList := .of_plain (by decide)
    have hall : Escaped (refusal (escapeMrkdwn answer.reason)) := hhead.append (escapeMrkdwn_escaped _)
    exact clamp_spec (.text hall) (not_cut_of_escaped hall)
  · rw [hfallback]
    exact Clear.speaks (clear_plain (by decide))

/-- the texts of the source blocks -/
theorem citationBlocks_texts {P : Text → Prop} :
    (∀ b ∈ citationBlocks linkResolver mintToken asker answer.citations, ∀ text ∈ b.texts, P text) ↔
      (answer.citations ≠ [] → P (clampSectionText (sourcesText (answer.citations.map (sourceLine linkResolver)))) ∧
        ∀ b ∈ (sourcesOf linkResolver mintToken asker answer.citations).buttons, ∀ text ∈ b.texts, P text) := by
  obtain ⟨hlines, -⟩ := @sourcesOf_spec linkResolver mintToken asker answer.citations
  unfold citationBlocks
  split
  · next hnil => simp [List.isEmpty_iff.mp hnil]
  · next hne =>
    have hne : answer.citations ≠ [] := fun h => hne (List.isEmpty_iff.mpr h)
    dsimp only
    rw [hlines, List.forall_mem_cons]
    refine ⟨fun h _ => ⟨h.1 _ List.mem_cons_self, h.2⟩, fun h => ⟨fun text htext => ?_, (h hne).2⟩⟩
    obtain rfl := List.mem_singleton.mp htext
    exact (h hne).1

/-- the text of a button -/
theorem button_spec (raw path : Text) : ∀ text ∈ (showItHereButton mintToken path asker).texts,
    (∀ w ∈ tokens text, Speaks linkResolver raw w) ∧ Fits text := by
  intro text htext
  obtain rfl := List.mem_singleton.mp htext
  have hplain : Escaped SHOW_IT_HERE_LABEL := .of_plain (by decide)
  have hsame : clampSectionText SHOW_IT_HERE_LABEL = SHOW_IT_HERE_LABEL := if_pos (by decide)
  rw [← hsame]
  exact clamp_spec (.text hplain) (not_cut_of_escaped hplain)

theorem spoken_of_links (hurl : ∀ path url, linkResolver path = some url → url = [] ∨ isUrl url = true)
    (hrefused : answer.refused = false)
    (hlinks : Clear (Good linkResolver answer.answerMarkdown) (renderMarkdown answer.answerMarkdown))
    (hcuts : (verdictLine answer.verdict).isSome = true → ¬ CutInToken (renderMarkdown answer.answerMarkdown) ∧
      (answer.citations ≠ [] → ¬ CutInToken (sourcesText (answer.citations.map (sourceLine linkResolver))))) :
    Spoken linkResolver mintToken asker answer := by
  refine ⟨fun blocks heq => ?_, Clear.speaks ((tokens_fallback hrefused).2 hlinks)⟩
  rw [renderAnswer_eq hrefused] at heq
  obtain ⟨line, hline, rfl⟩ := Option.map_eq_some_iff.mp heq
  obtain ⟨hbody, hsources⟩ := hcuts (by rw [hline]; rfl)
  obtain ⟨hclear, hcut⟩ := verdictLine_clear hline (Good linkResolver answer.answerMarkdown)
  intro b hb
  rcases List.mem_append.mp hb with hb | hb
  · rcases List.mem_append.mp hb with hb | hb
    · rcases List.mem_cons.mp hb with rfl | hb
      · intro text htext
        obtain rfl := List.mem_singleton.mp htext
        exact clamp_spec hlinks hbody
      · obtain rfl := List.mem_singleton.mp hb
        exact fun _ htext => absurd htext List.not_mem_nil
    · refine citationBlocks_texts.mpr (fun hne => ⟨clamp_spec (sourcesText_clear hurl _) (hsources hne), ?_⟩) b hb
      intro b hb
      obtain ⟨path, rfl⟩ := (@sourcesOf_spec linkResolver mintToken asker answer.citations).2 b hb
      exact button_spec answer.answerMarkdown path
  · obtain rfl := List.mem_singleton.mp hb
    intro text htext
    obtain rfl := List.mem_singleton.mp htext
    exact clamp_spec hclear hcut

theorem clear_of_spoken (hrefused : answer.refused = false) (h : Spoken linkResolver mintToken asker answer) :
    Clear (Good linkResolver answer.answerMarkdown) (renderMarkdown answer.answerMarkdown) := by
  obtain ⟨ws, hmixed, -⟩ := renderMarkdown_mixed answer.answerMarkdown
  refine ⟨ws, hmixed, fun w hw => ?_⟩
  have hspeaks := h.2 w (by rw [(tokens_fallback hrefused).1, hmixed.tokens_eq]; exact hw)
  exact ⟨hspeaks.url, hspeaks.named⟩

theorem not_cut_of_fits {text : Text} (h : Fits (clampSectionText text)) : ¬ CutInToken text := by
  intro hcut
  have hopen := clamp_open hcut
  rw [h.closed] at hopen
  exact nomatch hopen

theorem not_cut_of_spoken (hrefused : answer.refused = false) (h : Spoken linkResolver mintToken asker answer)
    (hverdict : (verdictLine answer.verdict).isSome = true) :
    ¬ CutInToken (renderMarkdown answer.answerMarkdown) ∧
      (answer.citations ≠ [] → ¬ CutInToken (sourcesText (answer.citations.map (sourceLine linkResolver)))) := by
  obtain ⟨line, hline⟩ := Option.isSome_iff_exists.mp hverdict
  have hall := h.1 _ (by rw [renderAnswer_eq hrefused, hline]; rfl)
  rw [List.forall_mem_append, List.forall_mem_append] at hall
  refine ⟨not_cut_of_fits (hall.1.1 _ List.mem_cons_self _ List.mem_cons_self).2, fun hne => ?_⟩
  exact not_cut_of_fits (citationBlocks_texts.mp hall.1.2 hne).1.2

end

/-- an answer says no more than its links exactly when every link that is read in it goes to a named web or mail
address and neither its text nor its sources are cut inside a link -/
theorem spoken_iff (linkResolver : Text → Option Text)
    (hurl : ∀ path url, linkResolver path = some url → url = [] ∨ isUrl url = true)
    (mintToken : Text → Text → Text) (asker : Text) (answer : Answer) :
    Spoken linkResolver mintToken asker answer ↔ answer.refused = true ∨
      (∀ e ∈ readLinks answer.answerMarkdown,
          isUrl (target e.2) = true ∧ Named linkResolver answer.answerMarkdown (target e.2)) ∧
        ((verdictLine answer.verdict).isSome = true → ¬ CutInToken (renderMarkdown answer.answerMarkdown) ∧
          (answer.citations ≠ [] →
            ¬ CutInToken (sourcesText (answer.citations.map (sourceLine linkResolver))))) := by
  rw [← renderMarkdown_clear_iff]
  constructor
  · intro h
    cases hrefused : answer.refused with
    | true => exact Or.inl rfl
    | false => exact Or.inr ⟨clear_of_spoken hrefused h, not_cut_of_spoken hrefused h⟩
  · intro h
    cases hrefused : answer.refused with
    | true => exact spoken_refused hrefused
    | false =>
      obtain ⟨hlinks, hcuts⟩ := h.resolve_left fun hyes => by
        rw [hrefused] at hyes
        exact nomatch hyes
      exact spoken_of_links hurl hrefused hlinks hcuts

def siteAnswer : Answer :=
  ⟨false, [], "# See\n[`the` site](https://a.example/?q=1&r=2)".toList, [⟨"a.md".toList, "q < r".toList, []⟩],
    "verified".toList⟩

theorem spoken_iff_site : Spoken noLinkResolver (fun path _ => path) "U1".toList siteAnswer := by
  refine (spoken_iff noLinkResolver (fun _ _ h => absurd h (Option.some_ne_none _).symm) _ _ _).mpr
    (Or.inr ⟨fun e he => ?_, fun _ => ⟨by decide +kernel, fun _ => by decide +kernel⟩⟩)
  have hlinks : readLinks siteAnswer.answerMarkdown =
      [("`the` site".toList, "https://a.example/?q=1&amp;r=2".toList)] := by decide +kernel
  rw [hlinks] at he
  obtain rfl := List.mem_singleton.mp he
  have haddress : escapeMrkdwn "https://a.example/?q=1&r=2".toList =
      target "https://a.example/?q=1&amp;r=2".toList := by decide +kernel
  exact ⟨by decide +kernel, Or.inl ⟨_, ⟨"`the` site".toList, "# See\n".toList, [], by decide +kernel⟩, haddress⟩⟩

/-- the target of a link is copied between `<` and `>` whatever it is -/
theorem not_spoken : ¬ ∀ (linkResolver : Text → Option Text) (mintToken : Text → Text → Text) (asker : Text)
    (answer : Answer), (∀ path url, linkResolver path = some url → url = [] ∨ isUrl url = true) →
      Spoken linkResolver mintToken asker answer := by
  intro h
  have hs := (h noLinkResolver (fun path _ => path) [] ⟨false, [], "[x](!channel)".toList, [], "verified".toList⟩
    fun _ _ hurl => absurd hurl (Option.some_ne_none _).symm).2
  have hcontrol := (hs "!channel|x".toList (by decide +kernel)).control
  exact absurd hcontrol (by decide)

end Render
