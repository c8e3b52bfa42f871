import Mathlib.Data.List.Sort
import Mathlib.Algebra.Order.BigOperators.Group.List
import Stigmergy.Lib.Lines
import Stigmergy.Lib.Spans

/-!
# Fragments of a page

`index/fragments.py`: a body is cut into lines, lines into sections, sections into windows.

* `lines_tiles`     lines, and pieces of long lines, one after the other and within the bytes of a fragment;
* `merged_tiles`    sections after short ones have joined their neighbours;
* `stopAt_lt`       a window ends after the one before it, however far it reached back;
* `windows_laps`    windows of one section;
* `fragment_laps`   fragments of a body;
* `fragments_tile`  what every cut keeps.
-/

set_option linter.unusedSectionVars false

namespace Fragments

def SHORT_PAGE_WORDS : ℕ := 400
def SECTION_MAX_WORDS : ℕ := 400
def WINDOW_WORDS : ℕ := 350
def OVERLAP_WORDS : ℕ := 50
def OVERLAP_CAP_WORDS : ℕ := 100
def MIN_SECTION_WORDS : ℕ := 40
def MAX_FRAGMENT_BYTES : ℕ := 4000
def WHOLE_SAFE_BYTES : ℕ := 8000
def TITLE_CHARS : ℕ := 200
def HEADING_CHARS : ℕ := 120
def TRAIL_CHARS : ℕ := 300

structure Fragment where
  ordinal : ℕ
  start : ℕ
  stop : ℕ
  trail : Text
  text : Text
deriving DecidableEq

structure Line where
  start : ℕ
  stop : ℕ
  words : ℕ
  blank : Bool
  size : ℕ
deriving DecidableEq, Inhabited

structure Section where
  first : ℕ
  last : ℕ
  trail : Text
deriving DecidableEq

/-- `_size`, in UTF-8 bytes -/
def size (t : Text) : ℕ := (t.map Char.utf8Size).sum

/-- `t[a:b]` -/
def slice {α : Type*} (t : List α) (a b : ℕ) : List α := (t.take b).drop a

def embedText (title : Text) (f : Fragment) : Text :=
  let head := if f.trail.isEmpty then title.take TITLE_CHARS else title.take TITLE_CHARS ++ " › ".toList ++ f.trail
  head ++ '\n' :: f.text

def isNonzero (c : Char) : Bool := '1' ≤ c && c ≤ '9'

/-- `parse_reference`: page and number of `path#n`, the number up to six digits; a line end may follow -/
def parseReference (text : Text) : Text × Option ℕ :=
  let t := if text.getLast? = some '\n' then text.dropLast else text
  let number := t.rtakeWhile (· != '#')
  let path := (t.rdropWhile (· != '#')).dropLast
  let digits := number.all fun c => isNonzero c || c == '0'
  if t.contains '#' && Text.endsWith ".md".toList path && 3 < path.length && !path.contains '\n' &&
      number.head?.any isNonzero && digits && number.length ≤ 6 then
    (path, some (number.foldl (fun n c => 10 * n + (c.toNat - 48)) 0))
  else (text, none)

/-! ## lines -/

/-- the places `_WORD` finds from `i` on, with a word open since `a` or none -/
def wordsFrom : ℕ → Option ℕ → Text → List (ℕ × ℕ)
  | i, some a, [] => [(a, i)]
  | _, none, [] => []
  | i, none, c :: t => wordsFrom (i + 1) (if Text.isSpace c then none else some i) t
  | i, some a, c :: t =>
    if Text.isSpace c then (a, i) :: wordsFrom (i + 1) none t else wordsFrom (i + 1) (some a) t

/-- `_WORD.finditer` -/
def wordSpans (t : Text) : List (ℕ × ℕ) := wordsFrom 0 none t

def reach : ℕ := MAX_FRAGMENT_BYTES + 1

/-- the words that fit in a piece: where they stop, how many, and their size -/
def scan (raw : Text) : List (ℕ × ℕ) → ℕ → ℕ → ℕ → ℕ × ℕ × ℕ
  | [], stop, count, sz => (stop, count, sz)
  | m :: ms, stop, count, sz =>
    let grown := sz + size (slice raw stop m.2)
    if count = OVERLAP_CAP_WORDS ∨ MAX_FRAGMENT_BYTES < grown then (stop, count, sz)
    else scan raw ms m.2 (count + 1) grown

/-- how many characters fit in `limit` bytes -/
def fitting : ℕ → Text → ℕ
  | _, [] => 0
  | limit, c :: t => if c.utf8Size ≤ limit then fitting (limit - c.utf8Size) t + 1 else 0

/-- `_within` from the start of `t` -/
def within (t : Text) (limit : ℕ) : ℕ := fitting limit (t.take limit)

/-- where the next piece of `raw` is full, its words and their size; places count from its start -/
def filled (raw : Text) : ℕ × ℕ × ℕ :=
  let scanned := scan raw (wordSpans (raw.take reach)) 0 0 0
  if scanned.1 = 0 then
    let stop := within raw MAX_FRAGMENT_BYTES
    (stop, scanned.2.1, size (raw.take stop))
  else scanned

/-- where the word after a place starts -/
def nextWord (raw : Text) (stop : ℕ) : ℕ :=
  match (wordSpans (slice raw stop (stop + reach))).head? with
  | some word => stop + word.1
  | none => min raw.length (stop + reach)

/-- the length of the next piece -/
def cut (raw : Text) : ℕ :=
  let full := filled raw
  let stop := nextWord raw full.1
  if MAX_FRAGMENT_BYTES < full.2.2 + size (slice raw full.1 stop) then full.1 else stop

section
variable {raw : Text}

theorem size_append (s t : Text) : size (s ++ t) = size s + size t := by
  unfold size
  rw [List.map_append, List.sum_append]

theorem slice_append {α : Type*} (t : List α) {a b : ℕ} (h : a ≤ b) : t.take a ++ slice t a b = t.take b := by
  unfold slice
  have htake : (t.take b).take a = t.take a := by
    rw [List.take_take, min_eq_left h]
  rw [← htake]
  exact List.take_append_drop a (t.take b)

theorem size_take (raw : Text) {a b : ℕ} (h : a ≤ b) : size (raw.take b) = size (raw.take a) + size (slice raw a b) := by
  rw [← size_append, slice_append raw h]

/-- words one after the other, inside the text -/
theorem wordsFrom_spans (i : ℕ) (o : Option ℕ) (t : Text) (ho : ∀ a, o = some a → a < i) :
    (∀ m ∈ wordsFrom i o t, m.1 < m.2 ∧ i ≤ m.2 ∧ m.2 ≤ i + t.length) ∧
    (wordsFrom i o t).Pairwise fun m n => m.2 ≤ n.2 := by
  induction t generalizing i o with
  | nil =>
    cases o with
    | none => exact ⟨fun m hm => (nomatch hm), List.Pairwise.nil⟩
    | some a =>
      refine ⟨fun m hm => ?_, List.pairwise_singleton _ _⟩
      rw [List.mem_singleton.mp hm]
      exact ⟨ho a rfl, le_refl i, le_refl i⟩
  | cons c t ih =>
    have hlater : ∀ o : Option ℕ, (∀ a, o = some a → a < i + 1) →
        (∀ m ∈ wordsFrom (i + 1) o t, m.1 < m.2 ∧ i ≤ m.2 ∧ m.2 ≤ i + (c :: t).length) ∧
        (wordsFrom (i + 1) o t).Pairwise fun m n => m.2 ≤ n.2 := by
      intro o ho
      obtain ⟨hmem, hpair⟩ := ih (i + 1) o ho
      refine ⟨fun m hm => ?_, hpair⟩
      obtain ⟨hlt, hlow, hhigh⟩ := hmem m hm
      rw [List.length_cons]
      exact ⟨hlt, by omega, by omega⟩
    cases o with
    | none =>
      rw [wordsFrom]
      refine hlater _ fun a ha => ?_
      split at ha
      · exact nomatch ha
      · obtain rfl := Option.some.inj ha
        exact Nat.lt_succ_self i
    | some a =>
      have hai := ho a rfl
      rw [wordsFrom]
      split
      · obtain ⟨hmem, hpair⟩ := hlater none fun b hb => nomatch hb
        refine ⟨fun m hm => ?_, List.pairwise_cons.mpr ⟨fun m hm => (hmem m hm).2.1, hpair⟩⟩
        rcases List.mem_cons.mp hm with rfl | hm
        · exact ⟨hai, le_refl i, Nat.le_add_right i _⟩
        · exact hmem m hm
      · refine hlater (some a) fun b hb => ?_
        obtain rfl := Option.some.inj hb
        exact hai.trans (Nat.lt_succ_self i)

theorem wordSpans_spans (t : Text) :
    (∀ m ∈ wordSpans t, m.1 < m.2 ∧ m.2 ≤ t.length) ∧ (wordSpans t).Pairwise fun m n => m.2 ≤ n.2 := by
  obtain ⟨hmem, hpair⟩ := wordsFrom_spans 0 none t fun a ha => nomatch ha
  refine ⟨fun m hm => ?_, hpair⟩
  obtain ⟨hlt, _, hhigh⟩ := hmem m hm
  rw [Nat.zero_add] at hhigh
  exact ⟨hlt, hhigh⟩

/-- a place in the text up to which a piece fits -/
def Fits (raw : Text) (stop count sz : ℕ) : Prop :=
  stop ≤ raw.length ∧ count ≤ OVERLAP_CAP_WORDS ∧ sz = size (raw.take stop) ∧ sz ≤ MAX_FRAGMENT_BYTES

theorem scan_fits {ms : List (ℕ × ℕ)} {stop count sz : ℕ} (h : Fits raw stop count sz)
    (hms : ∀ m ∈ ms, stop ≤ m.2 ∧ m.2 ≤ raw.length) (hpair : ms.Pairwise fun m n => m.2 ≤ n.2) :
    Fits raw (scan raw ms stop count sz).1 (scan raw ms stop count sz).2.1 (scan raw ms stop count sz).2.2 := by
  induction ms generalizing stop count sz with
  | nil => exact h
  | cons m ms ih =>
    obtain ⟨hlow, hhigh⟩ := hms m List.mem_cons_self
    obtain ⟨hfirst, hrest⟩ := List.pairwise_cons.mp hpair
    rw [scan]
    split
    · exact h
    · next hroom =>
      obtain ⟨hcount, hgrown⟩ := not_or.mp hroom
      obtain ⟨hstop, hcap, hsize, hfit⟩ := h
      refine ih ⟨hhigh, ?_, ?_, not_lt.mp hgrown⟩ (fun n hn => ⟨hfirst n hn, (hms n (List.mem_cons_of_mem m hn)).2⟩) hrest
      · omega
      · rw [hsize, size_take raw hlow]

theorem size_fitting (limit : ℕ) (t : Text) : size (t.take (fitting limit t)) ≤ limit := by
  induction t generalizing limit with
  | nil => exact Nat.zero_le limit
  | cons c t ih =>
    rw [fitting]
    split
    · next hc =>
      have hrest := ih (limit - c.utf8Size)
      rw [List.take_succ_cons, size, List.map_cons, List.sum_cons]
      rw [size] at hrest
      omega
    · exact Nat.zero_le limit

theorem fitting_le (limit : ℕ) (t : Text) : fitting limit t ≤ t.length := by
  induction t generalizing limit with
  | nil => exact le_refl 0
  | cons c t ih =>
    rw [fitting]
    split
    · exact Nat.succ_le_succ (ih _)
    · exact Nat.zero_le _

theorem fitting_pos {limit : ℕ} (h : 4 ≤ limit) {t : Text} (ht : t ≠ []) : 0 < fitting limit t := by
  cases t with
  | nil => exact absurd rfl ht
  | cons c t =>
    rw [fitting, if_pos (c.utf8Size_le_four.trans h)]
    exact Nat.succ_pos _

theorem within_le (raw : Text) (limit : ℕ) : within raw limit ≤ limit ∧ within raw limit ≤ raw.length := by
  have hle := fitting_le limit (raw.take limit)
  rw [List.length_take] at hle
  exact ⟨hle.trans (min_le_left _ _), hle.trans (min_le_right _ _)⟩

theorem size_within (raw : Text) (limit : ℕ) : size (raw.take (within raw limit)) ≤ limit := by
  have htake : raw.take (within raw limit) = (raw.take limit).take (within raw limit) := by
    rw [List.take_take, min_eq_left (within_le raw limit).1]
  rw [htake]
  exact size_fitting limit (raw.take limit)

theorem within_pos (h : raw ≠ []) : 0 < within raw MAX_FRAGMENT_BYTES := by
  refine fitting_pos (by decide) ?_
  intro htake
  rcases List.take_eq_nil_iff.mp htake with hzero | hraw
  · exact absurd hzero (by decide)
  · exact h hraw

theorem filled_fits (h : raw ≠ []) :
    0 < (filled raw).1 ∧ Fits raw (filled raw).1 (filled raw).2.1 (filled raw).2.2 := by
  obtain ⟨hmem, hpair⟩ := wordSpans_spans (raw.take reach)
  have hms : ∀ m ∈ wordSpans (raw.take reach), 0 ≤ m.2 ∧ m.2 ≤ raw.length := fun m hm =>
    ⟨Nat.zero_le _, (hmem m hm).2.trans (List.length_take_le' _ _)⟩
  have hscan := scan_fits (show Fits raw 0 0 0 from ⟨Nat.zero_le _, Nat.zero_le _, rfl, Nat.zero_le _⟩) hms hpair
  unfold filled
  dsimp only
  split
  · refine ⟨within_pos h, (within_le raw _).2, hscan.2.1, rfl, size_within raw _⟩
  · next hstop => exact ⟨Nat.pos_of_ne_zero hstop, hscan⟩

theorem nextWord_le {stop : ℕ} (h : stop ≤ raw.length) : stop ≤ nextWord raw stop ∧ nextWord raw stop ≤ raw.length := by
  unfold nextWord
  split
  · next word hword =>
    obtain ⟨hlt, hle⟩ := (wordSpans_spans _).1 word (List.mem_of_head? hword)
    rw [slice, List.length_drop, List.length_take] at hle
    exact ⟨Nat.le_add_right _ _, by omega⟩
  · exact ⟨le_min h (Nat.le_add_right _ _), min_le_left _ _⟩

/-- a piece is not empty, ends in the text and fits -/
theorem cut_spec (h : raw ≠ []) :
    0 < cut raw ∧ cut raw ≤ raw.length ∧ size (raw.take (cut raw)) ≤ MAX_FRAGMENT_BYTES := by
  obtain ⟨hpos, hstop, hcount, hsize, hfit⟩ := filled_fits h
  obtain ⟨hlow, hhigh⟩ := nextWord_le hstop
  unfold cut
  dsimp only
  split
  · exact ⟨hpos, hstop, hsize ▸ hfit⟩
  · next hroom =>
    refine ⟨hpos.trans_le hlow, hhigh, ?_⟩
    rw [size_take raw hlow, ← hsize]
    exact not_lt.mp hroom

end

/-- `_pieces` -/
def pieces (raw : Text) (offset : ℕ) : List Line :=
  if raw = [] then []
  else
    ⟨offset, offset + cut raw, max 1 (filled raw).2.1, false, size (raw.take (cut raw))⟩ ::
      pieces (raw.drop (cut raw)) (offset + cut raw)
termination_by raw.length
decreasing_by
  rename_i h
  rw [List.length_drop]
  have hn := (cut_spec h).1
  have hlength : 0 < raw.length := List.length_pos_iff.mpr h
  omega

def linesFrom : ℕ → List Text → List Line
  | _, [] => []
  | offset, raw :: raws =>
    let words := (wordSpans raw).length
    (if words ≤ WINDOW_WORDS ∧ size raw ≤ MAX_FRAGMENT_BYTES then
      [⟨offset, offset + raw.length, words, words == 0, size raw⟩]
    else pieces raw offset) ++ linesFrom (offset + raw.length) raws

/-- `_lines` -/
def lines (body : Text) : List Line := linesFrom 0 (Text.keptLines body)

/-- what the sizes and words of a line promise -/
def Sound (body : Text) (line : Line) : Prop :=
  line.words ≤ WINDOW_WORDS ∧ line.size ≤ MAX_FRAGMENT_BYTES ∧ line.size = size (slice body line.start line.stop)

theorem slice_middle (before raw after : Text) {n : ℕ} (h : n ≤ raw.length) :
    slice (before ++ raw ++ after) before.length (before.length + n) = raw.take n := by
  unfold slice
  rw [List.append_assoc, List.take_length_add_append, List.drop_left, List.take_append_of_le_length h]

/-- a long line in pieces -/
theorem pieces_tiles (before raw after : Text) :
    Tiles Line.start Line.stop before.length (before.length + raw.length) (pieces raw before.length) ∧
    ∀ line ∈ pieces raw before.length, Sound (before ++ raw ++ after) line := by
  induction hn : raw.length using Nat.strong_induction_on generalizing before raw with
  | _ n ih =>
    subst hn
    rw [pieces]
    split
    · next h =>
      rw [h]
      exact ⟨rfl, fun line hline => nomatch hline⟩
    · next h =>
      obtain ⟨hpos, hle, hfit⟩ := cut_spec h
      have hfilled := (filled_fits h).2.2.1
      have hlength : (raw.drop (cut raw)).length = raw.length - cut raw := List.length_drop
      have hbefore : (before ++ raw.take (cut raw)).length = before.length + cut raw := by
        rw [List.length_append, List.length_take, min_eq_left hle]
      obtain ⟨htiles, hsound⟩ := ih _ (by omega) (before ++ raw.take (cut raw)) (raw.drop (cut raw)) rfl
      have hbody : before ++ raw.take (cut raw) ++ raw.drop (cut raw) ++ after = before ++ raw ++ after := by
        rw [List.append_assoc before, List.take_append_drop]
      have hend : before.length + cut raw + (raw.drop (cut raw)).length = before.length + raw.length := by omega
      rw [hbefore, hend] at htiles
      rw [hbefore, hbody] at hsound
      refine ⟨⟨rfl, Nat.lt_add_of_pos_right hpos, htiles⟩, fun line hline => ?_⟩
      rcases List.mem_cons.mp hline with rfl | hline
      · refine ⟨max_le (by decide) (hfilled.trans (by decide)), hfit, ?_⟩
        rw [slice_middle before raw after hle]
      · exact hsound line hline

theorem linesFrom_tiles (before : Text) {raws : List Text} (h : ∀ raw ∈ raws, raw ≠ []) :
    Tiles Line.start Line.stop before.length (before.length + raws.flatten.length) (linesFrom before.length raws) ∧
    ∀ line ∈ linesFrom before.length raws, Sound (before ++ raws.flatten) line := by
  induction raws generalizing before with
  | nil => exact ⟨rfl, fun line hline => nomatch hline⟩
  | cons raw raws ih =>
    obtain ⟨htiles, hsound⟩ := ih (before ++ raw) fun r hr => h r (List.mem_cons_of_mem raw hr)
    rw [List.length_append] at htiles hsound
    rw [List.append_assoc] at hsound
    have hend : before.length + raw.length + raws.flatten.length = before.length + (raw :: raws).flatten.length := by
      rw [List.flatten_cons, List.length_append, Nat.add_assoc]
    rw [hend] at htiles
    have hfirst : Tiles Line.start Line.stop before.length (before.length + raw.length)
        (if (wordSpans raw).length ≤ WINDOW_WORDS ∧ size raw ≤ MAX_FRAGMENT_BYTES then
          [⟨before.length, before.length + raw.length, (wordSpans raw).length, (wordSpans raw).length == 0, size raw⟩]
        else pieces raw before.length) ∧
        ∀ line ∈ (if (wordSpans raw).length ≤ WINDOW_WORDS ∧ size raw ≤ MAX_FRAGMENT_BYTES then
          [⟨before.length, before.length + raw.length, (wordSpans raw).length, (wordSpans raw).length == 0, size raw⟩]
        else pieces raw before.length), Sound (before ++ (raw :: raws).flatten) line := by
      rw [List.flatten_cons, ← List.append_assoc]
      split
      · next hshort =>
        refine ⟨⟨rfl, ?_, rfl⟩, fun line hline => ?_⟩
        · exact Nat.lt_add_of_pos_right (List.length_pos_iff.mpr (h raw List.mem_cons_self))
        · rw [List.mem_singleton.mp hline]
          refine ⟨hshort.1, hshort.2, ?_⟩
          rw [slice_middle before raw raws.flatten (le_refl _), List.take_length]
      · exact pieces_tiles before raw raws.flatten
    refine ⟨hfirst.1.append htiles, fun line hline => ?_⟩
    rcases List.mem_append.mp hline with hline | hline
    · exact hfirst.2 line hline
    · exact hsound line hline

theorem lines_tiles (body : Text) :
    Tiles Line.start Line.stop 0 body.length (lines body) ∧ ∀ line ∈ lines body, Sound body line := by
  have h := linesFrom_tiles [] fun raw (hraw : raw ∈ Text.keptLines body) => Text.ne_nil_of_mem_keptLines hraw
  rw [Text.flatten_keptLines, List.nil_append, List.length_nil, Nat.zero_add] at h
  exact h

/-! ## sections -/

/-- `^\s{0,3}(```|~~~)` -/
def isFence (t : Text) : Bool :=
  let indent := (t.takeWhile Text.isSpace).length
  indent ≤ 3 && (Text.startsWith "```".toList (t.drop indent) || Text.startsWith "~~~".toList (t.drop indent))

/-- `^(#{1,6})[ \t]+(\S.*?)[ \t#]*$` on one line: the level and the name -/
def heading (t : Text) : Option (ℕ × Text) :=
  let level := (t.takeWhile (· == '#')).length
  let rest := t.drop level
  let gap := (rest.takeWhile fun c => c == ' ' || c == '\t').length
  match rest.drop gap with
  | [] => none
  | c :: name =>
    if 1 ≤ level ∧ level ≤ 6 ∧ 1 ≤ gap ∧ Text.isSpace c = false then
      some (level, c :: name.rdropWhile fun d => d == ' ' || d == '\t' || d == '#')
    else none

/-- the lines that open a section, with the trail of their headings -/
def splits (body : Text) (source : Bool) : ℕ → List (ℕ × Text) → Bool → List Line → List (ℕ × Text)
  | _, _, _, [] => []
  | index, trail, fenced, line :: ls =>
    let text := (slice body line.start line.stop).rdropWhile fun c => c == '\r' || c == '\n'
    if isFence text then splits body source (index + 1) trail (!fenced) ls
    else
      match if fenced then none else heading text with
      | none => splits body source (index + 1) trail fenced ls
      | some (level, name) =>
        if !source && level != 2 && level != 3 then splits body source (index + 1) trail fenced ls
        else
          let trail := trail.filter (fun e => e.1 < level) ++ [(level, (Text.strip name).take HEADING_CHARS)]
          let shown := (trail.insertionSort fun d e => d.1 ≤ e.1).filter fun e => source || 2 ≤ e.1
          (index, (" › ".toList.intercalate (shown.map Prod.snd)).take TRAIL_CHARS) ::
            splits body source (index + 1) trail fenced ls

def starts (body : Text) (lines : List Line) (source : Bool) : List (ℕ × Text) :=
  match splits body source 0 [] false lines with
  | (0, name) :: rest => (0, name) :: rest
  | rest => (0, []) :: rest

/-- `_sections` -/
def sections (body : Text) (lines : List Line) (source : Bool) : List Section :=
  let opened := starts body lines source
  let bounds := opened.tail.map Prod.fst ++ [lines.length]
  (opened.zip bounds).filterMap fun e => if e.1.1 < e.2 then some ⟨e.1.1, e.2, e.1.2⟩ else none

def wordsOf (lines : List Line) (a b : ℕ) : ℕ := ((slice lines a b).map Line.words).sum

/-- `_joined` -/
def joined (first second : Text) : Text :=
  if first.isEmpty || Text.startsWith first second then second
  else if second.isEmpty || Text.startsWith second first then first
  else (first ++ ", ".toList ++ second).take TRAIL_CHARS

/-- the sections that stand, and the short one that waits for the next -/
def merge (lines : List Line) (acc : List Section × Option Section) (next : Section) : List Section × Option Section :=
  let next :=
    match acc.2 with
    | none => next
    | some pending => ⟨pending.first, next.last, joined pending.trail next.trail⟩
  if wordsOf lines next.first next.last < MIN_SECTION_WORDS then (acc.1, some next) else (acc.1 ++ [next], none)

/-- `_merged` -/
def merged (sections : List Section) (lines : List Line) : List Section :=
  match sections.foldl (merge lines) ([], none) with
  | (standing, none) => standing
  | (standing, some pending) =>
    match standing.getLast? with
    | none => [pending]
    | some last => standing.dropLast ++ [⟨last.first, pending.last, joined last.trail pending.trail⟩]

theorem splits_spec (body : Text) (source : Bool) (index : ℕ) (trail : List (ℕ × Text)) (fenced : Bool) (ls : List Line) :
    (∀ e ∈ splits body source index trail fenced ls,
      index ≤ e.1 ∧ e.1 < index + ls.length ∧ e.2.length ≤ TRAIL_CHARS) ∧
    (splits body source index trail fenced ls).Pairwise fun d e => d.1 < e.1 := by
  induction ls generalizing index trail fenced with
  | nil => exact ⟨fun e he => (nomatch he), List.Pairwise.nil⟩
  | cons line ls ih =>
    have hlater : ∀ trail fenced, (∀ e ∈ splits body source (index + 1) trail fenced ls,
        index + 1 ≤ e.1 ∧ e.1 < index + (line :: ls).length ∧ e.2.length ≤ TRAIL_CHARS) ∧
        (splits body source (index + 1) trail fenced ls).Pairwise fun d e => d.1 < e.1 := by
      intro trail fenced
      obtain ⟨hmem, hpair⟩ := ih (index + 1) trail fenced
      refine ⟨fun e he => ?_, hpair⟩
      obtain ⟨hlow, hhigh, hshort⟩ := hmem e he
      rw [List.length_cons]
      exact ⟨hlow, by omega, hshort⟩
    have hskip : ∀ trail fenced, (∀ e ∈ splits body source (index + 1) trail fenced ls,
        index ≤ e.1 ∧ e.1 < index + (line :: ls).length ∧ e.2.length ≤ TRAIL_CHARS) ∧
        (splits body source (index + 1) trail fenced ls).Pairwise fun d e => d.1 < e.1 := fun trail fenced =>
      ⟨fun e he => ⟨Nat.le_of_succ_le ((hlater trail fenced).1 e he).1, ((hlater trail fenced).1 e he).2⟩,
        (hlater trail fenced).2⟩
    rw [splits]
    dsimp only
    split
    · exact hskip _ _
    split
    · exact hskip _ _
    split
    · exact hskip _ _
    obtain ⟨hmem, hpair⟩ := hlater _ fenced
    refine ⟨fun e he => ?_, List.pairwise_cons.mpr ⟨fun e he => (hmem e he).1, hpair⟩⟩
    rcases List.mem_cons.mp he with rfl | he
    · exact ⟨le_refl index, Nat.lt_add_of_pos_right (Nat.succ_pos _), List.length_take_le _ _⟩
    · obtain ⟨hlow, hrest⟩ := hmem e he
      exact ⟨Nat.le_of_succ_le hlow, hrest⟩

theorem starts_spec (body : Text) {lines : List Line} (h : lines ≠ []) (source : Bool) :
    ∃ name rest, starts body lines source = (0, name) :: rest ∧
      (∀ e ∈ starts body lines source, e.1 < lines.length ∧ e.2.length ≤ TRAIL_CHARS) ∧
      (starts body lines source).Pairwise fun d e => d.1 < e.1 := by
  obtain ⟨hmem, hpair⟩ := splits_spec body source 0 [] false lines
  rw [Nat.zero_add] at hmem
  unfold starts
  split
  · next name rest hsplits =>
    rw [hsplits] at hmem hpair
    exact ⟨name, rest, rfl, fun e he => (hmem e he).2, hpair⟩
  · next hzero =>
    refine ⟨[], _, rfl, fun e he => ?_, List.pairwise_cons.mpr ⟨fun e he => ?_, hpair⟩⟩
    · rcases List.mem_cons.mp he with rfl | he
      · exact ⟨List.length_pos_iff.mpr h, Nat.zero_le _⟩
      · exact (hmem e he).2
    · cases hs : splits body source 0 [] false lines with
      | nil =>
        rw [hs] at he
        exact nomatch he
      | cons d ds =>
        rw [hs] at he hpair
        have hd : 0 < d.1 := Nat.pos_of_ne_zero fun hd => hzero d.2 ds (by rw [hs, ← hd])
        rcases List.mem_cons.mp he with rfl | he
        · exact hd
        · exact hd.trans ((List.pairwise_cons.mp hpair).1 e he)

/-- places that open sections, and what is between them -/
theorem between_tiles {n : ℕ} (opened : List (ℕ × Text)) (d : ℕ × Text) (hn : ∀ e ∈ d :: opened, e.1 < n)
    (hpair : (d :: opened).Pairwise fun d e => d.1 < e.1) :
    Tiles Section.first Section.last d.1 n (((d :: opened).zip (opened.map Prod.fst ++ [n])).filterMap fun e =>
      if e.1.1 < e.2 then some ⟨e.1.1, e.2, e.1.2⟩ else none) := by
  induction opened generalizing d with
  | nil =>
    have hd := hn d List.mem_cons_self
    rw [List.map_nil, List.nil_append, List.zip_cons_cons, List.filterMap_cons, if_pos hd]
    exact ⟨rfl, hd, rfl⟩
  | cons e es ih =>
    obtain ⟨hfirst, hrest⟩ := List.pairwise_cons.mp hpair
    have hde := hfirst e List.mem_cons_self
    rw [List.map_cons, List.cons_append, List.zip_cons_cons, List.filterMap_cons, if_pos hde]
    exact ⟨rfl, hde, ih e (fun x hx => hn x (List.mem_cons_of_mem d hx)) hrest⟩

theorem sections_tiles (body : Text) {lines : List Line} (h : lines ≠ []) (source : Bool) :
    Tiles Section.first Section.last 0 lines.length (sections body lines source) ∧
    ∀ sec ∈ sections body lines source, sec.trail.length ≤ TRAIL_CHARS := by
  obtain ⟨name, rest, hstarts, hmem, hpair⟩ := starts_spec body h source
  unfold sections
  rw [hstarts] at hmem hpair ⊢
  refine ⟨between_tiles rest (0, name) (fun e he => (hmem e he).1) hpair, fun sec hsec => ?_⟩
  obtain ⟨e, he, hsome⟩ := List.mem_filterMap.mp hsec
  split at hsome
  · obtain rfl := Option.some.inj hsome
    exact (hmem e.1 (List.of_mem_zip he).1).2
  · exact nomatch hsome

theorem length_joined {first second : Text} (hf : first.length ≤ TRAIL_CHARS) (hs : second.length ≤ TRAIL_CHARS) :
    (joined first second).length ≤ TRAIL_CHARS := by
  unfold joined
  split
  · exact hs
  split
  · exact hf
  · exact List.length_take_le _ _

/-- the sections that stand and the one that waits are one row -/
def Row (k : ℕ) (acc : List Section × Option Section) : Prop :=
  Tiles Section.first Section.last 0 k (acc.1 ++ acc.2.toList) ∧
    ∀ sec ∈ acc.1 ++ acc.2.toList, sec.trail.length ≤ TRAIL_CHARS

theorem row_merge (lines : List Line) {acc : List Section × Option Section} {next : Section} (h : Row next.first acc)
    (hnext : next.first < next.last) (htrail : next.trail.length ≤ TRAIL_CHARS) :
    Row next.last (merge lines acc next) := by
  have hput : ∀ sec : Section, (∀ s ∈ acc.1, s.trail.length ≤ TRAIL_CHARS) → sec.trail.length ≤ TRAIL_CHARS →
      sec.first < sec.last → Tiles Section.first Section.last 0 sec.first acc.1 →
      Row sec.last (if wordsOf lines sec.first sec.last < MIN_SECTION_WORDS then (acc.1, some sec)
        else (acc.1 ++ [sec], none)) := by
    intro sec hshort hsec hlt htiles
    have hall : ∀ s ∈ acc.1 ++ [sec], s.trail.length ≤ TRAIL_CHARS := by
      intro s hs
      rcases List.mem_append.mp hs with hs | hs
      · exact hshort s hs
      · rw [List.mem_singleton.mp hs]
        exact hsec
    have hrow : Tiles Section.first Section.last 0 sec.last (acc.1 ++ [sec]) := htiles.append ⟨rfl, hlt, rfl⟩
    split
    · exact ⟨hrow, hall⟩
    · unfold Row
      rw [Option.toList_none, List.append_nil]
      exact ⟨hrow, hall⟩
  obtain ⟨htiles, hshort⟩ := h
  unfold merge
  cases hpending : acc.2 with
  | none =>
    rw [hpending, Option.toList_none, List.append_nil] at htiles hshort
    exact hput next hshort htrail hnext htiles
  | some pending =>
    rw [hpending, Option.toList_some] at htiles hshort
    obtain ⟨b, hstanding, hfirst, hlt, hlast⟩ := htiles.split
    refine hput ⟨pending.first, next.last, joined pending.trail next.trail⟩ ?_ ?_ ?_ (hfirst.symm ▸ hstanding)
    · exact fun s hs => hshort s (List.mem_append_left _ hs)
    · exact length_joined (hshort pending (List.mem_append_right _ (List.mem_singleton_self pending))) htrail
    · show pending.first < next.last
      have hend : pending.last = next.first := hlast
      omega

theorem row_foldl (lines : List Line) {a b : ℕ} {secs : List Section} {acc : List Section × Option Section} (h : Row a acc)
    (htiles : Tiles Section.first Section.last a b secs) (hshort : ∀ sec ∈ secs, sec.trail.length ≤ TRAIL_CHARS) :
    Row b (secs.foldl (merge lines) acc) := by
  induction secs generalizing a acc with
  | nil =>
    obtain rfl := htiles
    exact h
  | cons sec secs ih =>
    obtain ⟨rfl, hlt, hrest⟩ := htiles
    exact ih (row_merge lines h hlt (hshort sec List.mem_cons_self)) hrest fun s hs => hshort s (List.mem_cons_of_mem sec hs)

theorem merged_tiles (lines : List Line) {n : ℕ} {secs : List Section} (htiles : Tiles Section.first Section.last 0 n secs)
    (hshort : ∀ sec ∈ secs, sec.trail.length ≤ TRAIL_CHARS) :
    Tiles Section.first Section.last 0 n (merged secs lines) ∧
    ∀ sec ∈ merged secs lines, sec.trail.length ≤ TRAIL_CHARS := by
  have hrow := row_foldl lines (show Row 0 ([], none) from ⟨rfl, fun s hs => nomatch hs⟩) htiles hshort
  unfold merged
  generalize secs.foldl (merge lines) ([], none) = acc at hrow
  obtain ⟨standing, pending⟩ := acc
  obtain ⟨hacc, htrail⟩ := hrow
  cases pending with
  | none =>
    dsimp only at hacc htrail ⊢
    rw [Option.toList_none, List.append_nil] at hacc htrail
    exact ⟨hacc, htrail⟩
  | some pending =>
    dsimp only at hacc htrail ⊢
    rw [Option.toList_some] at hacc htrail
    cases hlast : standing.getLast? with
    | none =>
      rw [List.getLast?_eq_none_iff.mp hlast, List.nil_append] at hacc htrail
      exact ⟨hacc, htrail⟩
    | some last =>
      have hsplit : standing = standing.dropLast ++ [last] :=
        (List.dropLast_append_getLast? last hlast).symm
      rw [hsplit, List.append_assoc] at hacc htrail
      obtain ⟨b, hbefore, hfirst, hlt, hstart, hlt', hend⟩ := hacc.split
      have hpair : last.trail.length ≤ TRAIL_CHARS ∧ pending.trail.length ≤ TRAIL_CHARS :=
        ⟨htrail last (List.mem_append_right _ List.mem_cons_self),
          htrail pending (List.mem_append_right _ (List.mem_cons_of_mem last (List.mem_singleton_self pending)))⟩
      refine ⟨hbefore.append ⟨hfirst, ?_, hend⟩, fun sec hsec => ?_⟩
      · exact hlt.trans hlt'
      · rcases List.mem_append.mp hsec with hsec | hsec
        · exact htrail sec (List.mem_append_left _ hsec)
        · rw [List.mem_singleton.mp hsec]
          exact length_joined hpair.1 hpair.2

/-! ## windows -/

section
variable (lines : List Line) (first last : ℕ)

def lineAt (i : ℕ) : Line := lines.getD i default

def cumulative (k : ℕ) : ℕ := (((slice lines first last).take k).map Line.size).sum

def sizeBetween (a b : ℕ) : ℕ := cumulative lines first last (b - first) - cumulative lines first last (a - first)

/-- the lines a window takes -/
def grow (start stop words : ℕ) : ℕ × ℕ :=
  if stop < last ∧ (stop = start ∨ words + (lineAt lines stop).words ≤ WINDOW_WORDS ∧
      sizeBetween lines first last start (stop + 1) ≤ MAX_FRAGMENT_BYTES) then
    grow start (stop + 1) (words + (lineAt lines stop).words)
  else (stop, words)
termination_by last - stop

/-- the last blank line of a window -/
def paragraph (start stop : ℕ) : Option ℕ :=
  ((List.range' (start + 1) (stop - (start + 1))).filter fun i => (lineAt lines i).blank).max?

/-- where the window that starts at a line ends, and its words -/
def window (start : ℕ) : ℕ × ℕ :=
  let grown := grow lines first last start start 0
  match if grown.1 < last then paragraph lines start grown.1 else none with
  | none => grown
  | some blank =>
    if WINDOW_WORDS * 6 ≤ wordsOf lines start blank * 10 then (blank + 1, wordsOf lines start (blank + 1)) else grown

/-- how far the next window reaches back, and the words it repeats -/
def retreat (start stop wordRoom byteRoom : ℕ) : ℕ → ℕ → ℕ × ℕ
  | 0, carried => (0, carried)
  | back + 1, carried =>
    if start < back ∧ carried < OVERLAP_WORDS ∧ carried + (lineAt lines back).words ≤ wordRoom ∧
        sizeBetween lines first last back stop ≤ byteRoom then
      retreat start stop wordRoom byteRoom back (carried + (lineAt lines back).words)
    else (back + 1, carried)

/-- where the window after one starts -/
def nextStart (start : ℕ) : ℕ :=
  let stop := (window lines first last start).1
  let wordRoom := min OVERLAP_CAP_WORDS ((window lines first last start).2 / 4)
  let byteRoom := sizeBetween lines first last start stop / 4
  let back := retreat lines first last start stop wordRoom byteRoom stop 0
  if WINDOW_WORDS < back.2 + (lineAt lines stop).words ∨
      MAX_FRAGMENT_BYTES < sizeBetween lines first last back.1 (stop + 1) then stop
  else back.1

end

section
variable (lines : List Line) (first : ℕ) {last : ℕ}

/-! ### a window ends after it starts -/

theorem le_grow (start stop words : ℕ) (h : stop ≤ last) :
    stop ≤ (grow lines first last start stop words).1 ∧ (grow lines first last start stop words).1 ≤ last := by
  fun_induction grow lines first last start stop words with
  | case1 stop words hroom ih =>
    obtain ⟨hlow, hhigh⟩ := ih hroom.1
    exact ⟨Nat.le_of_succ_le hlow, hhigh⟩
  | case2 stop words hfull => exact ⟨le_refl stop, h⟩

theorem lt_grow {start : ℕ} (h : start < last) (words : ℕ) :
    start < (grow lines first last start start words).1 ∧ (grow lines first last start start words).1 ≤ last := by
  rw [grow, if_pos ⟨h, Or.inl rfl⟩]
  exact le_grow lines first start (start + 1) _ h

variable {lines} in
theorem mem_paragraph {start stop blank : ℕ} (h : paragraph lines start stop = some blank) : start < blank ∧ blank < stop := by
  have hmem := List.mem_of_mem_filter (List.max?_mem h)
  rw [List.mem_range'_1] at hmem
  omega

/-- a window ends where no room is left, or after a blank line before that -/
theorem window_cases (last start : ℕ) :
    window lines first last start = grow lines first last start start 0 ∨
    ∃ blank, start < blank ∧ blank < (grow lines first last start start 0).1 ∧
      WINDOW_WORDS * 6 ≤ wordsOf lines start blank * 10 ∧
      window lines first last start = (blank + 1, wordsOf lines start (blank + 1)) := by
  unfold window
  dsimp only
  split
  · exact Or.inl rfl
  · next blank hblank =>
    split at hblank
    · obtain ⟨hlow, hhigh⟩ := mem_paragraph hblank
      split
      · next hwords => exact Or.inr ⟨blank, hlow, hhigh, hwords, rfl⟩
      · exact Or.inl rfl
    · exact nomatch hblank

theorem lt_window {start : ℕ} (h : start < last) :
    start < (window lines first last start).1 ∧ (window lines first last start).1 ≤ last := by
  obtain ⟨hlow, hhigh⟩ := lt_grow lines first h 0
  rcases window_cases lines first last start with he | ⟨blank, hb, hb', _, he⟩
  · rw [he]
    exact ⟨hlow, hhigh⟩
  · rw [he]
    exact ⟨Nat.lt_succ_of_lt hb, Nat.le_trans hb' hhigh⟩

theorem lt_retreat (last : ℕ) {start : ℕ} (stop wordRoom byteRoom : ℕ) {back : ℕ} (carried : ℕ) (h : start < back) :
    start < (retreat lines first last start stop wordRoom byteRoom back carried).1 ∧
    (retreat lines first last start stop wordRoom byteRoom back carried).1 ≤ back := by
  induction back generalizing carried with
  | zero => exact absurd h (Nat.not_lt_zero start)
  | succ back ih =>
    rw [retreat]
    split
    · next hroom =>
      obtain ⟨hlow, hhigh⟩ := ih _ hroom.1
      exact ⟨hlow, Nat.le_succ_of_le hhigh⟩
    · exact ⟨h, le_refl _⟩

/-- the next window starts after this one, and no later than this one ends -/
theorem lt_nextStart {start : ℕ} (h : start < last) :
    start < nextStart lines first last start ∧ nextStart lines first last start ≤ (window lines first last start).1 := by
  have hstop := (lt_window lines first h).1
  unfold nextStart
  dsimp only
  split
  · exact ⟨hstop, le_refl _⟩
  · exact lt_retreat lines first last _ _ _ _ hstop

end

section
variable (lines : List Line) (first last : ℕ)

/-- the windows from a line on, as lines -/
def windowsFrom (start : ℕ) : List (ℕ × ℕ) :=
  if start < last then
    let stop := (window lines first last start).1
    (start, stop) :: if last ≤ stop then [] else windowsFrom (nextStart lines first last start)
  else []
termination_by last - start
decreasing_by
  rename_i h _
  have hnext := (lt_nextStart lines first h).1
  omega

/-- `_windows` -/
def windows (sec : Section) : List (ℕ × ℕ × Text) :=
  if wordsOf lines sec.first sec.last ≤ SECTION_MAX_WORDS ∧
      sizeBetween lines sec.first sec.last sec.first sec.last ≤ MAX_FRAGMENT_BYTES then
    [((lineAt lines sec.first).start, (lineAt lines (sec.last - 1)).stop, sec.trail)]
  else
    (windowsFrom lines sec.first sec.last sec.first).map fun w =>
      ((lineAt lines w.1).start, (lineAt lines (w.2 - 1)).stop, sec.trail)

end

def fragment (body : Text) (source : Bool) : List Fragment :=
  if body.isEmpty then []
  else
    let ls := lines body
    if (ls.map Line.words).sum ≤ SHORT_PAGE_WORDS ∧ size body ≤ MAX_FRAGMENT_BYTES then
      [⟨0, 0, body.length, [], body⟩]
    else
      ((merged (sections body ls source) ls).flatMap (windows ls)).mapIdx fun index span =>
        ⟨index, span.1, span.2.1, span.2.2, slice body span.1 span.2.1⟩

/-! ## words and bytes of lines -/

def total (f : Line → ℕ) (lines : List Line) (a b : ℕ) : ℕ := ((slice lines a b).map f).sum

section
variable {lines : List Line} {first last : ℕ}

variable (lines) in
theorem sum_take_total (f : Line → ℕ) {a b : ℕ} (h : a ≤ b) :
    ((lines.take b).map f).sum = ((lines.take a).map f).sum + total f lines a b := by
  rw [← slice_append lines h, List.map_append, List.sum_append]
  rfl

theorem total_add (f : Line → ℕ) {a b c : ℕ} (hab : a ≤ b) (hbc : b ≤ c) :
    total f lines a c = total f lines a b + total f lines b c := by
  have hac := sum_take_total lines f (hab.trans hbc)
  have ha := sum_take_total lines f hab
  have hb := sum_take_total lines f hbc
  omega

theorem lineAt_eq {i : ℕ} (h : i < lines.length) : lineAt lines i = lines[i] := by
  unfold lineAt
  rw [List.getD_eq_getElem?_getD, List.getElem?_eq_getElem h]
  rfl

theorem total_succ (f : Line → ℕ) {a : ℕ} (h : a < lines.length) : total f lines a (a + 1) = f (lineAt lines a) := by
  have hsum := sum_take_total lines f (show a ≤ a + 1 from Nat.le_succ a)
  rw [List.take_succ_eq_append_getElem h, List.map_append, List.sum_append, List.map_singleton, List.sum_singleton] at hsum
  rw [lineAt_eq h]
  omega

theorem total_concat (f : Line → ℕ) {a b : ℕ} (hab : a ≤ b) (hb : b < lines.length) :
    total f lines a (b + 1) = total f lines a b + f (lineAt lines b) := by
  rw [total_add f hab (Nat.le_succ b), Nat.succ_eq_add_one, total_succ f hb]

theorem total_le (f : Line → ℕ) {a b c : ℕ} (hab : a ≤ b) (hbc : b ≤ c) : total f lines a b ≤ total f lines a c := by
  rw [total_add f hab hbc]
  exact Nat.le_add_right _ _

theorem total_self (f : Line → ℕ) (a : ℕ) : total f lines a a = 0 := by
  have hsum := sum_take_total lines f (le_refl a)
  omega

theorem sizeBetween_eq {a b : ℕ} (ha : first ≤ a) (hab : a ≤ b) (hb : b ≤ last) :
    sizeBetween lines first last a b = total Line.size lines a b := by
  have hcumulative : ∀ c, first ≤ c → c ≤ last →
      cumulative lines first last (c - first) = total Line.size lines first c := by
    intro c hc hc'
    unfold cumulative total slice
    rw [List.take_drop, List.take_take, Nat.add_sub_cancel' hc, min_eq_left hc']
  unfold sizeBetween
  rw [hcumulative b (ha.trans hab) hb, hcumulative a ha (hab.trans hb), total_add Line.size ha hab]
  exact Nat.add_sub_cancel_left _ _

/-- every line is one a window can hold -/
def Held (lines : List Line) : Prop := ∀ line ∈ lines, line.words ≤ WINDOW_WORDS ∧ line.size ≤ MAX_FRAGMENT_BYTES

theorem Held.lineAt (h : Held lines) {i : ℕ} (hi : i < lines.length) :
    (lineAt lines i).words ≤ WINDOW_WORDS ∧ (Fragments.lineAt lines i).size ≤ MAX_FRAGMENT_BYTES := by
  rw [lineAt_eq hi]
  exact h _ (List.getElem_mem hi)

/-- a window is the sum of its lines and fits -/
theorem grow_fits (hheld : Held lines) (hlast : last ≤ lines.length) {start : ℕ} (hfirst : first ≤ start) (stop words : ℕ)
    (hstart : start ≤ stop) (hstop : stop ≤ last) (hwords : words = total Line.words lines start stop)
    (hsize : total Line.size lines start stop ≤ MAX_FRAGMENT_BYTES) :
    (grow lines first last start stop words).2 =
      total Line.words lines start (grow lines first last start stop words).1 ∧
    total Line.size lines start (grow lines first last start stop words).1 ≤ MAX_FRAGMENT_BYTES := by
  fun_induction grow lines first last start stop words with
  | case1 stop words hroom ih =>
    obtain ⟨hlt, hroom⟩ := hroom
    have hconcat := fun f => total_concat f hstart (hlt.trans_le hlast)
    refine ih (Nat.le_succ_of_le hstart) hlt ?_ ?_
    · rw [hconcat, hwords]
    · rcases hroom with rfl | ⟨_, hfit⟩
      · rw [hconcat, total_self, Nat.zero_add]
        exact (hheld.lineAt (hlt.trans_le hlast)).2
      · rw [sizeBetween_eq hfirst (Nat.le_succ_of_le hstart) hlt] at hfit
        exact hfit
  | case2 stop words hfull => exact ⟨hwords, hsize⟩

/-- a window reaches as far as its lines fit -/
theorem grow_reaches (hlast : last ≤ lines.length) {start t : ℕ} (hfirst : first ≤ start) (ht : t ≤ last)
    (htwords : total Line.words lines start t ≤ WINDOW_WORDS)
    (htsize : total Line.size lines start t ≤ MAX_FRAGMENT_BYTES) (stop words : ℕ)
    (hstart : start ≤ stop) (hstop : stop ≤ t) (hwords : words = total Line.words lines start stop) :
    t ≤ (grow lines first last start stop words).1 := by
  fun_induction grow lines first last start stop words with
  | case1 stop words hroom ih =>
    by_cases he : stop = t
    · subst he
      exact Nat.le_of_succ_le (le_grow lines first start (stop + 1) _ hroom.1).1
    · refine ih (Nat.le_succ_of_le hstart) (Nat.lt_of_le_of_ne hstop he) ?_
      rw [total_concat Line.words hstart (hroom.1.trans_le hlast), hwords]
  | case2 stop words hfull =>
    by_contra hshort
    have hlt : stop < t := not_le.mp hshort
    refine hfull ⟨hlt.trans_le ht, Or.inr ⟨?_, ?_⟩⟩
    · rw [hwords, ← total_concat Line.words hstart (hlt.trans_le (ht.trans hlast))]
      exact (total_le Line.words (Nat.le_succ_of_le hstart) hlt).trans htwords
    · rw [sizeBetween_eq hfirst (Nat.le_succ_of_le hstart) (hlt.trans_le ht)]
      exact (total_le Line.size (Nat.le_succ_of_le hstart) hlt).trans htsize

theorem window_fits (hheld : Held lines) (hlast : last ≤ lines.length) {start : ℕ} (hfirst : first ≤ start)
    (h : start < last) :
    (window lines first last start).2 = total Line.words lines start (window lines first last start).1 ∧
    total Line.size lines start (window lines first last start).1 ≤ MAX_FRAGMENT_BYTES := by
  have hgrow := grow_fits hheld hlast hfirst start 0 (le_refl start) h.le (total_self _ start).symm
    (by rw [total_self]; exact Nat.zero_le _)
  rcases window_cases lines first last start with he | ⟨blank, hb, hb', _, he⟩
  · rw [he]
    exact hgrow
  · rw [he]
    exact ⟨rfl, (total_le Line.size (Nat.le_succ_of_le hb.le) hb').trans hgrow.2⟩

variable (first last) in
theorem retreat_words (start : ℕ) {stop : ℕ} (wordRoom byteRoom : ℕ) (hlength : stop ≤ lines.length) (back carried : ℕ)
    (hback : back ≤ stop) (hcarried : carried = total Line.words lines back stop) (hroom : carried ≤ wordRoom) :
    (retreat lines first last start stop wordRoom byteRoom back carried).2 =
      total Line.words lines (retreat lines first last start stop wordRoom byteRoom back carried).1 stop ∧
    (retreat lines first last start stop wordRoom byteRoom back carried).2 ≤ wordRoom := by
  induction back generalizing carried with
  | zero => exact ⟨hcarried, hroom⟩
  | succ back ih =>
    rw [retreat]
    split
    · next hmore =>
      refine ih _ (Nat.le_of_succ_le hback) ?_ hmore.2.2.1
      rw [total_add Line.words (Nat.le_succ back) hback, Nat.succ_eq_add_one,
        total_succ Line.words (Nat.lt_of_lt_of_le hback hlength), hcarried, Nat.add_comm]
    · exact ⟨hcarried, hroom⟩

/-- the next window starts where this one ends, or repeats a few lines beside which the next line fits -/
theorem nextStart_cases (hlast : last ≤ lines.length) {start : ℕ} (hfirst : first ≤ start) (h : start < last)
    (hstop : (window lines first last start).1 < last) :
    nextStart lines first last start = (window lines first last start).1 ∨
    (total Line.words lines (nextStart lines first last start) (window lines first last start).1 ≤ OVERLAP_CAP_WORDS ∧
      total Line.words lines (nextStart lines first last start) ((window lines first last start).1 + 1) ≤ WINDOW_WORDS ∧
      total Line.size lines (nextStart lines first last start) ((window lines first last start).1 + 1) ≤
        MAX_FRAGMENT_BYTES) := by
  have hstart := (lt_window lines first h).1
  unfold nextStart
  dsimp only
  have hroom := min_le_left OVERLAP_CAP_WORDS ((window lines first last start).2 / 4)
  generalize min OVERLAP_CAP_WORDS ((window lines first last start).2 / 4) = wordRoom at hroom ⊢
  generalize (window lines first last start).1 = stop at hstop hstart ⊢
  generalize sizeBetween lines first last start stop / 4 = byteRoom
  obtain ⟨hlow, hhigh⟩ := lt_retreat lines first last stop wordRoom byteRoom 0 hstart
  obtain ⟨hcarried, hcap⟩ := retreat_words first last start wordRoom byteRoom
    (hstop.le.trans hlast) stop 0 (le_refl stop) (total_self _ stop).symm (Nat.zero_le _)
  generalize retreat lines first last start stop wordRoom byteRoom stop 0 = back at hlow hhigh hcarried hcap ⊢
  split
  · exact Or.inl rfl
  · next hfits =>
    obtain ⟨hwords, hsize⟩ := not_or.mp hfits
    refine Or.inr ⟨hcarried ▸ hcap.trans hroom, ?_, ?_⟩
    · rw [total_concat Line.words hhigh (hstop.trans_le hlast), ← hcarried]
      exact not_lt.mp hwords
    · rw [← sizeBetween_eq (hfirst.trans hlow.le) (Nat.le_succ_of_le hhigh) hstop]
      exact not_lt.mp hsize

/-- however far it reaches back, a window ends after the one before it -/
theorem window_lt_window (hlast : last ≤ lines.length) {start : ℕ} (hfirst : first ≤ start) (h : start < last)
    (hstop : (window lines first last start).1 < last) :
    (window lines first last start).1 <
      (window lines first last (nextStart lines first last start)).1 := by
  obtain ⟨hnext, hback⟩ := lt_nextStart lines first h
  rcases nextStart_cases hlast hfirst h hstop with he | ⟨hcap, hwords, hsize⟩
  · rw [he]
    exact (lt_window lines first hstop).1
  generalize (window lines first last start).1 = stop at *
  generalize nextStart lines first last start = back at *
  have hreach : stop + 1 ≤ (grow lines first last back back 0).1 :=
    grow_reaches hlast (hfirst.trans hnext.le) hstop hwords hsize back 0 (le_refl _) (Nat.le_succ_of_le hback)
      (total_self _ _).symm
  rcases window_cases lines first last back with he | ⟨blank, hb, _, henough, he⟩
  · rw [he]
    exact hreach
  · -- the lines that are repeated are too few to end a window after them
    rw [he]
    show stop < blank + 1
    by_contra hbefore
    have hfew : wordsOf lines back blank ≤ total Line.words lines back stop :=
      total_le Line.words hb.le (by omega)
    have hnumbers : WINDOW_WORDS * 6 = 2100 ∧ OVERLAP_CAP_WORDS = 100 := ⟨rfl, rfl⟩
    omega

/-- the windows of a section -/
theorem windowsFrom_laps (hheld : Held lines) (hlast : last ≤ lines.length) {start : ℕ} (hfirst : first ≤ start)
    (h : start < last) :
    (∃ rest, windowsFrom lines first last start = (start, (window lines first last start).1) :: rest ∧
      Laps Prod.fst Prod.snd last (start, (window lines first last start).1) rest) ∧
    ∀ w ∈ windowsFrom lines first last start, total Line.size lines w.1 w.2 ≤ MAX_FRAGMENT_BYTES := by
  induction hn : last - start using Nat.strong_induction_on generalizing start with
  | _ n ih =>
    subst hn
    obtain ⟨hlow, hhigh⟩ := lt_window lines first h
    have hfit := (window_fits hheld hlast hfirst h).2
    rw [windowsFrom, if_pos h]
    dsimp only
    by_cases hend : last ≤ (window lines first last start).1
    · rw [if_pos hend]
      refine ⟨⟨[], rfl, hlow, hhigh.antisymm hend⟩, fun w hw => ?_⟩
      rw [List.mem_singleton.mp hw]
      exact hfit
    · rw [if_neg hend]
      have hstop := not_le.mp hend
      obtain ⟨hnext, hback⟩ := lt_nextStart lines first h
      obtain ⟨⟨rest, hrest, hlaps⟩, hfits⟩ :=
        ih _ (by omega) (hfirst.trans hnext.le) (hback.trans_lt hstop) rfl
      refine ⟨⟨_, rfl, ?_⟩, fun w hw => ?_⟩
      · rw [hrest]
        exact ⟨hlow, ⟨hnext, window_lt_window hlast hfirst h hstop, hback⟩, hlaps⟩
      · rcases List.mem_cons.mp hw with rfl | hw
        · exact hfit
        · exact hfits w hw

end

/-! ## every cut -/

theorem size_slice {t : Text} {a b c : ℕ} (hab : a ≤ b) (hbc : b ≤ c) :
    size (slice t a c) = size (slice t a b) + size (slice t b c) := by
  have hac := size_take t (hab.trans hbc)
  have ha := size_take t hab
  have hb := size_take t hbc
  omega

theorem size_le (t : Text) : size t ≤ t.length * 4 := by
  unfold size
  induction t with
  | nil => exact Nat.zero_le _
  | cons c t ih =>
    have hc := c.utf8Size_le_four
    rw [List.map_cons, List.sum_cons, List.length_cons]
    omega

theorem size_embedText {f : Fragment} (htrail : f.trail.length ≤ TRAIL_CHARS) (htext : size f.text ≤ MAX_FRAGMENT_BYTES)
    (title : Text) : size (embedText title f) ≤ WHOLE_SAFE_BYTES := by
  have htitle : size (title.take TITLE_CHARS) ≤ 800 := by
    have hlength := List.length_take_le TITLE_CHARS title
    have hsize := size_le (title.take TITLE_CHARS)
    have hchars : TITLE_CHARS = 200 := rfl
    omega
  have htrail' : size f.trail ≤ 1200 := by
    have hsize := size_le f.trail
    have hchars : TRAIL_CHARS = 300 := rfl
    omega
  have hhead : size (if f.trail.isEmpty then title.take TITLE_CHARS
      else title.take TITLE_CHARS ++ " › ".toList ++ f.trail) ≤ 2005 := by
    split
    · omega
    · rw [size_append, size_append, show size " › ".toList = 5 by decide]
      omega
  have hline : size ('\n' :: f.text) = 1 + size f.text := rfl
  have hbytes : MAX_FRAGMENT_BYTES = 4000 := rfl
  have hsafe : WHOLE_SAFE_BYTES = 8000 := rfl
  unfold embedText
  dsimp only
  rw [size_append, hline]
  omega

section
variable {body : Text} {place : ℕ → ℕ}

/-- the places where the lines of a body meet -/
def Meets (body : Text) (place : ℕ → ℕ) : Prop :=
  place 0 = 0 ∧ place (lines body).length = body.length ∧
    (∀ i j, i < j → j ≤ (lines body).length → place i < place j) ∧
    ∀ i, i < (lines body).length → (lineAt (lines body) i).start = place i ∧ (lineAt (lines body) i).stop = place (i + 1)

theorem exists_meets (body : Text) : ∃ place, Meets body place := by
  obtain ⟨place, hzero, hlast, hlt, hmeet⟩ := (lines_tiles body).1.place
  refine ⟨place, hzero, hlast, hlt, fun i hi => ?_⟩
  rw [lineAt_eq hi]
  exact hmeet i hi

theorem held_lines (body : Text) : Held (lines body) := fun line hline =>
  ⟨((lines_tiles body).2 line hline).1, ((lines_tiles body).2 line hline).2.1⟩

theorem size_lines (hmeets : Meets body place) {a b : ℕ} (hab : a ≤ b) (hb : b ≤ (lines body).length) :
    size (slice body (place a) (place b)) = total Line.size (lines body) a b := by
  obtain ⟨_, _, hlt, hmeet⟩ := hmeets
  induction b with
  | zero =>
    obtain rfl := Nat.le_zero.mp hab
    rw [total_self, slice, List.drop_take_self]
    rfl
  | succ b ih =>
    rcases hab.lt_or_eq with hab | rfl
    · have hab := Nat.le_of_lt_succ hab
      have hline := ((lines_tiles body).2 _ (List.getElem_mem hb)).2.2
      rw [← lineAt_eq hb, (hmeet b hb).1, (hmeet b hb).2] at hline
      have hplace : place a ≤ place b := by
        rcases hab.lt_or_eq with hab | rfl
        · exact (hlt a b hab (Nat.le_of_succ_le hb)).le
        · exact le_refl _
      rw [total_concat Line.size hab hb, size_slice hplace (hlt b (b + 1) (Nat.lt_succ_self b) hb).le,
        ih hab (Nat.le_of_succ_le hb), hline]
    · rw [total_self, slice, List.drop_take_self]
      rfl

/-- a span of whole lines that fits -/
def Whole (body : Text) (span : ℕ × ℕ × Text) : Prop :=
  size (slice body span.1 span.2.1) ≤ MAX_FRAGMENT_BYTES ∧ span.2.2.length ≤ TRAIL_CHARS

theorem windows_laps (hmeets : Meets body place) {sec : Section} (hlt : sec.first < sec.last)
    (hlast : sec.last ≤ (lines body).length) (htrail : sec.trail.length ≤ TRAIL_CHARS) :
    (∃ y ys, windows (lines body) sec = y :: ys ∧ y.1 = place sec.first ∧
      Laps (fun s : ℕ × ℕ × Text => s.1) (fun s => s.2.1) (place sec.last) y ys) ∧
    ∀ span ∈ windows (lines body) sec, Whole body span := by
  have hstart : ∀ a b, a < b → b ≤ sec.last → (lineAt (lines body) a).start = place a := fun a b hab hb =>
    (hmeets.2.2.2 a (hab.trans_le (hb.trans hlast))).1
  have hstop : ∀ a b, a < b → b ≤ sec.last → (lineAt (lines body) (b - 1)).stop = place b := by
    intro a b hab hb
    have hmeet := (hmeets.2.2.2 (b - 1) (by omega)).2
    rw [Nat.sub_add_cancel (Nat.one_le_of_lt hab)] at hmeet
    exact hmeet
  have hplace : ∀ i j, i < j → j ≤ sec.last → place i < place j := fun i j hij hj =>
    hmeets.2.2.1 i j hij (hj.trans hlast)
  have hwhole : ∀ a b, a < b → b ≤ sec.last → total Line.size (lines body) a b ≤ MAX_FRAGMENT_BYTES →
      Whole body ((lineAt (lines body) a).start, (lineAt (lines body) (b - 1)).stop, sec.trail) := by
    intro a b hab hb hfit
    refine ⟨?_, htrail⟩
    show size (slice body (lineAt (lines body) a).start (lineAt (lines body) (b - 1)).stop) ≤ MAX_FRAGMENT_BYTES
    rw [hstart a b hab hb, hstop a b hab hb, size_lines hmeets hab.le (hb.trans hlast)]
    exact hfit
  unfold windows
  split
  · next hshort =>
    rw [sizeBetween_eq (le_refl _) hlt.le (le_refl _)] at hshort
    refine ⟨⟨_, [], rfl, hstart _ _ hlt (le_refl _), ?_, hstop _ _ hlt (le_refl _)⟩, fun span hspan => ?_⟩
    · show (lineAt (lines body) sec.first).start < (lineAt (lines body) (sec.last - 1)).stop
      rw [hstart _ _ hlt (le_refl _), hstop _ _ hlt (le_refl _)]
      exact hplace _ _ hlt (le_refl _)
    · rw [List.mem_singleton.mp hspan]
      exact hwhole _ _ hlt (le_refl _) hshort.2
  · obtain ⟨⟨rest, hwindows, hlaps⟩, hfits⟩ := windowsFrom_laps (held_lines body) hlast (le_refl sec.first) hlt
    have hle := hlaps.le
    rw [hwindows] at hfits ⊢
    refine ⟨⟨_, _, List.map_cons, hstart _ _ hlaps.lt (hle _ List.mem_cons_self).2, ?_⟩, fun span hspan => ?_⟩
    · refine hlaps.map (f := fun w => ((lineAt (lines body) w.1).start, (lineAt (lines body) (w.2 - 1)).stop, sec.trail))
        hplace (fun w hw hw' => ?_) fun w hw hw' => ?_
      · exact hstart w.1 w.2 hw hw'
      · exact hstop w.1 w.2 hw hw'
    · obtain ⟨w, hw, rfl⟩ := List.mem_map.mp hspan
      exact hwhole w.1 w.2 (hle w hw).1 (hle w hw).2 (hfits w hw)

end

theorem lines_ne_nil {body : Text} (h : body ≠ []) : lines body ≠ [] := by
  intro hnil
  have htiles := (lines_tiles body).1
  rw [hnil] at htiles
  exact h (List.length_eq_zero_iff.mp htiles.symm)

/-- the spans of all sections -/
theorem spans_laps {body : Text} (h : body ≠ []) (source : Bool) :
    (∃ y ys, (merged (sections body (lines body) source) (lines body)).flatMap (windows (lines body)) = y :: ys ∧
      y.1 = 0 ∧ Laps (fun s : ℕ × ℕ × Text => s.1) (fun s => s.2.1) body.length y ys) ∧
    ∀ span ∈ (merged (sections body (lines body) source) (lines body)).flatMap (windows (lines body)), Whole body span := by
  obtain ⟨place, hmeets⟩ := exists_meets body
  have hlines := lines_ne_nil h
  obtain ⟨hsections, hshort⟩ := sections_tiles body hlines source
  obtain ⟨htiles, htrail⟩ := merged_tiles (lines body) hsections hshort
  have hsec : ∀ sec ∈ merged (sections body (lines body) source) (lines body),
      sec.first < sec.last ∧ sec.last ≤ (lines body).length := fun sec hsec => (htiles.mem hsec).2
  refine ⟨?_, fun span hspan => ?_⟩
  · have hne : merged (sections body (lines body) source) (lines body) ≠ [] := by
      intro hnil
      rw [hnil] at htiles
      exact hlines (List.length_eq_zero_iff.mp htiles.symm)
    obtain ⟨y, ys, hy, hstart, hlaps⟩ := htiles.laps hne fun sec hmem =>
      (windows_laps hmeets (hsec sec hmem).1 (hsec sec hmem).2 (htrail sec hmem)).1
    rw [hmeets.1] at hstart
    rw [hmeets.2.1] at hlaps
    exact ⟨y, ys, hy, hstart, hlaps⟩
  · obtain ⟨sec, hmem, hspan⟩ := List.mem_flatMap.mp hspan
    exact (windows_laps hmeets (hsec sec hmem).1 (hsec sec hmem).2 (htrail sec hmem)).2 span hspan

theorem fragment_laps {body : Text} (h : body ≠ []) (source : Bool) :
    (∃ y ys, fragment body source = y :: ys ∧ y.start = 0 ∧
      Laps Fragment.start Fragment.stop body.length y ys) ∧
    (fragment body source).map Fragment.ordinal = List.range (fragment body source).length ∧
    ∀ f ∈ fragment body source, f.text = slice body f.start f.stop ∧ size f.text ≤ MAX_FRAGMENT_BYTES ∧
      f.trail.length ≤ TRAIL_CHARS := by
  have hlength : 0 < body.length := List.length_pos_iff.mpr h
  unfold fragment
  rw [if_neg (by rw [List.isEmpty_iff]; exact h)]
  dsimp only
  split
  · next hshort =>
    refine ⟨⟨_, [], rfl, rfl, hlength, rfl⟩, rfl, fun f hf => ?_⟩
    rw [List.mem_singleton.mp hf]
    refine ⟨?_, hshort.2, Nat.zero_le _⟩
    show body = slice body 0 body.length
    rw [slice, List.take_length, List.drop_zero]
  · obtain ⟨⟨y, ys, hy, hstart, hlaps⟩, hwhole⟩ := spans_laps h source
    generalize (merged (sections body (lines body) source) (lines body)).flatMap (windows (lines body)) = spans at hy hwhole ⊢
    refine ⟨?_, ?_, fun f hf => ?_⟩
    · subst hy
      rw [List.mapIdx_cons]
      refine ⟨_, _, rfl, hstart, hlaps.congr ?_⟩
      refine congrArg (List.cons (y.1, y.2.1)) (List.ext_getElem ?_ fun i hi hi' => ?_)
      · rw [List.length_map, List.length_mapIdx, List.length_map]
      · rw [List.getElem_map, List.getElem_mapIdx, List.getElem_map]
    · refine List.ext_getElem ?_ fun i hi hi' => ?_
      · rw [List.length_map, List.length_range]
      · rw [List.getElem_map, List.getElem_mapIdx, List.getElem_range]
    · obtain ⟨i, hi, rfl⟩ := List.mem_mapIdx.mp hf
      obtain ⟨hsize, htrail⟩ := hwhole spans[i] (List.getElem_mem hi)
      exact ⟨rfl, hsize, htrail⟩

/-- numbered from 0, from the start of the body to its end, each past the one before at both ends and none after a
gap; the text at its place, within the bytes of a fragment and, with any title, of the embedding model -/
theorem fragments_tile {body : Text} (h : body ≠ []) (source : Bool) :
    (fragment body source).map Fragment.ordinal = List.range (fragment body source).length ∧
    (fragment body source).head?.map Fragment.start = some 0 ∧
    (fragment body source).getLast?.map Fragment.stop = some body.length ∧
    (fragment body source).Pairwise (fun f g => f.start < g.start ∧ f.stop < g.stop) ∧
    (fragment body source).IsChain (fun f g => g.start ≤ f.stop) ∧
    (∀ i < body.length, ∃ f ∈ fragment body source, f.start ≤ i ∧ i < f.stop) ∧
    ∀ f ∈ fragment body source, f.start < f.stop ∧ f.stop ≤ body.length ∧ f.text = slice body f.start f.stop ∧
      size f.text ≤ MAX_FRAGMENT_BYTES ∧ ∀ title, size (embedText title f) ≤ WHOLE_SAFE_BYTES := by
  obtain ⟨⟨y, ys, hy, hstart, hlaps⟩, hordinal, htext⟩ := fragment_laps h source
  refine ⟨hordinal, ?_, ?_, ?_, ?_, fun i hi => ?_, fun f hf => ?_⟩
  · rw [hy]
    exact congrArg some hstart
  · rw [hy]
    exact hlaps.getLast
  · rw [hy]
    exact hlaps.pairwise
  · rw [hy]
    exact hlaps.isChain
  · rw [hy]
    exact hlaps.exists_mem (hstart.symm ▸ Nat.zero_le i) hi
  · obtain ⟨hslice, hsize, htrail⟩ := htext f hf
    rw [hy] at hf
    obtain ⟨hlt, hle⟩ := hlaps.le f hf
    exact ⟨hlt, hle, hslice, hsize, size_embedText htrail hsize⟩

theorem fragments_tile_short : (fragment "# T".toList true).getLast?.map Fragment.stop = some "# T".toList.length :=
  (fragments_tile (by decide) true).2.2.1

end Fragments
