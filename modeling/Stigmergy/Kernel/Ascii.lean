import Mathlib.Data.Char
import Stigmergy.Kernel.Runtime

/-!
# A runtime for ASCII texts

Front matter of one `key: value` a line.  A value in quotes is a string, in brackets a list; `null` and
days are read without quotes.  What is dumped is in quotes.

* `unquote_quote`   a quoted string is read to its closing quote;
* `load_dump`       plain front matter is loaded as it was dumped;
* `ascii`           the runtime.
-/

set_option linter.unusedSectionVars false

namespace Ascii

def lowerChar (c : Char) : Char := if 'A' ≤ c ∧ c ≤ 'Z' then Char.ofNat (c.toNat + 32) else c

def isDigit (c : Char) : Bool := '0' ≤ c && c ≤ '9'

def isAlnum (c : Char) : Bool := isDigit c || ('a' ≤ lowerChar c && lowerChar c ≤ 'z')

/-- `dddd-dd-dd` -/
def isDay : Text → Bool
  | [a, b, c, d, '-', e, f, '-', g, h] => [a, b, c, d, e, f, g, h].all isDigit
  | _ => false

def capitals : Text := "ABCDEFGHIJKLMNOPQRSTUVWXYZ".toList

theorem lowerChar_or (c : Char) : lowerChar c = c ∨ c ∈ capitals := by
  unfold lowerChar
  split
  · rename_i h
    have hall : ∀ n ≤ 90, 65 ≤ n → Char.ofNat n ∈ capitals := by decide
    have hmem := hall c.toNat h.2 h.1
    rw [Char.ofNat_toNat] at hmem
    exact Or.inr hmem
  · exact Or.inl rfl

theorem lowerChar_lowerChar (c : Char) : lowerChar (lowerChar c) = lowerChar c := by
  rcases lowerChar_or c with h | h
  · rw [h, h]
  · have hall : ∀ d ∈ capitals, lowerChar (lowerChar d) = lowerChar d := by decide
    exact hall c h

/-! ## strings in quotes -/

def escapeChar (c : Char) : Text :=
  if c = '\n' then ['\\', 'n']
  else if c = '\r' then ['\\', 'r']
  else if c = '"' ∨ c = '\\' then ['\\', c]
  else [c]

def unescapeChar (c : Char) : Char := if c = 'n' then '\n' else if c = 'r' then '\r' else c

def quote (s : Text) : Text := '"' :: s.flatMap escapeChar ++ ['"']

/-- the string up to the closing quote, and the text after it -/
def unquote : Text → Text × Text
  | [] => ([], [])
  | '"' :: t => ([], t)
  | '\\' :: c :: t => (unescapeChar c :: (unquote t).1, (unquote t).2)
  | c :: t => (c :: (unquote t).1, (unquote t).2)

theorem unquote_quote (s t : Text) : unquote (s.flatMap escapeChar ++ '"' :: t) = (s, t) := by
  induction s with
  | nil => rfl
  | cons c s ih =>
    rw [List.flatMap_cons, List.append_assoc]
    by_cases hn : c = '\n'
    · have hesc : escapeChar c = ['\\', 'n'] := if_pos hn
      rw [hesc, List.cons_append, List.singleton_append, unquote, ih, hn]
      rfl
    by_cases hr : c = '\r'
    · have hesc : escapeChar c = ['\\', 'r'] := (if_neg hn).trans (if_pos hr)
      rw [hesc, List.cons_append, List.singleton_append, unquote, ih, hr]
      rfl
    · by_cases hq : c = '"' ∨ c = '\\'
      · have hesc : escapeChar c = ['\\', c] := (if_neg hn).trans ((if_neg hr).trans (if_pos hq))
        have hself : unescapeChar c = c := by
          rcases hq with rfl | rfl <;> rfl
        rw [hesc, List.cons_append, List.singleton_append, unquote, ih, hself]
      · have hesc : escapeChar c = [c] := (if_neg hn).trans ((if_neg hr).trans (if_neg hq))
        rw [not_or] at hq
        have hstep : ∀ u, unquote (c :: u) = (c :: (unquote u).1, (unquote u).2) := by
          intro u
          rw [unquote]
          · exact fun e => hq.1 e
          · exact fun d u' e => absurd e hq.2
        rw [hesc, List.singleton_append, hstep, ih]

/-- the line ends are escaped -/
theorem line_end_escape {c : Char} (h : c = '\n' ∨ c = '\r') (s : Text) : c ∉ s.flatMap escapeChar := by
  intro hc
  obtain ⟨d, -, hd⟩ := List.mem_flatMap.mp hc
  have hslash : c ≠ '\\' ∧ c ≠ 'n' ∧ c ≠ 'r' := by
    rcases h with rfl | rfl <;> decide
  unfold escapeChar at hd
  split at hd
  · simp only [List.mem_cons, List.not_mem_nil, or_false] at hd
    exact hd.elim hslash.1 hslash.2.1
  · rename_i hn
    split at hd
    · simp only [List.mem_cons, List.not_mem_nil, or_false] at hd
      exact hd.elim hslash.1 hslash.2.2
    · rename_i hr
      have hne : c ≠ d := by
        rintro rfl
        exact h.elim hn hr
      split at hd
      · simp only [List.mem_cons, List.not_mem_nil, or_false] at hd
        exact hd.elim hslash.1 hne
      · exact hne (List.mem_singleton.mp hd)

theorem line_end_quote {c : Char} (h : c = '\n' ∨ c = '\r') (s : Text) : c ∉ quote s := by
  have hquote : c ≠ '"' := by
    rcases h with rfl | rfl <;> decide
  intro hc
  rcases List.mem_append.mp hc with hc | hc
  · rcases List.mem_cons.mp hc with e | hc
    · exact hquote e
    · exact line_end_escape h s hc
  · exact hquote (List.mem_singleton.mp hc)

/-! ## values -/

/-- a scalar without quotes -/
def scalar (t : Text) : Yaml :=
  if t = "null".toList then .null else if isDay t then .date t t else .str t

def showList (ss : List Text) : Text := [','].intercalate ss

/-- the items of a list, each before a comma -/
def items : ℕ → Text → List Yaml
  | 0, _ => []
  | k + 1, t =>
    match Text.lstrip t with
    | [] => []
    | '"' :: u => .str (unquote u).1 :: items k (((unquote u).2.dropWhile (· != ',')).drop 1)
    | u =>
      scalar (Text.rstrip (u.takeWhile (· != ','))) :: items k ((u.dropWhile (· != ',')).drop 1)

def value (t : Text) : Yaml :=
  match t with
  | '"' :: u => .str (unquote u).1
  | '[' :: u =>
    let found := items u.length u.dropLast
    .list found (showList (found.filterMap Yaml.asStr))
  | t => scalar t

/-- `key: value` lines -/
def entry (line : Text) : Option (Text × Yaml) :=
  (Text.find ": ".toList line).map fun e => (e.1, value e.2)

def load (block : Text) : Option (Yaml ⊕ Metadata) :=
  some (.inr ((Text.linesOf block).filterMap entry))

/-! ## dumping -/

def dumpValue : Yaml → Text
  | .null => "null".toList
  | .str s => quote s
  | .list items _ => '[' :: (items.filterMap Yaml.asStr).flatMap (fun s => quote s ++ [',']) ++ [']']
  | .date day _ => day
  | .map _ shown => shown
  | .scalar _ shown => shown

def dumpEntry (e : Text × Yaml) : Text := e.1 ++ ": ".toList ++ dumpValue e.2

def dump (m : Metadata) : Text := Text.unlines (m.map dumpEntry)

theorem items_dump (ss : List Text) {k : ℕ} (hk : ss.length ≤ k) :
    items k (ss.flatMap fun s => quote s ++ [',']) = ss.map Yaml.str := by
  induction ss generalizing k with
  | nil =>
    cases k with
    | zero => rfl
    | succ k => rfl
  | cons s ss ih =>
    cases k with
    | zero => exact absurd hk (by simp)
    | succ k =>
      have happ : ((s :: ss).flatMap fun s => quote s ++ [',']) =
          '"' :: (s.flatMap escapeChar ++ '"' :: (',' :: ss.flatMap fun s => quote s ++ [','])) := by
        rw [List.flatMap_cons]
        simp [quote]
      rw [happ, items, Text.lstrip_eq_self rfl]
      simp only [unquote_quote, List.map_cons]
      have hk' : ss.length ≤ k := by simpa using hk
      rw [← ih hk']
      rfl

theorem value_dumpValue {v : Yaml} (h : v.Plain showList) : value (dumpValue v) = v := by
  cases h with
  | null => rfl
  | str s =>
    show Yaml.str (unquote (s.flatMap escapeChar ++ ['"'])).1 = _
    rw [unquote_quote]
  | list ss =>
    have hstrings : (ss.map Yaml.str).filterMap Yaml.asStr = ss := by
      rw [List.filterMap_map]
      exact List.filterMap_some
    have hfuel : ss.length ≤ ((ss.flatMap fun s => quote s ++ [',']) ++ [']']).length := by
      induction ss with
      | nil => exact Nat.zero_le _
      | cons s ss ih =>
        have hrest := ih (by rw [List.filterMap_map]; exact List.filterMap_some)
        simp only [List.flatMap_cons, List.length_append, List.length_cons, List.length_nil] at hrest ⊢
        omega
    have hdrop : ((ss.flatMap fun s => quote s ++ [',']) ++ [']']).dropLast =
        ss.flatMap fun s => quote s ++ [','] := List.dropLast_concat
    rw [dumpValue, hstrings, List.cons_append]
    show Yaml.list (items _ (List.dropLast _)) (showList ((items _ (List.dropLast _)).filterMap _)) = _
    rw [hdrop, items_dump ss hfuel, hstrings]

theorem line_end_dumpValue {c : Char} (hc : c = '\n' ∨ c = '\r') {v : Yaml} (h : v.Plain showList) :
    c ∉ dumpValue v := by
  have hother : c ∉ "null".toList ∧ c ≠ '[' ∧ c ≠ ']' ∧ c ≠ ',' := by
    rcases hc with rfl | rfl <;> decide
  cases h with
  | null => exact hother.1
  | str s => exact line_end_quote hc s
  | list ss =>
    intro hn
    rcases List.mem_append.mp hn with hn | hn
    · rcases List.mem_cons.mp hn with e | hn
      · exact hother.2.1 e
      · obtain ⟨s, -, hs⟩ := List.mem_flatMap.mp hn
        rcases List.mem_append.mp hs with hs | hs
        · exact line_end_quote hc s hs
        · exact hother.2.2.2 (List.mem_singleton.mp hs)
    · exact hother.2.2.1 (List.mem_singleton.mp hn)

theorem dumpValue_last {v : Yaml} (h : v.Plain showList) :
    ∃ init c, dumpValue v = init ++ [c] ∧ Text.isSpace c = false := by
  cases h with
  | null => exact ⟨"nul".toList, 'l', rfl, rfl⟩
  | str s => exact ⟨'"' :: s.flatMap escapeChar, '"', rfl, rfl⟩
  | list ss => exact ⟨_, ']', rfl, rfl⟩

theorem find_colon {key : Text} (h : ':' ∉ key) (t : Text) :
    Text.find ": ".toList (key ++ ": ".toList ++ t) = some (key, t) := by
  induction key with
  | nil => rfl
  | cons c key ih =>
    have hc : c ≠ ':' := fun e => h (by rw [e]; exact List.mem_cons_self)
    have hkey : ':' ∉ key := fun hm => h (List.mem_cons_of_mem c hm)
    have hne : ((": ".toList).isPrefixOf (c :: (key ++ ": ".toList ++ t))) = false := by
      show ((':' == c) && _) = false
      rw [beq_eq_false_iff_ne.mpr (Ne.symm hc)]
      rfl
    rw [List.cons_append, List.cons_append, Text.find, if_neg (by rw [hne]; exact Bool.false_ne_true),
      ih hkey]
    rfl

theorem entry_dumpEntry {e : Text × Yaml} (hv : e.2.Plain showList)
    (hk : ∀ c ∈ e.1, ('a' ≤ c ∧ c ≤ 'z') ∨ c = '_') : entry (dumpEntry e) = some e := by
  have hcolon : ':' ∉ e.1 := fun h => absurd (hk ':' h) (by decide)
  unfold entry dumpEntry
  rw [find_colon hcolon, Option.map_some, value_dumpValue hv]

/-- a line that does not begin with a dash -/
structure Entry (l : Text) : Prop where
  clean : '\n' ∉ l
  ne : l ≠ []
  head : l.head? ≠ some '-'

theorem entry_line {e : Text × Yaml} (hv : e.2.Plain showList)
    (hk : ∀ c ∈ e.1, ('a' ≤ c ∧ c ≤ 'z') ∨ c = '_') : Entry (dumpEntry e) := by
  have hnot : ∀ d, ¬ (('a' ≤ d ∧ d ≤ 'z') ∨ d = '_') → d ∉ e.1 := fun d hd hmem => hd (hk d hmem)
  unfold dumpEntry
  refine ⟨fun h => ?_, ?_, ?_⟩
  · rcases List.mem_append.mp h with h | h
    · rcases List.mem_append.mp h with h | h
      · exact hnot '\n' (by decide) h
      · exact absurd h (by decide)
    · exact line_end_dumpValue (Or.inl rfl) hv h
  · simp
  · cases hkey : e.1 with
    | nil => exact nofun
    | cons c key =>
      intro h
      refine hnot '-' (by decide) ?_
      rw [hkey, ← Option.some.inj h]
      exact List.mem_cons_self

theorem find_step {p t : Text} {c : Char} (h : p.isPrefixOf (c :: t) = false) :
    Text.contains p (c :: t) = Text.contains p t := by
  unfold Text.contains
  rw [Text.find, if_neg (by rw [h]; exact Bool.false_ne_true), Option.isSome_map]

theorem contains_fence {ls : List Text} (h : ∀ l ∈ ls, Entry l) :
    Text.contains "\n---".toList (Text.unlines ls) = false := by
  induction ls with
  | nil => rfl
  | cons l ls ih =>
    have hl := h l List.mem_cons_self
    have hrest := ih fun m hm => h m (List.mem_cons_of_mem l hm)
    -- no newline in the line itself
    have hskip : ∀ (s u : Text), '\n' ∉ s →
        Text.contains "\n---".toList (s ++ u) = Text.contains "\n---".toList u := by
      intro s u hs
      induction s with
      | nil => rfl
      | cons c s ihs =>
        have hc : ('\n' == c) = false :=
          beq_eq_false_iff_ne.mpr fun e => hs (by rw [e]; exact List.mem_cons_self)
        rw [List.cons_append, find_step, ihs fun hm => hs (List.mem_cons_of_mem c hm)]
        show (('\n' == c) && _) = false
        rw [hc]
        rfl
    cases ls with
    | nil =>
      rw [Text.unlines_singleton]
      have hself := hskip l [] hl.clean
      rwa [List.append_nil] at hself
    | cons m ls =>
      have hm := h m (List.mem_cons_of_mem l List.mem_cons_self)
      rw [Text.unlines_cons (List.cons_ne_nil m ls), hskip l _ hl.clean, find_step, hrest]
      have hhead := Text.head?_unlines_cons hm.ne ls
      cases hu : Text.unlines (m :: ls) with
      | nil => rfl
      | cons d u =>
        rw [hu, List.head?_cons] at hhead
        have hd : ('-' == d) = false := by
          refine beq_eq_false_iff_ne.mpr fun e => hm.head ?_
          rw [← hhead, e]
        show (('\n' == '\n') && (('-' == d) && _)) = false
        rw [hd]
        rfl

theorem rstrip_dump {m : Metadata} (h : m.Plain showList) : Text.rstrip (dump m) = dump m := by
  cases m using List.reverseRecOn with
  | nil => rfl
  | append_singleton m e =>
    have hv := h.values e (List.mem_append_right m (List.mem_singleton_self e))
    have hk := h.keys e (List.mem_append_right m (List.mem_singleton_self e))
    obtain ⟨init, c, hc, hsp⟩ := dumpValue_last hv
    have hlast := Text.getLast?_unlines_append (entry_line hv hk).ne (m.map dumpEntry)
    refine Text.rstrip_eq_self fun hne => ?_
    have hdump : dump (m ++ [e]) = Text.unlines (m.map dumpEntry ++ [dumpEntry e]) := by
      unfold dump
      rw [List.map_append]
      rfl
    have hget : (dump (m ++ [e])).getLast? = some c := by
      rw [hdump, hlast]
      unfold dumpEntry
      rw [hc, ← List.append_assoc, List.getLast?_concat]
    rw [List.getLast?_eq_some_getLast hne] at hget
    rw [Option.some.inj hget]
    exact hsp

theorem load_dump (m : Metadata) (h : m.Plain showList) :
    load (Text.rstrip (dump m)) = some (.inr m) ∧
      Text.contains "\n---".toList (Text.rstrip (dump m)) = false := by
  have hlines : ∀ l ∈ m.map dumpEntry, Entry l := fun l hl => by
    obtain ⟨e, he, rfl⟩ := List.mem_map.mp hl
    exact entry_line (h.values e he) (h.keys e he)
  rw [rstrip_dump h]
  refine ⟨?_, contains_fence hlines⟩
  unfold load
  cases m with
  | nil => rfl
  | cons e m =>
    rw [dump, Text.linesOf_unlines (fun l hl => (hlines l hl).clean) (List.cons_ne_nil _ _),
      List.filterMap_map]
    have hall : (e :: m).filterMap (entry ∘ dumpEntry) = e :: m := by
      have hsome : (e :: m).filterMap (entry ∘ dumpEntry) = (e :: m).filterMap some :=
        List.filterMap_congr fun f hf => entry_dumpEntry (h.values f hf) (h.keys f hf)
      rw [hsome]
      exact List.filterMap_some
    rw [hall]

/-- a dump has no carriage return -/
theorem return_dump {m : Metadata} (h : m.Plain showList) : '\r' ∉ dump m := by
  have hlines : ∀ ls : List Text, (∀ l ∈ ls, '\r' ∉ l) → '\r' ∉ Text.unlines ls := by
    intro ls hls
    induction ls with
    | nil => exact List.not_mem_nil
    | cons l ls ih =>
      have hl := hls l List.mem_cons_self
      cases ls with
      | nil =>
        rw [Text.unlines_singleton]
        exact hl
      | cons k ls =>
        rw [Text.unlines_cons (List.cons_ne_nil k ls)]
        intro hmem
        rcases List.mem_append.mp hmem with hmem | hmem
        · exact hl hmem
        · rcases List.mem_cons.mp hmem with e | hmem
          · exact absurd e (by decide)
          · exact ih (fun l' hl' => hls l' (List.mem_cons_of_mem l hl')) hmem
  refine hlines _ fun l hl => ?_
  obtain ⟨e, he, rfl⟩ := List.mem_map.mp hl
  have hkey : '\r' ∉ e.1 := fun hmem => absurd (h.keys e he '\r' hmem) (by decide)
  intro hmem
  rcases List.mem_append.mp hmem with hmem | hmem
  · rcases List.mem_append.mp hmem with hmem | hmem
    · exact hkey hmem
    · exact absurd hmem (by decide)
  · exact line_end_dumpValue (Or.inr rfl) (h.values e he) hmem

/-- a text from its lines -/
def text (lines : List String) : Text := lines.flatMap fun line => line.toList ++ ['\n']

/-- a note for everyone, with more front matter -/
def note (title : String) (extra : List String) (body : String) : Text :=
  text (["---", "id: page_" ++ title, "type: note", "title: " ++ title, "status: seed",
    "created: 2024-01-01", "updated: 2024-01-01", "acl: null", "sources: []"] ++ extra ++
    ["---", "", "# " ++ title, "", body])

def digit (c : Char) : ℕ := c.toNat - '0'.toNat

/-- the number a text of digits shows -/
def number (t : Text) : ℕ := t.foldl (fun n c => 10 * n + digit c) 0

/-- the month and the title of a source -/
def provenance (m : Metadata) : Option (ℕ × ℕ × Option Text) :=
  let day := (m.get "captured_at").shown
  if isDay day then some (number (day.take 4), number ((day.drop 5).take 2), (m.get "title").asStr)
  else none

end Ascii

def ascii : Runtime where
  lower := fun t => t.map Ascii.lowerChar
  casefold := fun t => t.map Ascii.lowerChar
  nfc := id
  nfkc := id
  nfkdAscii := fun t => t.filter fun c => c.toNat < 128
  isDecimal := Ascii.isDigit
  isAlnum := Ascii.isAlnum
  digit := Ascii.digit
  sha256 := id
  repr := fun t => '\'' :: t ++ ['\'']
  showList := Ascii.showList
  isoDate := fun t => if Ascii.isDay t then some t else none
  safeLoad := Ascii.load
  dump := Ascii.dump
  askedForAnAudience := fun _ => false
  provenance := Ascii.provenance
  artifactsError := fun _ => none
  nfkc_append_blank := fun _ w hw => ⟨w, hw, rfl⟩
  load_dump := Ascii.load_dump
