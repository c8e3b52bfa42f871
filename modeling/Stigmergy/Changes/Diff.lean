import Stigmergy.Lib.Lines
import Stigmergy.Lib.Shell

/-!
# Patches by path

`path_patches` of `changes/diff.py`, on what `git diff --no-renames` writes with `core.quotePath=false`.

* `Patch`            the paths that changed, and the lines under each header;
* `pathPatches`      the sections by the path of their header;
* `headerPath_header_iff`   when a header gives its own path back;
* `first_line`       the first line Python sees of a section;
* `split_iff`        the split is a partition of the patch just when every path is read back, no path has two
                     sections and no line of content holds a header after a line end that Git does not count.
-/

set_option linter.unusedSectionVars false

namespace Diff

def HEADER : Text := "diff --git ".toList

/-! ## what Git writes -/

def isControl (c : Char) : Bool := c.toNat < 32 || c.toNat == 127

/-- what is in quotes whatever `core.quotePath` says -/
def isUnusual (c : Char) : Bool := isControl c || c == '"' || c == '\\'

def octal (n : ℕ) : Char := Char.ofNat (48 + n % 8)

/-- a character as C writes it in a string -/
def escape (c : Char) : Text :=
  if c = '"' ∨ c = '\\' then ['\\', c]
  else if c.toNat = 7 then ['\\', 'a']
  else if c.toNat = 8 then ['\\', 'b']
  else if c.toNat = 9 then ['\\', 't']
  else if c.toNat = 10 then ['\\', 'n']
  else if c.toNat = 11 then ['\\', 'v']
  else if c.toNat = 12 then ['\\', 'f']
  else if c.toNat = 13 then ['\\', 'r']
  else if isControl c then ['\\', octal (c.toNat / 64), octal (c.toNat / 8), octal c.toNat]
  else [c]

def quotePath (name : Text) : Text := if name.any isUnusual then '"' :: name.flatMap escape ++ ['"'] else name

def header (path : Text) : Text :=
  HEADER ++ quotePath ("a/".toList ++ path) ++ ' ' :: quotePath ("b/".toList ++ path)

/-- the lines under a header, which Git starts with something else -/
structure Part where
  lines : List Text
  newline : ∀ l ∈ lines, '\n' ∉ l
  content : ∀ l ∈ lines, Text.startsWith HEADER l = false

/-- a path that changed; one that became another type of file is removed and made anew -/
structure Change where
  path : Text
  first : Part
  others : List Part

structure Patch where
  changes : List Change
  distinct : (changes.map Change.path).Nodup

def Part.text (part : Part) (path : Text) : Text := header path ++ '\n' :: part.lines.flatMap (· ++ ['\n'])

def Change.text (c : Change) : Text := (c.first :: c.others).flatMap fun part => part.text c.path

def Patch.text (patch : Patch) : Text := patch.changes.flatMap Change.text

/-! ## `path_patches` -/

/-- the path before and after the first ` b/` that has the same on both sides -/
def search (raw : Text) : Option Text :=
  (List.range raw.length).findSome? fun index =>
    if Text.startsWith " b/".toList (raw.drop index) && (raw.take index).drop 2 == raw.drop (index + 3) then
      some (raw.drop (index + 3))
    else none

/-- the path a command line of four words names twice -/
def pathOfFields : List Text → Option Text
  | [diff, git, before, after] =>
    if diff = "diff".toList ∧ git = "--git".toList ∧ Text.startsWith "a/".toList before ∧
        Text.startsWith "b/".toList after ∧ before.drop 2 = after.drop 2 then
      some (after.drop 2)
    else none
  | _ => none

/-- `_header_path` -/
def headerPath (line : Text) : Option Text :=
  let raw := if Text.startsWith HEADER line then line.drop HEADER.length else line
  match pathOfFields ((Shell.split line).getD []) with
  | some path => some path
  | none => if Text.startsWith "a/".toList raw then search raw else none

abbrev Dict := List (Text × Text)

/-- `result[key] = value` -/
def put (d : Dict) (key value : Text) : Dict :=
  if d.any fun e => e.1 == key then d.map fun e => if e.1 == key then (e.1, value) else e else d ++ [(key, value)]

structure Reading where
  result : Dict
  path : Option Text
  lines : Text

/-- the section that is open, put under its path -/
def Reading.close (r : Reading) : Dict :=
  match r.path with
  | none => r.result
  | some path => put r.result path r.lines

def step (r : Reading) (line : Text) : Reading :=
  if Text.startsWith HEADER line then ⟨r.close, headerPath (line.rdropWhile (· == '\n')), line⟩
  else
    match r.path with
    | none => r
    | some path => ⟨r.result, some path, r.lines ++ line⟩

def pathPatches (patch : Text) : Dict := ((Text.keptLines patch).foldl step ⟨[], none, []⟩).close

/-- one entry for each path, in order, and under it that path's section -/
def Partition (patch : Patch) : Prop := pathPatches patch.text = patch.changes.map fun c => (c.path, c.text)

instance (patch : Patch) : Decidable (Partition patch) := inferInstanceAs (Decidable (_ = _))

/-! ## when a header is read back -/

/-- no line end and no control character, and where Git leaves it without quotes, no single word of a command line
that is another -/
def Readable (path : Text) : Prop :=
  (∀ c ∈ path, isControl c = false ∧ Text.isLineEnd c = false) ∧
    ((∀ c ∈ path, isUnusual c = false) →
      ∀ w, Shell.split ("a/".toList ++ path) = some [w] → w = "a/".toList ++ path)

/-- no line looks like a header after a line end that Git does not count -/
def Contained (part : Part) : Prop :=
  ∀ l ∈ part.lines, ∀ k ∈ Text.keptLines (l ++ ['\n']), Text.startsWith HEADER k = false

/-! ### names in quotes -/

/-- a character in double quotes, as the shell reads what Git wrote -/
def kept (c : Char) : Text := if c = '"' ∨ c = '\\' then [c] else escape c

/-- what is written after a backslash -/
def IsLetter (c : Char) : Prop := c ≠ '"' ∧ c ≠ '\\' ∧ isControl c = false ∧ Text.isLineEnd c = false

instance (c : Char) : Decidable (IsLetter c) := inferInstanceAs (Decidable (_ ∧ _))

theorem octal_plain (n : ℕ) : IsLetter (octal n) := by
  have hall : ∀ k < 8, IsLetter (Char.ofNat (48 + k)) := by decide
  exact hall (n % 8) (Nat.mod_lt n (by decide))

/-- a backslash and characters that are plain, or the character itself -/
theorem escape_cases {c : Char} (hc : ¬(c = '"' ∨ c = '\\')) :
    (∃ d ds, escape c = '\\' :: d :: ds ∧ isControl c = true ∧ ∀ e ∈ d :: ds, IsLetter e) ∨
    escape c = [c] ∧ isControl c = false := by
  have hletter : ∀ d : Char, IsLetter d → ∀ n : ℕ, n < 32 → c.toNat = n → escape c = ['\\', d] →
      ∃ d ds, escape c = '\\' :: d :: ds ∧ isControl c = true ∧ ∀ e ∈ d :: ds, IsLetter e := by
    intro d hd n hn hcn he
    refine ⟨d, [], he, ?_, fun e hed => ?_⟩
    · unfold isControl
      rw [hcn, decide_eq_true hn, Bool.true_or]
    · rw [List.mem_singleton.mp hed]
      exact hd
  by_cases h7 : c.toNat = 7
  · exact Or.inl (hletter 'a' (by decide) 7 (by decide) h7 (by simp [escape, hc, h7]))
  by_cases h8 : c.toNat = 8
  · exact Or.inl (hletter 'b' (by decide) 8 (by decide) h8 (by simp [escape, hc, h8]))
  by_cases h9 : c.toNat = 9
  · exact Or.inl (hletter 't' (by decide) 9 (by decide) h9 (by simp [escape, hc, h9]))
  by_cases h10 : c.toNat = 10
  · exact Or.inl (hletter 'n' (by decide) 10 (by decide) h10 (by simp [escape, hc, h10]))
  by_cases h11 : c.toNat = 11
  · exact Or.inl (hletter 'v' (by decide) 11 (by decide) h11 (by simp [escape, hc, h11]))
  by_cases h12 : c.toNat = 12
  · exact Or.inl (hletter 'f' (by decide) 12 (by decide) h12 (by simp [escape, hc, h12]))
  by_cases h13 : c.toNat = 13
  · exact Or.inl (hletter 'r' (by decide) 13 (by decide) h13 (by simp [escape, hc, h13]))
  have hescape : escape c =
      if isControl c then ['\\', octal (c.toNat / 64), octal (c.toNat / 8), octal c.toNat] else [c] := by
    unfold escape
    rw [if_neg hc, if_neg h7, if_neg h8, if_neg h9, if_neg h10, if_neg h11, if_neg h12, if_neg h13]
  rw [hescape]
  split
  · next hcontrol =>
    refine Or.inl ⟨_, _, rfl, hcontrol, fun e he => ?_⟩
    simp only [List.mem_cons, List.not_mem_nil, or_false] at he
    rcases he with rfl | rfl | rfl <;> exact octal_plain _
  · next hcontrol => exact Or.inr ⟨rfl, Bool.not_eq_true _ ▸ hcontrol⟩

theorem splitFrom_double_plain {ds : Text} (hds : ∀ e ∈ ds, e ≠ '"' ∧ e ≠ '\\') (word t : Text) :
    Shell.splitFrom .double (some word) (ds ++ t) = Shell.splitFrom .double (some (word ++ ds)) t := by
  induction ds generalizing word with
  | nil => rw [List.nil_append, List.append_nil]
  | cons d ds ih =>
    obtain ⟨hquote, hslash⟩ := hds d List.mem_cons_self
    rw [List.cons_append, Shell.splitFrom, if_neg hquote, if_neg hslash, Option.getD_some,
      ih fun e he => hds e (List.mem_cons_of_mem d he), List.append_assoc]
    rfl

theorem splitFrom_escape (c : Char) (word t : Text) :
    Shell.splitFrom .double (some word) (escape c ++ t) = Shell.splitFrom .double (some (word ++ kept c)) t := by
  unfold kept
  by_cases hc : c = '"' ∨ c = '\\'
  · rw [if_pos hc, escape, if_pos hc]
    show Shell.splitFrom .double (some word) ('\\' :: c :: t) = _
    rw [Shell.splitFrom, if_neg (by decide), if_pos rfl, Shell.splitFrom, if_pos hc]
    rfl
  · rw [if_neg hc]
    rcases escape_cases hc with ⟨d, ds, he, _, hplain⟩ | ⟨he, _⟩
    · obtain ⟨hd, hds⟩ := List.forall_mem_cons.mp hplain
      rw [he]
      show Shell.splitFrom .double (some word) ('\\' :: d :: (ds ++ t)) = _
      rw [Shell.splitFrom, if_neg (by decide), if_pos rfl, Shell.splitFrom, if_neg (not_or.mpr ⟨hd.1, hd.2.1⟩),
        splitFrom_double_plain fun e he => ⟨(hds e he).1, (hds e he).2.1⟩]
      simp
    · rw [he]
      exact splitFrom_double_plain (fun e he => by rw [List.mem_singleton.mp he]; exact not_or.mp hc) word t

theorem splitFrom_flatMap_escape (s word t : Text) :
    Shell.splitFrom .double (some word) (s.flatMap escape ++ t) =
      Shell.splitFrom .double (some (word ++ s.flatMap kept)) t := by
  induction s generalizing word with
  | nil => rw [List.flatMap_nil, List.flatMap_nil, List.nil_append, List.append_nil]
  | cons c s ih =>
    rw [List.flatMap_cons, List.append_assoc, splitFrom_escape, ih, List.flatMap_cons, List.append_assoc]

/-- a name in quotes is one word -/
theorem split_quoted (name : Text) : Shell.split ('"' :: name.flatMap escape ++ ['"']) = some [name.flatMap kept] := by
  show Shell.splitFrom .double (some []) (name.flatMap escape ++ ['"']) = _
  rw [splitFrom_flatMap_escape]
  rfl

theorem kept_eq {c : Char} (h : isControl c = false) : kept c = [c] := by
  unfold kept
  split
  · rfl
  · next hc =>
    rcases escape_cases hc with ⟨_, _, _, hcontrol, _⟩ | ⟨he, _⟩
    · rw [h] at hcontrol
      exact nomatch hcontrol
    · exact he

theorem flatMap_kept {s : Text} (h : ∀ c ∈ s, isControl c = false) : s.flatMap kept = s := by
  induction s with
  | nil => rfl
  | cons c s ih =>
    rw [List.flatMap_cons, kept_eq (h c List.mem_cons_self), ih fun d hd => h d (List.mem_cons_of_mem c hd)]
    rfl

/-- no control character is read back -/
theorem not_control_of_mem_kept {c e : Char} (h : e ∈ kept c) : isControl e = false := by
  unfold kept at h
  split at h
  · next hc =>
    rw [List.mem_singleton.mp h]
    rcases hc with rfl | rfl <;> decide
  · next hc =>
    rcases escape_cases hc with ⟨d, ds, he, _, hplain⟩ | ⟨he, hcontrol⟩
    · rw [he] at h
      rcases List.mem_cons.mp h with rfl | h
      · decide
      · exact (hplain e h).2.2.1
    · rw [he] at h
      rw [List.mem_singleton.mp h]
      exact hcontrol

/-! ### names without quotes -/

/-- two copies of a text around ` b/` are two copies of another around spaces and `b/` only if spaces end it -/
theorem halves {U A : Text} {k m : ℕ}
    (h : U ++ ' ' :: 'b' :: '/' :: U = A ++ (List.replicate (k + 1) ' ' ++ 'b' :: '/' :: (A ++ List.replicate m ' '))) :
    U = A ++ List.replicate m ' ' := by
  have hlength := congrArg List.length h
  simp only [List.length_append, List.length_cons, List.length_replicate] at hlength
  rcases List.append_eq_append_iff.mp h with ⟨B, hA, hrest⟩ | ⟨B, hU, hrest⟩
  · have hAlength := congrArg List.length hA
    rw [List.length_append] at hAlength
    have hB : B = [] := List.length_eq_zero_iff.mp (by omega)
    have hm : m = 0 := by omega
    rw [hm, hA, hB]
    simp
  · have hUlength := congrArg List.length hU
    rw [List.length_append] at hUlength
    rcases List.append_eq_append_iff.mp hrest with ⟨D, hD, hend⟩ | ⟨D, hD, hend⟩
    · -- the rest of the copy ends in itself, where there are only spaces
      exfalso
      have hDlength := congrArg List.length hD
      rw [List.length_append, List.length_replicate] at hDlength
      have hspaces : ∀ d ∈ D, d = ' ' := by
        have htail : ('b' :: '/' :: A) ++ List.replicate m ' ' = (D ++ ' ' :: 'b' :: '/' :: (A ++ List.replicate (k + 1) ' ')) ++ D := by
          rw [hU, hD] at hend
          simpa using hend
        rcases List.append_eq_append_iff.mp htail with ⟨E, _, he⟩ | ⟨E, _, he⟩
        · intro d hd
          exact List.eq_of_mem_replicate (he ▸ List.mem_append_right E hd)
        · have hElength := congrArg List.length he
          rw [List.length_append, List.length_replicate] at hElength
          omega
      cases D with
      | nil => exact absurd (List.cons_eq_cons.mp hend).1 (by decide)
      | cons d D =>
        have hb : 'b' = d := (List.cons_eq_cons.mp hend).1
        exact absurd (hspaces d List.mem_cons_self) (hb ▸ by decide)
    · cases D with
      | nil => exact absurd (List.cons_eq_cons.mp hend).1 (by decide)
      | cons d D =>
        obtain ⟨hd, hend⟩ := List.cons_eq_cons.mp hend
        cases D with
        | nil =>
          obtain ⟨_, hend⟩ := List.cons_eq_cons.mp hend
          exact (List.cons_eq_cons.mp hend).2
        | cons e D =>
          have he : e = ' ' := List.eq_of_mem_replicate
            (hD ▸ List.mem_append_right B (List.mem_cons_of_mem d List.mem_cons_self))
          exact absurd ((List.cons_eq_cons.mp hend).1.trans he) (by decide)

theorem simple_of_plain {s : Text} (h : ∀ c ∈ s, isUnusual c = false) : Shell.Simple s := by
  intro c hc
  have hplain := h c hc
  unfold isUnusual at hplain
  rw [Bool.or_eq_false_iff, Bool.or_eq_false_iff, beq_eq_false_iff_ne, beq_eq_false_iff_ne] at hplain
  refine ⟨hplain.1.2, hplain.2, fun hblank => ?_⟩
  unfold Shell.isBlank at hblank
  simp only [Bool.or_eq_true, beq_iff_eq] at hblank
  rcases hblank with ((h | h) | h) | h
  · exact h
  · exact absurd hplain.1.1 (by rw [h]; decide)
  · exact absurd hplain.1.1 (by rw [h]; decide)
  · exact absurd hplain.1.1 (by rw [h]; decide)

theorem split_HEADER (rest : Text) :
    Shell.split (HEADER ++ rest) = (Shell.split rest).map (["diff".toList, "--git".toList] ++ ·) := by
  have hdiff := Shell.splitFrom_append_blank (show Shell.splitFrom .plain none "diff".toList = some ["diff".toList] by decide)
  have hgit := Shell.splitFrom_append_blank (show Shell.splitFrom .plain none "--git".toList = some ["--git".toList] by decide)
  calc Shell.split (HEADER ++ rest)
      = (Shell.split ("--git".toList ++ ' ' :: rest)).map (["diff".toList] ++ ·) := hdiff _
    _ = ((Shell.split rest).map (["--git".toList] ++ ·)).map (["diff".toList] ++ ·) := by rw [← hgit]; rfl
    _ = (Shell.split rest).map (["diff".toList, "--git".toList] ++ ·) := by
      rw [Option.map_map]
      rfl

theorem pathOfFields_same (u : Text) :
    pathOfFields ["diff".toList, "--git".toList, "a/".toList ++ u, "b/".toList ++ u] = some u := by
  exact if_pos ⟨rfl, rfl, rfl, rfl, rfl⟩

/-- a word that has begun with a letter and a slash -/
theorem split_side (c : Char) (hc : Shell.isBlank c = false ∧ c ≠ '\'' ∧ c ≠ '"' ∧ c ≠ '\\') (s : Text) :
    Shell.split (c :: '/' :: s) = (Shell.splitFrom .plain (some []) s).map (Shell.prepend [c, '/']) := by
  obtain ⟨hblank, hs, hd, hb⟩ := hc
  rw [← Shell.splitFrom_prepend]
  show Shell.splitFrom .plain none (c :: '/' :: s) = _
  rw [Shell.splitFrom, if_neg (Bool.eq_false_iff.mp hblank), if_neg hs, if_neg hd, if_neg hb, Shell.splitFrom,
    if_neg (by decide), if_neg (by decide), if_neg (by decide), if_neg (by decide)]
  rfl

/-- the only place with the same on both sides is the middle -/
theorem search_sides (path : Text) : search ("a/".toList ++ path ++ " b/".toList ++ path) = some path := by
  unfold search
  set raw := "a/".toList ++ path ++ " b/".toList ++ path with hraw
  have hlength : raw.length = path.length * 2 + 5 := by
    simp [hraw]
    omega
  have hmiddle : raw.drop (path.length + 2) = " b/".toList ++ path := by
    rw [hraw, List.append_assoc]
    exact List.drop_left' (by simp)
  have hafter : raw.drop (path.length + 2 + 3) = path := by
    rw [← List.drop_drop, hmiddle]
    rfl
  have hbefore : (raw.take (path.length + 2)).drop 2 = path := by
    rw [hraw, List.append_assoc, List.take_left' (by simp)]
    rfl
  cases hfound : (List.range raw.length).findSome? fun index =>
      if Text.startsWith " b/".toList (raw.drop index) && (raw.take index).drop 2 == raw.drop (index + 3) then
        some (raw.drop (index + 3))
      else none with
  | none =>
    have hnone := List.findSome?_eq_none_iff.mp hfound (path.length + 2) (List.mem_range.mpr (by omega))
    rw [hbefore, hafter, hmiddle, beq_self_eq_true, Bool.and_true] at hnone
    exact nomatch hnone
  | some found =>
    obtain ⟨index, _, hindex⟩ := List.exists_of_findSome?_eq_some hfound
    split at hindex
    · next hsame =>
      obtain rfl := Option.some.inj hindex
      have hsides := congrArg List.length (beq_iff_eq.mp (Bool.and_eq_true_iff.mp hsame).2)
      rw [List.length_drop, List.length_drop, List.length_take] at hsides
      have hplace : index = path.length + 2 := by omega
      rw [hplace, hafter]
    · exact nomatch hindex

/-- the words that name a path -/
theorem pathOfFields_some {ws : List Text} {u : Text} (h : pathOfFields ws = some u) :
    ws = ["diff".toList, "--git".toList, "a/".toList ++ u, "b/".toList ++ u] := by
  unfold pathOfFields at h
  split at h
  · split at h
    · next hsides =>
      obtain ⟨rfl, rfl, hbefore, hafter, hsame⟩ := hsides
      obtain rfl := Option.some.inj h
      obtain ⟨x, rfl⟩ := List.isPrefixOf_iff_prefix.mp hbefore
      obtain ⟨y, rfl⟩ := List.isPrefixOf_iff_prefix.mp hafter
      have hx : x = y := hsame
      rw [hx]
      rfl
    · exact nomatch h
  · exact nomatch h

/-- two words, apart by spaces, make up a simple line -/
theorem laid_two {s before after : Text} (hs : Shell.Simple s) (hhead : s.head? = some 'a')
    (h : Shell.split s = some [before, after]) :
    ∃ k m, Shell.unquoted s = before ++ (List.replicate (k + 1) ' ' ++ (after ++ List.replicate m ' ')) := by
  obtain ⟨ws, word, quoted, hword, hsplit, n, v, hv, _, hlaid⟩ := Shell.reads_of_simple hs false none fun e => nomatch e
  have htext : Shell.unquoted s = v := by
    obtain ⟨t, rfl⟩ := List.head?_eq_some_iff.mp hhead
    cases n with
    | zero => exact hv
    | succ n => exact absurd (List.cons_eq_cons.mp hv).1 (by decide)
  have hall := hsplit []
  rw [List.append_nil] at hall
  have hwords := hall.symm.trans h
  cases quoted with
  | true => exact nomatch hwords
  | false =>
    have hwords : ws ++ word.toList = [before, after] := Option.some.inj hwords
    rw [htext]
    cases word with
    | none =>
      rw [Option.toList_none, List.append_nil] at hwords
      subst hwords
      obtain ⟨k, v', rfl, m, v'', rfl, hnil⟩ := hlaid
      have hnil : v'' = [] := hnil
      refine ⟨k, m + 1, ?_⟩
      rw [hnil, List.append_nil, List.append_assoc]
    | some word =>
      obtain ⟨rfl, hafter⟩ := List.append_inj' (show ws ++ [word] = [before] ++ [after] from hwords) rfl
      obtain rfl := List.singleton_inj.mp hafter
      obtain ⟨k, v', rfl, hend⟩ := hlaid
      have hend : v' = word := hend
      refine ⟨k, 0, ?_⟩
      rw [hend, List.append_assoc, List.replicate_zero, List.append_nil]

/-- where the quotes of a name are open at its end, the line names no path -/
theorem pathOfFields_open {path : Text} (hplain : ∀ c ∈ path, isUnusual c = false)
    (hopen : Shell.split ("a/".toList ++ path) = none) :
    pathOfFields ((Shell.split (HEADER ++ ("a/".toList ++ path ++ ' ' :: ("b/".toList ++ path)))).getD []) = none := by
  have hside : ∀ c ∈ "a/".toList ++ path, isUnusual c = false := by
    intro c hc
    rcases List.mem_append.mp hc with hc | hc
    · exact (show ∀ c ∈ "a/".toList, isUnusual c = false by decide) c hc
    · exact hplain c hc
  have hline : ∀ c ∈ "a/".toList ++ path ++ ' ' :: ("b/".toList ++ path), isUnusual c = false := by
    intro c hc
    rcases List.mem_append.mp hc with hc | hc
    · exact hside c hc
    rcases List.mem_append.mp (show c ∈ " b/".toList ++ path from hc) with hc | hc
    · exact (show ∀ c ∈ " b/".toList, isUnusual c = false by decide) c hc
    · exact hplain c hc
  cases hfields : pathOfFields ((Shell.split (HEADER ++ ("a/".toList ++ path ++ ' ' :: ("b/".toList ++ path)))).getD []) with
  | none => rfl
  | some u =>
    exfalso
    rw [split_HEADER] at hfields
    cases hsplit : Shell.split ("a/".toList ++ path ++ ' ' :: ("b/".toList ++ path)) with
    | none =>
      rw [hsplit] at hfields
      cases hfields
    | some fields =>
      rw [hsplit] at hfields
      obtain rfl : fields = ["a/".toList ++ u, "b/".toList ++ u] := List.append_cancel_left (pathOfFields_some hfields)
      -- the whole line is two words apart by spaces, which have to be the two sides
      obtain ⟨k, m, htwo⟩ := laid_two (simple_of_plain hline) rfl hsplit
      have hhalves : Shell.unquoted path = u ++ List.replicate m ' ' := by
        refine halves (k := k) ?_
        have hunquoted : Shell.unquoted ("a/".toList ++ path ++ ' ' :: ("b/".toList ++ path)) =
            "a/".toList ++ (Shell.unquoted path ++ ' ' :: 'b' :: '/' :: Shell.unquoted path) := by
          unfold Shell.unquoted
          rw [List.filter_append, List.filter_append, List.filter_cons, if_pos (by decide), List.filter_append,
            List.append_assoc]
          rfl
        rw [hunquoted, List.append_assoc] at htwo
        exact List.append_cancel_left htwo
      -- but the space in the middle is inside quotes
      obtain ⟨ws, word, quoted, hword, hreads, n, v, hv, _, hlaid⟩ :=
        Shell.reads_of_simple (simple_of_plain hside) false none (absurd · Bool.false_ne_true)
      have hv : Shell.unquoted ("a/".toList ++ path) = v := by
        cases n with
        | zero => exact hv
        | succ n => exact absurd (List.cons_eq_cons.mp hv).1 (by decide)
      have hv : v = "a/".toList ++ Shell.unquoted path := by
        rw [← hv]
        unfold Shell.unquoted
        rw [List.filter_append]
        rfl
      cases quoted with
      | false =>
        have hclosed := hreads []
        rw [List.append_nil] at hclosed
        cases hclosed.symm.trans hopen
      | true =>
        obtain ⟨c, rfl⟩ := Option.ne_none_iff_exists'.mp (hword rfl)
        have hrest : Shell.splitFrom .single (some c) (' ' :: ("b/".toList ++ path)) =
            (Shell.splitFrom .single (some []) path).map (Shell.prepend (c ++ " b/".toList)) := by
          rw [← Shell.splitFrom_prepend, List.append_nil]
          show Shell.splitFrom .single (some c) (' ' :: 'b' :: '/' :: path) = _
          rw [Shell.splitFrom, if_neg (by decide), Shell.splitFrom, if_neg (by decide), Shell.splitFrom,
            if_neg (by decide)]
          simp
        have hwords := (hreads (' ' :: ("b/".toList ++ path))).symm.trans hsplit
        obtain ⟨vs, hvs, hwords⟩ := Option.map_eq_some_iff.mp hwords
        obtain ⟨us, hus, rfl⟩ := Option.map_eq_some_iff.mp (hrest.symm.trans hvs)
        cases us with
        | nil => exact Shell.splitFrom_ne_nil _ _ _ hus
        | cons x us =>
          have hwords : ws ++ (c ++ " b/".toList ++ x) :: us = ["a/".toList ++ u, "b/".toList ++ u] := hwords
          rcases ws with _ | ⟨y, _ | ⟨z, ws⟩⟩
          · have hc : v = c := hlaid
            have hlong := congrArg List.length (List.cons_eq_cons.mp hwords).1
            have hshort := congrArg List.length hhalves
            have hcopy := congrArg List.length (hc.symm.trans hv)
            have hthree : " b/".toList.length = 3 := rfl
            rw [List.length_append, List.length_append, List.length_append, hthree] at hlong
            rw [List.length_append] at hshort hcopy
            omega
          · obtain ⟨n, v', hy, hc⟩ := hlaid
            have hc : v' = c := hc
            obtain ⟨hbefore, hwords⟩ := List.cons_eq_cons.mp hwords
            have hafter : c ++ " b/".toList ++ x = "b/".toList ++ u := (List.cons_eq_cons.mp hwords).1
            have hspaces : ∀ d ∈ c, d = ' ' := by
              intro d hd
              rw [hv, hhalves, hbefore, hc, List.append_assoc, List.append_assoc] at hy
              have hreplicate := List.append_cancel_left (List.append_cancel_left hy)
              exact List.eq_of_mem_replicate (hreplicate ▸ List.mem_append_right _ hd)
            cases c with
            | nil => exact absurd (List.cons_eq_cons.mp hafter).1 (by decide)
            | cons d c =>
              have hd := hspaces d List.mem_cons_self
              exact absurd (hd.symm.trans (List.cons_eq_cons.mp hafter).1) (by decide)
          · have hlong := congrArg List.length hwords
            simp only [List.length_append, List.length_cons, List.length_nil] at hlong
            omega

/-- what is read from the header of a plain path: the one word the shell sees in it, or the path -/
theorem headerPath_plain {path : Text} (hplain : ∀ c ∈ path, isUnusual c = false) :
    headerPath (header path) = some path ↔
      ∀ w, Shell.split ("a/".toList ++ path) = some [w] → w = "a/".toList ++ path := by
  have hquote : ∀ side : Text, (∀ c ∈ side, isUnusual c = false) → quotePath (side ++ path) = side ++ path := by
    intro side hside
    unfold quotePath
    rw [if_neg]
    intro hany
    obtain ⟨c, hc, hunusual⟩ := List.any_eq_true.mp hany
    rcases List.mem_append.mp hc with hc | hc
    · exact absurd (hside c hc) (Bool.not_eq_false _ ▸ hunusual)
    · exact absurd (hplain c hc) (Bool.not_eq_false _ ▸ hunusual)
  have hheader : header path = HEADER ++ ("a/".toList ++ path ++ ' ' :: ("b/".toList ++ path)) := by
    unfold header
    rw [hquote _ (by decide), hquote _ (by decide), List.append_assoc]
  have hraw : (if Text.startsWith HEADER (header path) then (header path).drop HEADER.length else header path) =
      "a/".toList ++ path ++ " b/".toList ++ path := by
    have hstarts : Text.startsWith HEADER (header path) = true := by
      rw [hheader]
      exact List.isPrefixOf_iff_prefix.mpr (List.prefix_append _ _)
    rw [if_pos hstarts, hheader, List.drop_left, List.append_assoc, List.append_assoc, List.append_assoc]
    rfl
  have hsearch : Text.startsWith "a/".toList ("a/".toList ++ path ++ " b/".toList ++ path) = true := rfl
  have hfallback : pathOfFields ((Shell.split (header path)).getD []) = none → headerPath (header path) = some path := by
    intro hnone
    unfold headerPath
    dsimp only
    rw [hnone, hraw, if_pos hsearch, search_sides]
  have hleft := split_side 'a' (by decide) path
  have hright := split_side 'b' (by decide) path
  cases hopen : Shell.splitFrom .plain (some []) path with
  | none =>
    rw [hopen] at hleft
    have hleft : Shell.split ("a/".toList ++ path) = none := hleft
    have hfields := pathOfFields_open hplain hleft
    rw [← hheader] at hfields
    rw [hfallback hfields, hleft]
    exact iff_of_true rfl fun w hw => nomatch hw
  | some us =>
    rw [hopen] at hleft hright
    have hleft : Shell.split ("a/".toList ++ path) = some (Shell.prepend "a/".toList us) := hleft
    have hright : Shell.split ("b/".toList ++ path) = some (Shell.prepend "b/".toList us) := hright
    have hfields : Shell.split (header path) =
        some (["diff".toList, "--git".toList] ++ (Shell.prepend "a/".toList us ++ Shell.prepend "b/".toList us)) := by
      rw [hheader, split_HEADER]
      have hboth : Shell.split ("a/".toList ++ path ++ ' ' :: ("b/".toList ++ path)) = _ :=
        Shell.splitFrom_append_blank hleft _
      rw [hboth, hright]
      rfl
    rw [hleft]
    cases us with
    | nil => exact absurd hopen (Shell.splitFrom_ne_nil _ _ _)
    | cons u us =>
      cases us with
      | nil =>
        have hfound : headerPath (header path) = some u := by
          unfold headerPath
          dsimp only
          rw [hfields, Option.getD_some]
          show (match pathOfFields ["diff".toList, "--git".toList, "a/".toList ++ u, "b/".toList ++ u] with
            | some path => some path
            | none => _) = some u
          rw [pathOfFields_same]
        rw [hfound, Option.some_inj]
        constructor
        · rintro rfl w hw
          exact (List.singleton_inj.mp (Option.some.inj hw)).symm
        · intro h
          exact List.append_cancel_left (h _ rfl)
      | cons v us =>
        have hnone : pathOfFields ((Shell.split (header path)).getD []) = none := by
          rw [hfields, Option.getD_some]
          cases us <;> rfl
        rw [hfallback hnone]
        exact iff_of_true rfl fun w hw => nomatch (List.cons_eq_cons.mp (Option.some.inj hw)).2

/-- what is read from a header with quotes: everything but control characters -/
theorem headerPath_quoted {path : Text} (h : ∃ c ∈ path, isUnusual c = true) :
    headerPath (header path) = some (path.flatMap kept) := by
  have hquote : ∀ side : Text, quotePath (side ++ path) = '"' :: (side ++ path).flatMap escape ++ ['"'] := by
    intro side
    unfold quotePath
    rw [if_pos]
    obtain ⟨c, hc, hunusual⟩ := h
    exact List.any_eq_true.mpr ⟨c, List.mem_append_right side hc, hunusual⟩
  have hfields : Shell.split (header path) =
      some ["diff".toList, "--git".toList, "a/".toList ++ path.flatMap kept, "b/".toList ++ path.flatMap kept] := by
    unfold header
    rw [hquote, hquote, List.append_assoc, split_HEADER]
    have hboth : Shell.split (('"' :: ("a/".toList ++ path).flatMap escape ++ ['"']) ++
        ' ' :: ('"' :: ("b/".toList ++ path).flatMap escape ++ ['"'])) = _ :=
      Shell.splitFrom_append_blank (split_quoted ("a/".toList ++ path)) _
    rw [hboth, split_quoted, List.flatMap_append, List.flatMap_append]
    rfl
  unfold headerPath
  dsimp only
  rw [hfields, Option.getD_some, pathOfFields_same]

/-- when a header gives its own path back -/
theorem headerPath_header_iff (path : Text) : headerPath (header path) = some path ↔
    (∀ c ∈ path, isControl c = false) ∧ ((∀ c ∈ path, isUnusual c = false) →
      ∀ w, Shell.split ("a/".toList ++ path) = some [w] → w = "a/".toList ++ path) := by
  by_cases hplain : ∀ c ∈ path, isUnusual c = false
  · have hcontrol : ∀ c ∈ path, isControl c = false := by
      intro c hc
      have hunusual := hplain c hc
      unfold isUnusual at hunusual
      rw [Bool.or_eq_false_iff, Bool.or_eq_false_iff] at hunusual
      exact hunusual.1.1
    rw [headerPath_plain hplain]
    exact ⟨fun h => ⟨hcontrol, fun _ => h⟩, fun h => h.2 hplain⟩
  · have hunusual : ∃ c ∈ path, isUnusual c = true := by
      simpa using hplain
    rw [headerPath_quoted hunusual, Option.some_inj]
    constructor
    · intro he
      refine ⟨fun c hc => ?_, fun h => absurd h hplain⟩
      rw [← he] at hc
      obtain ⟨d, _, hd⟩ := List.mem_flatMap.mp hc
      exact not_control_of_mem_kept hd
    · intro h
      exact flatMap_kept h.1

/-! ## the first line of a section -/

/-- the path a line names is in it twice -/
theorem count_headerPath {e : Char} (he : e ≠ '\\') {line path : Text} (h : headerPath line = some path) :
    List.count e path * 2 ≤ List.count e line := by
  have hraw : List.count e (if Text.startsWith HEADER line then line.drop HEADER.length else line) ≤
      List.count e line := by
    split
    · exact (List.drop_sublist _ _).count_le e
    · exact Nat.le_refl _
  unfold headerPath at h
  dsimp only at h
  generalize (if Text.startsWith HEADER line then line.drop HEADER.length else line) = raw at h hraw
  split at h
  · next found hfound =>
    obtain rfl := Option.some.inj h
    have hfields := pathOfFields_some hfound
    cases hsplit : Shell.split line with
    | none =>
      rw [hsplit] at hfields
      exact nomatch hfields
    | some ws =>
      rw [hsplit, Option.getD_some] at hfields
      have hcount := Shell.count_splitFrom he hsplit
      rw [hfields] at hcount
      simp only [List.map_cons, List.map_nil, List.sum_cons, List.sum_nil, List.count_append, Option.getD_none,
        List.count_nil] at hcount
      omega
  · split at h
    · unfold search at h
      obtain ⟨index, _, hindex⟩ := List.exists_of_findSome?_eq_some h
      split at hindex
      · next hsame =>
        obtain rfl := Option.some.inj hindex
        have hsides := beq_iff_eq.mp (Bool.and_eq_true_iff.mp hsame).2
        have hbefore := (List.drop_sublist 2 (raw.take index)).count_le e
        have hafter := (List.drop_sublist 3 (raw.drop index)).count_le e
        have hboth : List.count e raw = List.count e (raw.take index) + List.count e (raw.drop index) := by
          rw [← List.count_append, List.take_append_drop]
        rw [hsides] at hbefore
        rw [List.drop_drop] at hafter
        omega
      · exact nomatch hindex
    · exact nomatch h

theorem mem_quotePath {e : Char} {name : Text} (h : e ∈ quotePath name) (hend : Text.isLineEnd e = true) :
    e ∈ name ∧ isControl e = false := by
  unfold quotePath at h
  split at h
  · rcases List.mem_append.mp h with h | h
    · rcases List.mem_cons.mp h with rfl | h
      · exact absurd hend (by decide)
      obtain ⟨c, hc, he⟩ := List.mem_flatMap.mp h
      by_cases hquote : c = '"' ∨ c = '\\'
      · rw [escape, if_pos hquote] at he
        rcases List.mem_cons.mp he with rfl | he
        · exact absurd hend (by decide)
        · rw [List.mem_singleton.mp he] at hend
          rcases hquote with rfl | rfl <;> exact absurd hend (by decide)
      · rcases escape_cases hquote with ⟨d, ds, hescape, _, hletters⟩ | ⟨hescape, hcontrol⟩
        · rw [hescape] at he
          rcases List.mem_cons.mp he with rfl | he
          · exact absurd hend (by decide)
          · exact absurd hend (by rw [(hletters e he).2.2.2]; decide)
        · rw [hescape] at he
          rw [List.mem_singleton.mp he]
          exact ⟨hc, hcontrol⟩
    · rw [List.mem_singleton.mp h] at hend
      exact absurd hend (by decide)
  · next hany =>
    refine ⟨h, ?_⟩
    have hunusual : isUnusual e = false := by
      by_contra hne
      exact hany (List.any_eq_true.mpr ⟨e, h, Bool.not_eq_false _ ▸ hne⟩)
    unfold isUnusual at hunusual
    rw [Bool.or_eq_false_iff, Bool.or_eq_false_iff] at hunusual
    exact hunusual.1.1

theorem mem_quotePath_of_mem {c : Char} {name : Text} (h : c ∈ name) (hc : isControl c = false) : c ∈ quotePath name := by
  unfold quotePath
  split
  · refine List.mem_append_left _ (List.mem_cons_of_mem _ (List.mem_flatMap.mpr ⟨c, h, ?_⟩))
    by_cases hquote : c = '"' ∨ c = '\\'
    · rw [escape, if_pos hquote]
      exact List.mem_cons_of_mem _ (List.mem_singleton_self c)
    · rcases escape_cases hquote with ⟨_, _, _, hcontrol, _⟩ | ⟨hescape, _⟩
      · rw [hc] at hcontrol
        exact nomatch hcontrol
      · rw [hescape]
        exact List.mem_singleton_self c
  · exact h

/-- a line end in a header is of the path -/
theorem mem_header {e : Char} {path : Text} (h : e ∈ header path) (hend : Text.isLineEnd e = true) :
    e ∈ path ∧ isControl e = false := by
  have hside : ∀ side : Text, (∀ c ∈ side, Text.isLineEnd c = false) → e ∈ quotePath (side ++ path) →
      e ∈ path ∧ isControl e = false := by
    intro side hside he
    obtain ⟨hmem, hcontrol⟩ := mem_quotePath he hend
    rcases List.mem_append.mp hmem with hmem | hmem
    · exact absurd hend (by rw [hside e hmem]; decide)
    · exact ⟨hmem, hcontrol⟩
  unfold header at h
  rcases List.mem_append.mp h with h | h
  · rcases List.mem_append.mp h with h | h
    · exact absurd hend (by rw [(show ∀ c ∈ HEADER, Text.isLineEnd c = false by decide) e h]; decide)
    · exact hside _ (by decide) h
  · rcases List.mem_cons.mp h with rfl | h
    · exact absurd hend (by decide)
    · exact hside _ (by decide) h

theorem mem_header_of_mem {c : Char} {path : Text} (h : c ∈ path) (hc : isControl c = false) : c ∈ header path := by
  unfold header
  exact List.mem_append_left _ (List.mem_append_right _ (mem_quotePath_of_mem (List.mem_append_right _ h) hc))

theorem not_newline_of_not_control {c : Char} (h : isControl c = false) : c ≠ '\n' ∧ c ≠ '\r' := by
  constructor
  · rintro rfl
    exact nomatch h
  · rintro rfl
    exact nomatch h

/-- a section starts with a header, which gives the path back if and only if the path is readable -/
theorem first_line (path t : Text) : ∃ f fs, Text.keptLines (header path ++ '\n' :: t) = f :: fs ∧
    Text.startsWith HEADER f = true ∧
    (headerPath (f.rdropWhile (· == '\n')) = some path ↔ Readable path) ∧
    (Readable path → f = header path ++ ['\n'] ∧ fs = Text.keptLines t) := by
  have hfront : HEADER <+: header path := by
    unfold header
    rw [List.append_assoc]
    exact List.prefix_append _ _
  by_cases hwhole : ∀ c ∈ header path, Text.isLineEnd c = false
  · refine ⟨_, _, Text.keptLines_newline hwhole t, ?_, ?_, fun _ => ⟨rfl, rfl⟩⟩
    · exact List.isPrefixOf_iff_prefix.mpr (hfront.trans (List.prefix_append _ _))
    · have hdrop : (header path ++ ['\n']).rdropWhile (· == '\n') = header path := by
        rw [List.rdropWhile_concat_pos _ _ _ rfl, List.rdropWhile_eq_self_iff]
        intro hne hlast
        exact absurd (hwhole _ (List.getLast_mem hne)) (by rw [beq_iff_eq.mp hlast]; decide)
      rw [hdrop, headerPath_header_iff]
      constructor
      · intro h
        refine ⟨fun c hc => ⟨h.1 c hc, ?_⟩, h.2⟩
        exact hwhole c (mem_header_of_mem hc (h.1 c hc))
      · exact fun h => ⟨fun c hc => (h.1 c hc).1, h.2⟩
  · -- the header is cut at the first line end of the path
    obtain ⟨e, he, hend⟩ : ∃ e ∈ header path, Text.isLineEnd e = true := by simpa using hwhole
    obtain ⟨e, hfound⟩ : ∃ e, (header path).find? Text.isLineEnd = some e :=
      Option.isSome_iff_exists.mp (List.find?_isSome.mpr ⟨e, he, hend⟩)
    obtain ⟨hend, u, v, hsplit, hu⟩ := List.find?_eq_some_iff_append.mp hfound
    have hu : ∀ c ∈ u, Text.isLineEnd c = false := fun c hc => by simpa using hu c hc
    obtain ⟨hpath, hcontrol⟩ := mem_header (hsplit ▸ List.mem_append_right u List.mem_cons_self) hend
    obtain ⟨hnewline, hreturn⟩ := not_newline_of_not_control hcontrol
    have hnot : ¬Readable path := fun h => by
      rw [(h.1 e hpath).2] at hend
      exact nomatch hend
    have hline : header path ++ '\n' :: t = (u ++ [e]) ++ (v ++ '\n' :: t) := by
      rw [hsplit]
      simp
    refine ⟨u ++ [e], Text.keptLines (v ++ '\n' :: t), ?_, ?_, iff_of_false ?_ hnot, fun h => absurd h hnot⟩
    · rw [hline]
      exact Text.keptLines_append_of_firstLine ⟨u, hu, Or.inl ⟨e, hend, rfl, fun h => absurd h hreturn⟩⟩
    · have hfirst : u ++ [e] <+: header path := ⟨v, by rw [hsplit]; simp⟩
      rcases List.prefix_or_prefix_of_prefix hfront hfirst with h | h
      · exact List.isPrefixOf_iff_prefix.mpr h
      · have hmem := h.subset (List.mem_append_right u (List.mem_singleton_self e))
        rw [(show ∀ c ∈ HEADER, Text.isLineEnd c = false by decide) e hmem] at hend
        exact nomatch hend
    · rw [List.rdropWhile_concat_neg _ _ _ (by rw [beq_iff_eq]; exact hnewline)]
      intro hread
      have hslash : e ≠ '\\' := by
        rintro rfl
        exact nomatch hend
      have hcount := count_headerPath hslash hread
      have hone : List.count e (u ++ [e]) = 1 := by
        rw [List.count_append, List.count_singleton_self, List.count_eq_zero.mpr fun h => by
          rw [hu e h] at hend
          exact nomatch hend]
      have hin := List.count_pos_iff.mpr hpath
      omega

/-! ## what the sections of any text are -/

/-- lines in a row, from a header that names a path to before the next header -/
def Group (ls : List Text) (path text : Text) : Prop :=
  ∃ h rest, h :: rest <:+: ls ∧ Text.startsWith HEADER h = true ∧ headerPath (h.rdropWhile (· == '\n')) = some path ∧
    (∀ l ∈ rest, Text.startsWith HEADER l = false) ∧ text = (h :: rest).flatten

theorem Group.more {ls : List Text} {path text : Text} (h : Group ls path text) (ms : List Text) :
    Group (ls ++ ms) path text := by
  obtain ⟨l, rest, hin, hrest⟩ := h
  exact ⟨l, rest, hin.trans (List.infix_append' [] ls ms), hrest⟩

theorem mem_put {d : Dict} {key value : Text} {e : Text × Text} (h : e ∈ put d key value) : e = (key, value) ∨ e ∈ d := by
  unfold put at h
  split at h
  · obtain ⟨e', he', rfl⟩ := List.mem_map.mp h
    split
    · next hkey => exact Or.inl (Prod.ext (beq_iff_eq.mp hkey) rfl)
    · exact Or.inr he'
  · rcases List.mem_append.mp h with h | h
    · exact Or.inr h
    · exact Or.inl (List.mem_singleton.mp h)

/-- every section that is put is a group, and so is the one that is open -/
def Grouped (ls : List Text) (r : Reading) : Prop :=
  (∀ e ∈ r.result, Group ls e.1 e.2) ∧
    ∀ path, r.path = some path → ∃ h rest, h :: rest <:+ ls ∧ Text.startsWith HEADER h = true ∧
      headerPath (h.rdropWhile (· == '\n')) = some path ∧ (∀ l ∈ rest, Text.startsWith HEADER l = false) ∧
      r.lines = (h :: rest).flatten

theorem Grouped.close {ls : List Text} {r : Reading} (h : Grouped ls r) : ∀ e ∈ r.close, Group ls e.1 e.2 := by
  obtain ⟨hresult, hopen⟩ := h
  unfold Reading.close
  split
  · exact hresult
  · next path hpath =>
    intro e he
    rcases mem_put he with rfl | he
    · obtain ⟨l, rest, hin, hrest⟩ := hopen path hpath
      exact ⟨l, rest, hin.isInfix, hrest⟩
    · exact hresult e he

theorem Grouped.step {ls : List Text} {r : Reading} (h : Grouped ls r) (line : Text) :
    Grouped (ls ++ [line]) (step r line) := by
  unfold Diff.step
  split
  · next hheader =>
    refine ⟨fun e he => (h.close e he).more [line], fun path hpath => ⟨line, [], ?_, hheader, hpath, ?_, ?_⟩⟩
    · exact List.suffix_append ls [line]
    · exact fun l hl => nomatch hl
    · exact (List.append_nil line).symm
  · next hheader =>
    have hbody : Text.startsWith HEADER line = false := Bool.not_eq_true _ ▸ hheader
    split
    · next hpath =>
      refine ⟨fun e he => (h.1 e he).more [line], fun path hp => ?_⟩
      rw [hpath] at hp
      exact nomatch hp
    · next path hpath =>
      refine ⟨fun e he => (h.1 e he).more [line], fun path' hp => ?_⟩
      obtain rfl := Option.some.inj hp
      obtain ⟨l, rest, ⟨before, hin⟩, hl, hread, hrest, hlines⟩ := h.2 path hpath
      refine ⟨l, rest ++ [line], ⟨before, ?_⟩, hl, hread, fun m hm => ?_, ?_⟩
      · rw [← hin]
        simp
      · rcases List.mem_append.mp hm with hm | hm
        · exact hrest m hm
        · rw [List.mem_singleton.mp hm]
          exact hbody
      · show r.lines ++ line = _
        rw [hlines]
        simp

theorem grouped_foldl {before ls : List Text} {r : Reading} (h : Grouped before r) :
    Grouped (before ++ ls) (ls.foldl step r) := by
  induction ls generalizing before r with
  | nil =>
    rw [List.append_nil]
    exact h
  | cons l ls ih =>
    have hmore := ih (h.step l)
    rw [List.append_assoc] at hmore
    exact hmore

theorem group_of_mem {patch path text : Text} (h : (path, text) ∈ pathPatches patch) : Group (Text.keptLines patch) path text :=
  (grouped_foldl (show Grouped [] ⟨[], none, []⟩ from ⟨fun _ he => (nomatch he), fun _ hp => nomatch hp⟩)).close _ h

/-! ## sections that are read back -/

theorem text_newline (part : Part) (path : Text) : (part.text path).getLast? = some '\n' := by
  unfold Part.text
  rcases List.eq_nil_or_concat part.lines with hnil | ⟨ls, l, hl⟩
  · rw [hnil]
    exact List.getLast?_concat
  · rw [hl, List.concat_eq_append, List.flatMap_append, List.flatMap_singleton]
    have hend : header path ++ '\n' :: (ls.flatMap (· ++ ['\n']) ++ (l ++ ['\n'])) =
        (header path ++ '\n' :: (ls.flatMap (· ++ ['\n']) ++ l)) ++ ['\n'] := by simp
    rw [hend, List.getLast?_concat]

theorem keptLines_body (ls : List Text) :
    Text.keptLines (ls.flatMap (· ++ ['\n'])) = ls.flatMap fun l => Text.keptLines (l ++ ['\n']) := by
  induction ls with
  | nil => rfl
  | cons l ls ih =>
    rw [List.flatMap_cons, List.flatMap_cons, Text.keptLines_append (Or.inr List.getLast?_concat), ih]

theorem change_newline (c : Change) : c.text.getLast? = some '\n' := by
  unfold Change.text
  rcases List.eq_nil_or_concat c.others with hnil | ⟨ps, p, hp⟩
  · rw [hnil, List.flatMap_singleton]
    exact text_newline c.first c.path
  · have hparts : c.first :: c.others = (c.first :: ps) ++ [p] := by
      rw [hp, List.concat_eq_append]
      rfl
    rw [hparts, List.flatMap_append, List.flatMap_singleton, List.getLast?_append, text_newline p c.path]
    rfl

theorem keptLines_changes (cs : List Change) :
    Text.keptLines (cs.flatMap Change.text) = cs.flatMap fun c => Text.keptLines c.text := by
  induction cs with
  | nil => rfl
  | cons c cs ih =>
    rw [List.flatMap_cons, List.flatMap_cons, Text.keptLines_append (Or.inr (change_newline c)), ih]

/-- what keeps the section of a path whole -/
def Sound (c : Change) : Prop := Readable c.path ∧ c.others = [] ∧ Contained c.first

/-- a section of its own is read back if and only if nothing in it is taken for a header -/
theorem sound_iff (c : Change) : Sound c ↔ ∃ f fs, Text.keptLines c.text = f :: fs ∧
    Text.startsWith HEADER f = true ∧ headerPath (f.rdropWhile (· == '\n')) = some c.path ∧
    ∀ l ∈ fs, Text.startsWith HEADER l = false := by
  have htext : c.text = header c.path ++ '\n' :: (c.first.lines.flatMap (· ++ ['\n']) ++
      c.others.flatMap fun part => part.text c.path) := by
    unfold Change.text
    rw [List.flatMap_cons, Part.text, List.append_assoc]
    rfl
  have hbody : Text.keptLines (c.first.lines.flatMap (· ++ ['\n']) ++ c.others.flatMap fun part => part.text c.path) =
      (c.first.lines.flatMap fun l => Text.keptLines (l ++ ['\n'])) ++
        Text.keptLines (c.others.flatMap fun part => part.text c.path) := by
    rw [Text.keptLines_append ?_, keptLines_body]
    rcases List.eq_nil_or_concat c.first.lines with hnil | ⟨ls, l, hl⟩
    · rw [hnil]
      exact Or.inl rfl
    · rw [hl, List.concat_eq_append, List.flatMap_append, List.flatMap_singleton, ← List.append_assoc]
      exact Or.inr List.getLast?_concat
  obtain ⟨f, fs, hlines, hheader, hread, hwhole⟩ := first_line c.path
    (c.first.lines.flatMap (· ++ ['\n']) ++ c.others.flatMap fun part => part.text c.path)
  rw [← htext] at hlines
  constructor
  · rintro ⟨hreadable, hone, hcontained⟩
    refine ⟨f, fs, hlines, hheader, hread.mpr hreadable, fun l hl => ?_⟩
    rw [(hwhole hreadable).2, hbody, hone] at hl
    rcases List.mem_append.mp hl with hl | hl
    · obtain ⟨line, hline, hl⟩ := List.mem_flatMap.mp hl
      exact hcontained line hline l hl
    · exact nomatch hl
  · rintro ⟨f', fs', hlines', _, hread', hnone⟩
    obtain ⟨rfl, rfl⟩ := List.cons_eq_cons.mp (hlines.symm.trans hlines')
    have hreadable := hread.mp hread'
    have hfs := (hwhole hreadable).2
    rw [hbody] at hfs
    refine ⟨hreadable, ?_, fun l hl k hk => ?_⟩
    · cases hothers : c.others with
      | nil => rfl
      | cons part parts =>
        exfalso
        rw [hothers, List.flatMap_cons] at hfs
        obtain ⟨g, gs, hg, hgheader, _⟩ := first_line c.path
          (part.lines.flatMap (· ++ ['\n']) ++ parts.flatMap fun part => part.text c.path)
        have hpart : part.text c.path ++ (parts.flatMap fun part => part.text c.path) =
            header c.path ++ '\n' :: (part.lines.flatMap (· ++ ['\n']) ++ parts.flatMap fun part => part.text c.path) := by
          rw [Part.text, List.append_assoc]
          rfl
        rw [hpart, hg] at hfs
        have hin : g ∈ fs := hfs ▸ List.mem_append_right _ List.mem_cons_self
        rw [hnone g hin] at hgheader
        exact nomatch hgheader
    · exact hnone k (hfs ▸ List.mem_append_left _ (List.mem_flatMap.mpr ⟨l, hl, hk⟩))

/-- a section that is whole is read whole -/
theorem foldl_sound {c : Change} (h : Sound c) (r : Reading) :
    (Text.keptLines c.text).foldl step r = ⟨r.close, some c.path, c.text⟩ := by
  obtain ⟨f, fs, hlines, hheader, hread, hnone⟩ := (sound_iff c).mp h
  have hbody : ∀ (ls : List Text) (text : Text), (∀ l ∈ ls, Text.startsWith HEADER l = false) →
      ls.foldl step ⟨r.close, some c.path, text⟩ = ⟨r.close, some c.path, text ++ ls.flatten⟩ := by
    intro ls
    induction ls with
    | nil =>
      intro text _
      rw [List.flatten_nil, List.append_nil]
      rfl
    | cons l ls ih =>
      intro text hls
      have hl : step ⟨r.close, some c.path, text⟩ l = ⟨r.close, some c.path, text ++ l⟩ := by
        unfold step
        rw [if_neg (Bool.eq_false_iff.mp (hls l List.mem_cons_self))]
      rw [List.foldl_cons, hl, ih _ fun m hm => hls m (List.mem_cons_of_mem l hm), List.flatten_cons, List.append_assoc]
  have htext : c.text = f ++ fs.flatten := by
    rw [← Text.flatten_keptLines c.text, hlines, List.flatten_cons]
  have hfirst : step r f = ⟨r.close, some c.path, f⟩ := by
    unfold step
    rw [if_pos hheader, hread]
  rw [hlines, List.foldl_cons, hfirst, hbody fs f hnone, htext]

theorem put_new {d : Dict} {key value : Text} (h : key ∉ d.map Prod.fst) : put d key value = d ++ [(key, value)] := by
  unfold put
  rw [if_neg]
  intro hany
  obtain ⟨e, he, hkey⟩ := List.any_eq_true.mp hany
  exact h (List.mem_map.mpr ⟨e, he, beq_iff_eq.mp hkey⟩)

theorem close_changes {cs : List Change} (hsound : ∀ c ∈ cs, Sound c) (r : Reading)
    (hdistinct : (r.close.map Prod.fst ++ cs.map Change.path).Nodup) :
    ((cs.flatMap fun c => Text.keptLines c.text).foldl step r).close = r.close ++ cs.map fun c => (c.path, c.text) := by
  induction cs generalizing r with
  | nil => exact (List.append_nil _).symm
  | cons c cs ih =>
    rw [List.flatMap_cons, List.foldl_append, foldl_sound (hsound c List.mem_cons_self)]
    have hnew : c.path ∉ r.close.map Prod.fst := fun h =>
      (List.nodup_append.mp hdistinct).2.2 _ h _ List.mem_cons_self rfl
    have hclose : (Reading.mk r.close (some c.path) c.text).close = r.close ++ [(c.path, c.text)] := put_new hnew
    rw [ih (fun c hc => hsound c (List.mem_cons_of_mem _ hc)), hclose, List.append_assoc]
    · rfl
    · rw [hclose, List.map_append, List.append_assoc]
      exact hdistinct

/-- the sections by path are a partition of the patch if and only if every path is read back from its header, no path
has two sections, and no line of content is a header after a line end that Git does not count -/
theorem split_iff (patch : Patch) : Partition patch ↔
    ∀ c ∈ patch.changes, Readable c.path ∧ c.others = [] ∧ Contained c.first := by
  unfold Partition
  constructor
  · intro h c hc
    refine (sound_iff c).mpr ?_
    have hmem : (c.path, c.text) ∈ pathPatches patch.text := h ▸ List.mem_map.mpr ⟨c, hc, rfl⟩
    obtain ⟨f, fs, hin, hheader, hread, hnone, htext⟩ := group_of_mem hmem
    refine ⟨f, fs, ?_, hheader, hread, hnone⟩
    rw [htext]
    exact Text.keptLines_infix hin
  · intro h
    have hclose := close_changes (r := ⟨[], none, []⟩) h patch.distinct
    unfold pathPatches Patch.text
    rw [keptLines_changes, hclose]
    rfl

/-! ## a page that quotes a patch -/

/-- a new page whose one line goes on, for Python, after a line separator -/
def quoting : Patch where
  changes := [⟨"wiki/a.md".toList, ⟨["+++ b/wiki/a.md".toList, "@@ -0,0 +1 @@".toList,
    "+see\u2028diff --git a/wiki/b.md b/wiki/b.md".toList], by decide, by decide⟩, []⟩]
  distinct := by decide

theorem not_partition : ¬Partition quoting := by decide +kernel

end Diff
