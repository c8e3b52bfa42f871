import Mathlib.Algebra.BigOperators.Group.List.Basic
import Mathlib.Algebra.Order.Group.Nat
import Stigmergy.Lib.Text

/-!
# Words of a command line

`shlex.split`: words apart by blanks, in single or double quotes where blanks are meant, with backslashes.

* `splitFrom_append_blank`   a command line that is complete, a blank, and another;
* `splitFrom_prepend`        a word that has begun stands before what comes;
* `count_splitFrom`          nothing is in the words more often than in the line;
* `Reads`                    what is read before any other text: without double quotes and backslashes the words
                             are the text, apart by spaces (`reads_of_simple`).
-/

set_option linter.unusedSectionVars false

namespace Shell

inductive Mode where
  | plain | single | double
  /-- after a backslash, in double quotes or not -/
  | escaped (quoted : Bool)

def isBlank (c : Char) : Bool := c == ' ' || c == '\t' || c == '\r' || c == '\n'

/-- the words from a mode on, with one that has begun or none; nothing where a quote or a backslash is open -/
def splitFrom : Mode → Option Text → Text → Option (List Text)
  | .plain, word, [] => some word.toList
  | .single, _, [] => none
  | .double, _, [] => none
  | .escaped _, _, [] => none
  | .plain, word, c :: t =>
    if isBlank c then (splitFrom .plain none t).map (word.toList ++ ·)
    else if c = '\'' then splitFrom .single (some (word.getD [])) t
    else if c = '"' then splitFrom .double (some (word.getD [])) t
    else if c = '\\' then splitFrom (.escaped false) (some (word.getD [])) t
    else splitFrom .plain (some (word.getD [] ++ [c])) t
  | .single, word, c :: t =>
    if c = '\'' then splitFrom .plain (some (word.getD [])) t else splitFrom .single (some (word.getD [] ++ [c])) t
  | .double, word, c :: t =>
    if c = '"' then splitFrom .plain (some (word.getD [])) t
    else if c = '\\' then splitFrom (.escaped true) (some (word.getD [])) t
    else splitFrom .double (some (word.getD [] ++ [c])) t
  | .escaped false, word, c :: t => splitFrom .plain (some (word.getD [] ++ [c])) t
  | .escaped true, word, c :: t =>
    splitFrom .double (some (word.getD [] ++ if c = '"' ∨ c = '\\' then [c] else ['\\', c])) t

/-- `shlex.split`; nothing for a `ValueError` -/
def split (t : Text) : Option (List Text) := splitFrom .plain none t

/-! ## two command lines -/

/-- what is complete stands before what follows a blank -/
theorem splitFrom_append_blank {m : Mode} {word : Option Text} {s : Text} {ws : List Text}
    (h : splitFrom m word s = some ws) (t : Text) : splitFrom m word (s ++ ' ' :: t) = (split t).map (ws ++ ·) := by
  fun_induction splitFrom m word s generalizing ws with
  | case1 word =>
    obtain rfl := Option.some.inj h
    rfl
  | case2 => exact nomatch h
  | case3 => exact nomatch h
  | case4 => exact nomatch h
  | case5 word c s hc ih =>
    obtain ⟨vs, hvs, rfl⟩ := Option.map_eq_some_iff.mp h
    rw [List.cons_append, splitFrom, if_pos hc, ih hvs, Option.map_map]
    congr 1
    funext us
    exact (List.append_assoc _ _ _).symm
  | case6 word s hc ih => exact ih h
  | case7 word s hc hs ih => exact ih h
  | case8 word s hc hs hd ih => exact ih h
  | case9 word c s hc hs hd hb ih =>
    rw [List.cons_append, splitFrom, if_neg hc, if_neg hs, if_neg hd, if_neg hb]
    exact ih h
  | case10 word s ih => exact ih h
  | case11 word c s hs ih =>
    rw [List.cons_append, splitFrom, if_neg hs]
    exact ih h
  | case12 word s ih => exact ih h
  | case13 word s hd ih => exact ih h
  | case14 word c s hd hb ih =>
    rw [List.cons_append, splitFrom, if_neg hd, if_neg hb]
    exact ih h
  | case15 word c s ih => exact ih h
  | case16 word c s ih => exact ih h

/-- the first word with a text before it -/
def prepend (p : Text) : List Text → List Text
  | [] => []
  | w :: ws => (p ++ w) :: ws

/-- a word that has begun keeps its beginning -/
theorem splitFrom_prepend (m : Mode) (p word t : Text) :
    splitFrom m (some (p ++ word)) t = (splitFrom m (some word) t).map (prepend p) := by
  induction t generalizing m word with
  | nil => cases m <;> rfl
  | cons c t ih =>
    cases m with
    | plain =>
      rw [splitFrom, splitFrom]
      split
      · rw [Option.map_map]
        rfl
      split
      · exact ih _ word
      split
      · exact ih _ word
      split
      · exact ih _ word
      · rw [← ih]
        simp
    | single =>
      rw [splitFrom, splitFrom]
      split
      · exact ih _ word
      · rw [← ih]
        simp
    | double =>
      rw [splitFrom, splitFrom]
      split
      · exact ih _ word
      split
      · exact ih _ word
      · rw [← ih]
        simp
    | escaped quoted =>
      cases quoted with
      | false =>
        rw [splitFrom, splitFrom, ← ih]
        simp
      | true =>
        rw [splitFrom, splitFrom, ← ih]
        simp

theorem splitFrom_ne_nil (m : Mode) (word t : Text) : splitFrom m (some word) t ≠ some [] := by
  induction t generalizing m word with
  | nil => cases m <;> exact fun h => nomatch h
  | cons c t ih =>
    cases m with
    | plain =>
      rw [splitFrom]
      split
      · intro h
        obtain ⟨_, _, h⟩ := Option.map_eq_some_iff.mp h
        exact nomatch h
      split
      · exact ih _ _
      split
      · exact ih _ _
      split <;> exact ih _ _
    | single =>
      rw [splitFrom]
      split <;> exact ih _ _
    | double =>
      rw [splitFrom]
      split
      · exact ih _ _
      split <;> exact ih _ _
    | escaped quoted =>
      cases quoted with
      | false => exact ih _ _
      | true => exact ih _ _

theorem count_concat (c d : Char) (word t : Text) :
    List.count c (word ++ [d]) + List.count c t = List.count c word + List.count c (d :: t) := by
  rw [List.count_append, List.count_cons, List.count_cons, List.count_nil]
  omega

/-- a character other than a backslash is in the words no more often than in the line -/
theorem count_splitFrom {c : Char} (hc : c ≠ '\\') {m : Mode} {word : Option Text} {t : Text} {ws : List Text}
    (h : splitFrom m word t = some ws) :
    (ws.map (List.count c)).sum ≤ List.count c (word.getD []) + List.count c t := by
  induction t generalizing m word ws with
  | nil =>
    cases m with
    | plain =>
      obtain rfl := Option.some.inj h
      cases word with
      | none => exact Nat.zero_le _
      | some word => exact le_of_eq (List.sum_singleton)
    | single => exact nomatch h
    | double => exact nomatch h
    | escaped quoted => exact nomatch h
  | cons d t ih =>
    have hskip : ∀ (m : Mode) {us : List Text}, splitFrom m (some (word.getD [])) t = some us →
        (us.map (List.count c)).sum ≤ List.count c (word.getD []) + List.count c (d :: t) := by
      intro m us hus
      have hle := ih hus
      have hcons := List.count_le_count_cons (a := c) (b := d) (l := t)
      rw [Option.getD_some] at hle
      omega
    have hput : ∀ (m : Mode) {us : List Text}, splitFrom m (some (word.getD [] ++ [d])) t = some us →
        (us.map (List.count c)).sum ≤ List.count c (word.getD []) + List.count c (d :: t) := by
      intro m us hus
      rw [← count_concat]
      exact ih hus
    cases m with
    | plain =>
      rw [splitFrom] at h
      split at h
      · obtain ⟨us, hus, rfl⟩ := Option.map_eq_some_iff.mp h
        have hle := ih hus
        have hcons := List.count_le_count_cons (a := c) (b := d) (l := t)
        have hword : (word.toList.map (List.count c)).sum = List.count c (word.getD []) := by
          cases word with
          | none => rfl
          | some word => exact List.sum_singleton
        rw [List.map_append, List.sum_append, hword]
        rw [Option.getD_none, List.count_nil] at hle
        omega
      split at h
      · exact hskip _ h
      split at h
      · exact hskip _ h
      split at h
      · exact hskip _ h
      · exact hput _ h
    | single =>
      rw [splitFrom] at h
      split at h
      · exact hskip _ h
      · exact hput _ h
    | double =>
      rw [splitFrom] at h
      split at h
      · exact hskip _ h
      split at h
      · exact hskip _ h
      · exact hput _ h
    | escaped quoted =>
      cases quoted with
      | false => exact hput _ h
      | true =>
        rw [splitFrom] at h
        split at h
        · exact hput _ h
        · have hword : word.getD [] ++ ['\\', d] = word.getD [] ++ ['\\'] ++ [d] := by simp
          rw [hword] at h
          have hle := ih h
          rw [Option.getD_some, count_concat, List.count_append, List.count_singleton,
            if_neg (by rw [beq_iff_eq]; exact hc.symm)] at hle
          exact hle

/-! ## lines without double quotes and backslashes -/

/-- words with spaces after each, and then one that has begun -/
def Laid (word : Option Text) : List Text → Text → Prop
  | [], u => u = word.getD []
  | w :: ws, u => ∃ n v, u = w ++ List.replicate (n + 1) ' ' ++ v ∧ Laid word ws v

/-- neither double quotes nor backslashes, and no blanks but spaces -/
def Simple (t : Text) : Prop := ∀ c ∈ t, c ≠ '"' ∧ c ≠ '\\' ∧ (isBlank c = true → c = ' ')

def mode (quoted : Bool) : Mode := if quoted then .single else .plain

def unquoted (t : Text) : Text := t.filter (· != '\'')

/-- what a text comes to before any other -/
def Reads (quoted : Bool) (word : Option Text) (t : Text) : Prop :=
  ∃ (ws : List Text) (word' : Option Text) (quoted' : Bool), (quoted' = true → word' ≠ none) ∧
    (∀ s, splitFrom (mode quoted) word (t ++ s) = (splitFrom (mode quoted') word' s).map (ws ++ ·)) ∧
    ∃ n v, word.getD [] ++ unquoted t = List.replicate n ' ' ++ v ∧ (word ≠ none → n = 0) ∧ Laid word' ws v

/-- a character that goes on with a word -/
theorem Reads.go {c : Char} {t word₁ : Text} {quoted quoted₁ : Bool} {word : Option Text} (h : Reads quoted₁ (some word₁) t)
    (hstep : ∀ s, splitFrom (mode quoted) word (c :: s) = splitFrom (mode quoted₁) (some word₁) s)
    (htext : word.getD [] ++ unquoted (c :: t) = word₁ ++ unquoted t) : Reads quoted word (c :: t) := by
  obtain ⟨ws, word', quoted', hword', hsplit, n, v, hv, hn, hlaid⟩ := h
  obtain rfl := hn fun e => nomatch e
  refine ⟨ws, word', quoted', hword', fun s => ?_, 0, v, ?_, fun _ => rfl, hlaid⟩
  · rw [List.cons_append, hstep]
    exact hsplit s
  · rw [htext]
    exact hv

/-- a space that ends a word -/
theorem Reads.space {t : Text} {word : Option Text} (h : Reads false none t) : Reads false word (' ' :: t) := by
  obtain ⟨ws, word', quoted', hword', hsplit, n, v, hv, _, hlaid⟩ := h
  have hspace : unquoted (' ' :: t) = List.replicate (n + 1) ' ' ++ v := by
    show ' ' :: unquoted t = _
    rw [List.replicate_succ, List.cons_append, ← hv]
    rfl
  have hstep : ∀ s, splitFrom (mode false) word (' ' :: t ++ s) =
      (splitFrom (mode quoted') word' s).map ((word.toList ++ ws) ++ ·) := by
    intro s
    show (splitFrom .plain none (t ++ s)).map (word.toList ++ ·) = _
    rw [show splitFrom .plain none (t ++ s) = _ from hsplit s, Option.map_map]
    congr 1
    funext us
    exact (List.append_assoc _ _ _).symm
  cases word with
  | none => exact ⟨ws, word', quoted', hword', hstep, n + 1, v, hspace, fun e => absurd rfl e, hlaid⟩
  | some word =>
    refine ⟨word :: ws, word', quoted', hword', hstep, 0, word ++ unquoted (' ' :: t), rfl, fun _ => rfl, n, v, ?_, hlaid⟩
    rw [hspace, List.append_assoc]

theorem reads_of_simple {t : Text} (ht : Simple t) (quoted : Bool) (word : Option Text)
    (hword : quoted = true → word ≠ none) : Reads quoted word t := by
  induction t generalizing quoted word with
  | nil =>
    refine ⟨[], word, quoted, hword, fun s => ?_, 0, word.getD [], List.append_nil _, fun _ => rfl, rfl⟩
    show splitFrom (mode quoted) word s = (splitFrom (mode quoted) word s).map id
    rw [Option.map_id_fun, id]
  | cons c t ih =>
    obtain ⟨hdouble, hslash, hblank⟩ := ht c List.mem_cons_self
    have ih := ih fun d hd => ht d (List.mem_cons_of_mem c hd)
    have hsome : ∀ quoted word₁, Reads quoted (some word₁) t := fun quoted word₁ => ih quoted (some word₁) fun _ e => nomatch e
    have hput : c ≠ '\'' → word.getD [] ++ unquoted (c :: t) = word.getD [] ++ [c] ++ unquoted t := by
      intro hc
      rw [unquoted, List.filter_cons, if_pos (bne_iff_ne.mpr hc), unquoted]
      simp
    by_cases hquote : c = '\''
    · subst hquote
      refine (hsome (!quoted) (word.getD [])).go (fun s => ?_) rfl
      cases quoted <;> rfl
    · cases quoted with
      | true =>
        refine (hsome true (word.getD [] ++ [c])).go (fun s => ?_) (hput hquote)
        show splitFrom .single word (c :: s) = _
        rw [splitFrom, if_neg hquote]
        rfl
      | false =>
        by_cases hc : isBlank c = true
        · obtain rfl := hblank hc
          exact (ih false none fun e => nomatch e).space
        · refine (hsome false (word.getD [] ++ [c])).go (fun s => ?_) (hput hquote)
          show splitFrom .plain word (c :: s) = _
          rw [splitFrom, if_neg hc, if_neg hquote, if_neg hdouble, if_neg hslash]
          rfl

end Shell
