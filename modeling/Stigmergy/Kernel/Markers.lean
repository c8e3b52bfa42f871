import Stigmergy.Kernel.Body

/-!
# Layer markers

What a reader takes a text for who trusts a marker without a backslash and drops one backslash before
any other.

* `lex`                a text cut into markers, escaped markers and single characters;
* `lex_escapeMarkers`  escaped text has no marker, and is read back as it was;
* `lex_append_newline` a line end cuts a text in two;
* `lex_strip`          white space at the ends is cut off, unless the blank of a marker is with it.
-/

set_option linter.unusedSectionVars false

namespace Body

inductive Token where
  | char (c : Char)
  | escaped (name : Text)
  | tag (name : Text)
deriving DecidableEq

/-- `[layer:name] ` -/
def tagText (name : Text) : Text := '[' :: 'l' :: 'a' :: 'y' :: 'e' :: 'r' :: ':' :: (name ++ [']', ' '])

namespace Token

def shown : Token → Text
  | char c => [c]
  | escaped name => '\\' :: tagText name
  | tag name => tagText name

/-- what is left without added markers and added backslashes -/
def stored : Token → Text
  | char c => [c]
  | escaped name => tagText name
  | tag _ => []

def isBlank : Token → Bool
  | char c => Text.isSpace c
  | _ => false

end Token

/-- the text of tokens -/
def flat (ts : List Token) : Text := ts.flatMap Token.shown

/-- the name in a marker at the front of a text -/
def markerName (t : Text) : Option Text := (marker t).map fun n => (t.drop 7).take (n - 9)

def lexFrom : ℕ → Text → List Token
  | _, [] => []
  | k + 1, _ :: t => lexFrom k t
  | 0, c :: t =>
    match markerName (c :: t), if c = '\\' then markerName t else none with
    | some name, _ => .tag name :: lexFrom (name.length + 8) t
    | none, some name => .escaped name :: lexFrom (name.length + 9) t
    | none, none => .char c :: lexFrom 0 t

def lex (t : Text) : List Token := lexFrom 0 t

/-! ## markers -/

theorem name_char {name : Text} (h : Layers.matchesName name = true) :
    ∀ c ∈ name, (Layers.isLower c || Layers.isDigit c || c == '-') = true := by
  cases name with
  | nil => exact fun c hc => absurd hc List.not_mem_nil
  | cons d name =>
    rw [Layers.matchesName, Bool.and_eq_true, Bool.and_eq_true] at h
    intro c hc
    rcases List.mem_cons.mp hc with rfl | hc
    · rw [h.1.1]
      rfl
    · exact List.all_eq_true.mp h.1.2 c hc

theorem layerText : "[layer:".toList = ['[', 'l', 'a', 'y', 'e', 'r', ':'] := by decide
theorem closeText : "] ".toList = [']', ' '] := by decide

theorem tagText_eq (name : Text) : tagText name = "[layer:".toList ++ name ++ "] ".toList := by
  rw [layerText, closeText]
  rfl

/-- characters no marker has after its bracket -/
theorem tag_char {name : Text} (h : Layers.matchesName name = true) {c : Char}
    (hc : c = '[' ∨ c = '\\' ∨ c = '\n') : c ∉ (tagText name).tail := by
  have hname : c ∉ name := by
    intro hmem
    have hchar := name_char h c hmem
    rcases hc with rfl | rfl | rfl
    · exact absurd hchar (by decide)
    · exact absurd hchar (by decide)
    · exact absurd hchar (by decide)
  have hrest : ∀ d, d = '[' ∨ d = '\\' ∨ d = '\n' →
      d ∉ ['l', 'a', 'y', 'e', 'r', ':'] ∧ d ∉ [']', ' '] := by
    rintro d (rfl | rfl | rfl)
    · decide
    · decide
    · decide
  have htail : (tagText name).tail = ['l', 'a', 'y', 'e', 'r', ':'] ++ (name ++ [']', ' ']) := rfl
  rw [htail, List.mem_append, List.mem_append]
  rintro (hmem | hmem | hmem)
  · exact (hrest c hc).1 hmem
  · exact hname hmem
  · exact (hrest c hc).2 hmem

theorem length_tagText (name : Text) : (tagText name).length = name.length + 9 := by
  simp only [tagText, List.length_cons, List.length_append, List.length_nil]

theorem marker_tagText {name : Text} (h : Layers.matchesName name = true) (t : Text) :
    marker (tagText name ++ t) = some (name.length + 9) := by
  have hdrop : (tagText name ++ t).drop 7 = name ++ ']' :: ' ' :: t := by
    simp only [tagText, List.cons_append, List.append_assoc, List.drop_succ_cons, List.drop_zero,
      List.nil_append]
  have hstop : (Layers.isLower ']' || Layers.isDigit ']' || ']' == '-') = false := by decide
  have htake : ((tagText name ++ t).drop 7).takeWhile
      (fun c => Layers.isLower c || Layers.isDigit c || c == '-') = name := by
    rw [hdrop, List.takeWhile_append_of_pos (name_char h), List.takeWhile_cons, hstop,
      if_neg Bool.false_ne_true, List.append_nil]
  have hstart : Text.startsWith ['[', 'l', 'a', 'y', 'e', 'r', ':'] (tagText name ++ t) = true := rfl
  have hclose : Text.startsWith [']', ' '] ((tagText name ++ t).drop (7 + name.length)) = true := by
    rw [← List.drop_drop, hdrop, List.drop_left]
    rfl
  rw [marker, layerText, closeText, if_pos hstart, htake]
  dsimp only
  rw [h, hclose]
  rfl

theorem markerName_tagText {name : Text} (h : Layers.matchesName name = true) (t : Text) :
    markerName (tagText name ++ t) = some name := by
  have hdrop : (tagText name ++ t).drop 7 = name ++ ']' :: ' ' :: t := by
    simp only [tagText, List.cons_append, List.append_assoc, List.drop_succ_cons, List.drop_zero,
      List.nil_append]
  rw [markerName, marker_tagText h, Option.map_some, hdrop, Nat.add_sub_cancel, List.take_left]

theorem marker_eq_some {t : Text} {n : ℕ} (h : marker t = some n) :
    ∃ name u, Layers.matchesName name = true ∧ n = name.length + 9 ∧ t = tagText name ++ u := by
  rw [marker, layerText, closeText] at h
  split at h
  · next hstart =>
    dsimp only at h
    split at h
    · next hname =>
      obtain ⟨hmatch, hclose⟩ := (Bool.and_eq_true _ _).mp hname
      obtain ⟨u, rfl⟩ := List.isPrefixOf_iff_prefix.mp hstart
      obtain ⟨v, hv⟩ := List.isPrefixOf_iff_prefix.mp hclose
      rw [← List.drop_drop] at hv
      simp only [List.cons_append, List.nil_append, List.drop_succ_cons, List.drop_zero] at hmatch hv h
      refine ⟨_, v, hmatch, (Option.some.inj h).symm, ?_⟩
      have hu : u.takeWhile (fun c => Layers.isLower c || Layers.isDigit c || c == '-') ++ ']' :: ' ' :: v =
          u := by
        rw [hv]
        exact List.prefix_iff_eq_append.mp (List.takeWhile_prefix _)
      simp only [tagText, List.cons_append, List.append_assoc, List.nil_append, hu]
    · exact nomatch h
  · exact nomatch h

theorem markerName_eq_some {t name : Text} (h : markerName t = some name) :
    Layers.matchesName name = true ∧ ∃ u, t = tagText name ++ u := by
  obtain ⟨n, hn, -⟩ := Option.map_eq_some_iff.mp h
  obtain ⟨name', u, hmatch, -, rfl⟩ := marker_eq_some hn
  rw [markerName_tagText hmatch] at h
  obtain rfl := Option.some.inj h
  exact ⟨hmatch, u, rfl⟩

/-- a marker in front of a text that has it as a prefix up to another character -/
theorem markerName_of_front {t u : Text} {name : Text} (h : markerName t = some name)
    (hp : tagText name <+: u) : markerName u = some name := by
  obtain ⟨v, rfl⟩ := hp
  exact markerName_tagText (markerName_eq_some h).1 v

theorem markerName_append {t : Text} {name : Text} (h : markerName t = some name) (u : Text) :
    markerName (t ++ u) = some name := by
  obtain ⟨hname, v, rfl⟩ := markerName_eq_some h
  rw [List.append_assoc, markerName_tagText hname]

/-- a marker does not reach over a character it has not -/
theorem markerName_append_cons {t u : Text} {c : Char} (ht : t ≠ []) (hc : c = '[' ∨ c = '\\' ∨ c = '\n') :
    markerName (t ++ c :: u) = markerName t := by
  cases h : markerName (t ++ c :: u) with
  | none =>
    cases ht' : markerName t with
    | none => rfl
    | some name =>
      rw [markerName_append ht'] at h
      exact nomatch h
  | some name =>
    obtain ⟨hname, v, hv⟩ := markerName_eq_some h
    have hpre : tagText name <+: t :=
      Text.prefix_of_append_cons ht (tag_char hname hc) ⟨v, hv.symm⟩
    exact (markerName_of_front h hpre).symm

theorem markerName_cons {c : Char} {t name : Text} (h : markerName (c :: t) = some name) : c = '[' := by
  obtain ⟨-, u, hu⟩ := markerName_eq_some h
  exact (List.cons.inj hu).1

theorem markerName_nil : markerName [] = none := by
  cases h : markerName [] with
  | none => rfl
  | some name =>
    obtain ⟨-, u, hu⟩ := markerName_eq_some h
    exact nomatch hu

/-! ## cutting -/

theorem lexFrom_drop (k : ℕ) (t : Text) : lexFrom k t = lex (t.drop k) := by
  induction t generalizing k with
  | nil =>
    cases k with
    | zero => rfl
    | succ k => rfl
  | cons c t ih =>
    cases k with
    | zero => rfl
    | succ k => exact ih k

theorem lex_tag {name : Text} (h : Layers.matchesName name = true) (t : Text) :
    lex (tagText name ++ t) = .tag name :: lex t := by
  have hname := markerName_tagText h t
  have hlen : name.length + 8 = (tagText name).tail.length := by
    rw [List.length_tail, length_tagText]
    rfl
  have hcons : tagText name ++ t = '[' :: ((tagText name).tail ++ t) := rfl
  rw [hcons] at hname ⊢
  rw [lex, lexFrom, hname]
  show Token.tag name :: lexFrom (name.length + 8) _ = _
  rw [lexFrom_drop, hlen, List.drop_left]

theorem lex_escaped {name : Text} (h : Layers.matchesName name = true) (t : Text) :
    lex ('\\' :: (tagText name ++ t)) = .escaped name :: lex t := by
  have hnone : markerName ('\\' :: (tagText name ++ t)) = none := by
    cases hm : markerName ('\\' :: (tagText name ++ t)) with
    | none => rfl
    | some n => exact absurd (markerName_cons hm) (by decide)
  rw [lex, lexFrom, hnone, if_pos rfl, markerName_tagText h]
  show Token.escaped name :: lexFrom (name.length + 9) _ = _
  rw [lexFrom_drop, ← length_tagText, List.drop_left]

/-- a character that begins no marker, escaped or not -/
def Plain (c : Char) (t : Text) : Prop := markerName (c :: t) = none ∧ (c = '\\' → markerName t = none)

theorem lex_char {c : Char} {t : Text} (h : Plain c t) : lex (c :: t) = .char c :: lex t := by
  rw [lex, lexFrom, h.1]
  by_cases hc : c = '\\'
  · rw [if_pos hc, h.2 hc]
    rfl
  · rw [if_neg hc]
    rfl

/-- what a text begins with -/
theorem lex_cases (t : Text) : t = [] ∨
    (∃ name u, Layers.matchesName name = true ∧ t = tagText name ++ u) ∨
    (∃ name u, Layers.matchesName name = true ∧ t = '\\' :: (tagText name ++ u)) ∨
    ∃ c u, Plain c u ∧ t = c :: u := by
  cases t with
  | nil => exact Or.inl rfl
  | cons c t =>
    refine Or.inr ?_
    cases h : markerName (c :: t) with
    | some name =>
      obtain ⟨hname, u, hu⟩ := markerName_eq_some h
      exact Or.inl ⟨name, u, hname, hu⟩
    | none =>
      refine Or.inr ?_
      by_cases hc : c = '\\' ∧ markerName t ≠ none
      · obtain ⟨rfl, hsome⟩ := hc
        obtain ⟨name, hname⟩ := Option.ne_none_iff_exists'.mp hsome
        obtain ⟨hmatch, u, rfl⟩ := markerName_eq_some hname
        exact Or.inl ⟨name, u, hmatch, rfl⟩
      · push Not at hc
        exact Or.inr ⟨c, t, ⟨h, hc⟩, rfl⟩

theorem lex_nil : lex [] = [] := rfl

theorem flat_nil : flat [] = [] := rfl

theorem flat_cons (k : Token) (ts : List Token) : flat (k :: ts) = k.shown ++ flat ts := List.flatMap_cons

theorem flat_append (ts us : List Token) : flat (ts ++ us) = flat ts ++ flat us := List.flatMap_append

/-- nothing is lost -/
theorem flat_lex (t : Text) : flat (lex t) = t := by
  induction hn : t.length using Nat.strong_induction_on generalizing t with
  | _ n ih =>
    subst hn
    rcases lex_cases t with rfl | ⟨name, u, hname, rfl⟩ | ⟨name, u, hname, rfl⟩ | ⟨c, u, hc, rfl⟩
    · rfl
    · rw [lex_tag hname, flat_cons, ih u.length (by rw [List.length_append, length_tagText]; omega) u rfl]
      rfl
    · rw [lex_escaped hname, flat_cons, ih u.length
        (by rw [List.length_cons, List.length_append, length_tagText]; omega) u rfl]
      rfl
    · rw [lex_char hc, flat_cons, ih u.length (Nat.lt_succ_self _) u rfl]
      rfl

/-- the rest of a cut text is cut alike -/
theorem lex_flat_tail {k : Token} {ts : List Token} (h : lex (flat (k :: ts)) = k :: ts) :
    lex (flat ts) = ts := by
  rcases lex_cases (flat (k :: ts)) with heq | ⟨name, u, hname, heq⟩ | ⟨name, u, hname, heq⟩ | ⟨c, u, hc, heq⟩
  · rw [heq] at h
    exact nomatch h
  · rw [heq, lex_tag hname] at h
    obtain ⟨rfl, htail⟩ := List.cons.inj h
    rw [flat_cons] at heq
    rw [List.append_cancel_left heq, htail]
  · rw [heq, lex_escaped hname] at h
    obtain ⟨rfl, htail⟩ := List.cons.inj h
    rw [flat_cons] at heq
    rw [List.append_cancel_left (List.cons.inj heq).2, htail]
  · rw [heq, lex_char hc] at h
    obtain ⟨rfl, htail⟩ := List.cons.inj h
    rw [flat_cons] at heq
    have hu : flat ts = u := (List.cons.inj heq).2
    rw [hu, htail]

theorem lex_flat_suffix {us ts : List Token} (h : lex (flat (us ++ ts)) = us ++ ts) : lex (flat ts) = ts := by
  induction us with
  | nil => exact h
  | cons k us ih => exact ih (lex_flat_tail h)

/-- a line end cuts a text in two -/
theorem lex_append_newline (s t : Text) : lex (s ++ '\n' :: t) = lex s ++ .char '\n' :: lex t := by
  have hbreak : lex ('\n' :: t) = .char '\n' :: lex t := by
    refine lex_char ⟨?_, fun h => absurd h (by decide)⟩
    cases h : markerName ('\n' :: t) with
    | none => rfl
    | some name => exact absurd (markerName_cons h) (by decide)
  induction hn : s.length using Nat.strong_induction_on generalizing s with
  | _ n ih =>
    subst hn
    rcases lex_cases s with rfl | ⟨name, u, hname, rfl⟩ | ⟨name, u, hname, rfl⟩ | ⟨c, u, hc, rfl⟩
    · exact hbreak
    · rw [List.append_assoc, lex_tag hname, lex_tag hname,
        ih u.length (by rw [List.length_append, length_tagText]; omega) u rfl]
      rfl
    · rw [List.cons_append, List.append_assoc, lex_escaped hname, lex_escaped hname,
        ih u.length (by rw [List.length_cons, List.length_append, length_tagText]; omega) u rfl]
      rfl
    · have hplain : Plain c (u ++ '\n' :: t) := by
        refine ⟨?_, fun h => ?_⟩
        · rw [← List.cons_append, markerName_append_cons (List.cons_ne_nil c u) (Or.inr (Or.inr rfl))]
          exact hc.1
        · by_cases hu : u = []
          · subst hu
            cases hm : markerName ([] ++ '\n' :: t) with
            | none => rfl
            | some name => exact absurd (markerName_cons hm) (by decide)
          · rw [markerName_append_cons hu (Or.inr (Or.inr rfl))]
            exact hc.2 h
      rw [List.cons_append, lex_char hplain, lex_char hc, ih u.length (Nat.lt_succ_self _) u rfl]
      rfl

theorem lex_of_newline {us ts : List Token} (h : lex (flat (us ++ .char '\n' :: ts)) = us ++ .char '\n' :: ts) :
    lex (flat us) = us := by
  have hcut : lex (flat ((us ++ [.char '\n']) ++ ts)) = (us ++ [.char '\n']) ++ ts := by
    rw [List.append_assoc]
    exact h
  have hrest : lex (flat ts) = ts := lex_flat_suffix hcut
  rw [flat_append, flat_cons] at h
  have hsplit := lex_append_newline (flat us) (flat ts)
  rw [hrest] at hsplit
  exact List.append_cancel_right (hsplit.symm.trans h)

/-! ## characters in front -/

/-- characters that are no bracket, the last of them no backslash -/
theorem lex_chars_append {s : Text} (hs : '[' ∉ s) (hl : s.getLast? ≠ some '\\') (t : Text) :
    lex (s ++ t) = s.map .char ++ lex t := by
  induction s with
  | nil => rfl
  | cons c s ih =>
    have hc : c ≠ '[' := fun h => hs (h ▸ List.mem_cons_self)
    have hplain : Plain c (s ++ t) := by
      refine ⟨?_, fun h => ?_⟩
      · cases hm : markerName (c :: (s ++ t)) with
        | none => rfl
        | some name => exact absurd (markerName_cons hm) hc
      · cases s with
        | nil =>
          rw [h] at hl
          exact absurd rfl hl
        | cons d s =>
          cases hm : markerName (d :: (s ++ t)) with
          | none => exact hm
          | some name =>
            exact absurd (markerName_cons hm ▸ List.mem_cons_of_mem c List.mem_cons_self) hs
    have hlast : s.getLast? ≠ some '\\' := by
      cases s with
      | nil => exact nofun
      | cons d s => exact hl
    rw [List.cons_append, lex_char hplain, ih (fun h => hs (List.mem_cons_of_mem c h)) hlast]
    rfl

theorem flat_chars (s : Text) : flat (s.map .char) = s := by
  induction s with
  | nil => rfl
  | cons c s ih =>
    rw [List.map_cons, flat_cons, ih]
    rfl

/-- a marker that is not escaped ends what is before it -/
theorem lex_append_tag {name : Text} (hname : Layers.matchesName name = true) (s t : Text) :
    ∃ ts k, (k = .tag name ∨ k = .escaped name) ∧ lex (s ++ (tagText name ++ t)) = ts ++ k :: lex t := by
  induction hn : s.length using Nat.strong_induction_on generalizing s with
  | _ n ih =>
    subst hn
    rcases lex_cases s with rfl | ⟨m, u, hm, rfl⟩ | ⟨m, u, hm, rfl⟩ | ⟨c, u, hc, rfl⟩
    · exact ⟨[], .tag name, Or.inl rfl, lex_tag hname t⟩
    · obtain ⟨ts, k, hk, hlex⟩ := ih u.length (by rw [List.length_append, length_tagText]; omega) u rfl
      exact ⟨.tag m :: ts, k, hk, by rw [List.append_assoc, lex_tag hm, hlex]; rfl⟩
    · obtain ⟨ts, k, hk, hlex⟩ := ih u.length
        (by rw [List.length_cons, List.length_append, length_tagText]; omega) u rfl
      exact ⟨.escaped m :: ts, k, hk, by rw [List.cons_append, List.append_assoc, lex_escaped hm, hlex]; rfl⟩
    · obtain ⟨ts, k, hk, hlex⟩ := ih u.length (Nat.lt_succ_self _) u rfl
      by_cases hb : c = '\\' ∧ u = []
      · obtain ⟨rfl, rfl⟩ := hb
        exact ⟨[], .escaped name, Or.inr rfl, lex_escaped hname t⟩
      · have htag : tagText name ++ t = '[' :: ((tagText name).tail ++ t) := rfl
        have hplain : Plain c (u ++ (tagText name ++ t)) := by
          rw [htag]
          refine ⟨?_, fun h => ?_⟩
          · rw [← List.cons_append, markerName_append_cons (List.cons_ne_nil c u) (Or.inl rfl)]
            exact hc.1
          · have hu : u ≠ [] := fun hu => hb ⟨h, hu⟩
            rw [markerName_append_cons hu (Or.inl rfl)]
            exact hc.2 h
        exact ⟨.char c :: ts, k, hk, by rw [List.cons_append, lex_char hplain, hlex]; rfl⟩

/-! ## escaping -/

def coverFrom : ℕ → Text → List Token
  | _, [] => []
  | k + 1, _ :: t => coverFrom k t
  | 0, c :: t =>
    match markerName (c :: t) with
    | some name => .escaped name :: coverFrom (name.length + 8) t
    | none => .char c :: coverFrom 0 t

/-- a stored text, every marker in it escaped -/
def cover (t : Text) : List Token := coverFrom 0 t

theorem coverFrom_drop (k : ℕ) (t : Text) : coverFrom k t = cover (t.drop k) := by
  induction t generalizing k with
  | nil =>
    cases k with
    | zero => rfl
    | succ k => rfl
  | cons c t ih =>
    cases k with
    | zero => rfl
    | succ k => exact ih k

theorem cover_tag {name : Text} (h : Layers.matchesName name = true) (t : Text) :
    cover (tagText name ++ t) = .escaped name :: cover t := by
  have hname := markerName_tagText h t
  have hlen : name.length + 8 = (tagText name).tail.length := by
    rw [List.length_tail, length_tagText]
    rfl
  have hcons : tagText name ++ t = '[' :: ((tagText name).tail ++ t) := rfl
  rw [hcons] at hname ⊢
  rw [cover, coverFrom, hname]
  show Token.escaped name :: coverFrom (name.length + 8) _ = _
  rw [coverFrom_drop, hlen, List.drop_left]

theorem cover_char {c : Char} {t : Text} (h : markerName (c :: t) = none) :
    cover (c :: t) = .char c :: cover t := by
  rw [cover, coverFrom, h]
  rfl

theorem escapeFrom_append (s t : Text) : escapeFrom s.length (s ++ t) = s ++ escapeMarkers t := by
  induction s with
  | nil => rfl
  | cons c s ih =>
    rw [List.length_cons, List.cons_append, escapeFrom, ih]
    rfl

theorem escape_tag {name : Text} (h : Layers.matchesName name = true) (t : Text) :
    escapeMarkers (tagText name ++ t) = '\\' :: (tagText name ++ escapeMarkers t) := by
  have hmarker := marker_tagText h t
  have hlen : name.length + 8 = (tagText name).tail.length := by
    rw [List.length_tail, length_tagText]
    rfl
  have hcons : tagText name ++ t = '[' :: ((tagText name).tail ++ t) := rfl
  rw [hcons] at hmarker ⊢
  rw [escapeMarkers, escapeFrom, hmarker]
  show '\\' :: '[' :: escapeFrom (name.length + 8) _ = _
  rw [hlen, escapeFrom_append]
  rfl

theorem escape_char {c : Char} {t : Text} (h : markerName (c :: t) = none) :
    escapeMarkers (c :: t) = c :: escapeMarkers t := by
  have hnone : marker (c :: t) = none := Option.map_eq_none_iff.mp h
  rw [escapeMarkers, escapeFrom, hnone]
  rfl

/-- a text begins with a marker or with another character -/
theorem cover_cases (t : Text) : t = [] ∨
    (∃ name u, Layers.matchesName name = true ∧ t = tagText name ++ u) ∨
    ∃ c u, markerName (c :: u) = none ∧ t = c :: u := by
  cases t with
  | nil => exact Or.inl rfl
  | cons c t =>
    cases h : markerName (c :: t) with
    | some name =>
      obtain ⟨hname, u, hu⟩ := markerName_eq_some h
      exact Or.inr (Or.inl ⟨name, u, hname, hu⟩)
    | none => exact Or.inr (Or.inr ⟨c, t, h, rfl⟩)

theorem prefix_of_escape {p t : Text} (hp : '\\' ∉ p) (h : p <+: escapeMarkers t) : p <+: t := by
  induction p generalizing t with
  | nil => exact List.nil_prefix
  | cons d p ih =>
    rcases cover_cases t with rfl | ⟨name, u, hname, rfl⟩ | ⟨c, u, hc, rfl⟩
    · exact h
    · rw [escape_tag hname] at h
      have hd := (List.cons_prefix_cons.mp h).1
      exact absurd (hd ▸ List.mem_cons_self) hp
    · rw [escape_char hc] at h
      obtain ⟨rfl, hrest⟩ := List.cons_prefix_cons.mp h
      exact List.cons_prefix_cons.mpr ⟨rfl, ih (fun hmem => hp (List.mem_cons_of_mem d hmem)) hrest⟩

theorem markerName_escape (t : Text) : markerName (escapeMarkers t) = none := by
  cases h : markerName (escapeMarkers t) with
  | none => rfl
  | some name =>
    obtain ⟨hname, v, hv⟩ := markerName_eq_some h
    rcases cover_cases t with rfl | ⟨m, u, hm, rfl⟩ | ⟨c, u, hc, rfl⟩
    · exact nomatch h.symm.trans markerName_nil
    · rw [escape_tag hm] at h
      exact absurd (markerName_cons h) (by decide)
    · have hpre : tagText name <+: escapeMarkers (c :: u) := ⟨v, hv.symm⟩
      have hbs : '\\' ∉ tagText name := fun hmem => by
        rcases List.mem_cons.mp hmem with heq | hmem
        · exact absurd heq (by decide)
        · exact tag_char hname (Or.inr (Or.inl rfl)) hmem
      have hsome := markerName_of_front h (prefix_of_escape hbs hpre)
      rw [hc] at hsome
      exact nomatch hsome

/-- escaped text is read as the stored text -/
theorem lex_escapeMarkers (t : Text) : lex (escapeMarkers t) = cover t := by
  induction hn : t.length using Nat.strong_induction_on generalizing t with
  | _ n ih =>
    subst hn
    rcases cover_cases t with rfl | ⟨name, u, hname, rfl⟩ | ⟨c, u, hc, rfl⟩
    · rfl
    · rw [escape_tag hname, lex_escaped hname, cover_tag hname,
        ih u.length (by rw [List.length_append, length_tagText]; omega) u rfl]
    · have hplain : Plain c (escapeMarkers u) := by
        refine ⟨?_, fun _ => markerName_escape u⟩
        rw [← escape_char hc]
        exact markerName_escape (c :: u)
      rw [escape_char hc, lex_char hplain, cover_char hc, ih u.length (Nat.lt_succ_self _) u rfl]

theorem stored_cover (t : Text) : (cover t).flatMap Token.stored = t := by
  induction hn : t.length using Nat.strong_induction_on generalizing t with
  | _ n ih =>
    subst hn
    rcases cover_cases t with rfl | ⟨name, u, hname, rfl⟩ | ⟨c, u, hc, rfl⟩
    · rfl
    · rw [cover_tag hname, List.flatMap_cons,
        ih u.length (by rw [List.length_append, length_tagText]; omega) u rfl]
      rfl
    · rw [cover_char hc, List.flatMap_cons, ih u.length (Nat.lt_succ_self _) u rfl]
      rfl

/-- characters without a bracket are covered as they are, and escaped as they are -/
theorem cover_chars_append {s : Text} (hs : '[' ∉ s) (t : Text) :
    cover (s ++ t) = s.map .char ++ cover t ∧ escapeMarkers (s ++ t) = s ++ escapeMarkers t := by
  induction s with
  | nil => exact ⟨rfl, rfl⟩
  | cons c s ih =>
    obtain ⟨hcover, hescape⟩ := ih fun h => hs (List.mem_cons_of_mem c h)
    have hnone : markerName (c :: (s ++ t)) = none := by
      cases hm : markerName (c :: (s ++ t)) with
      | none => rfl
      | some name => exact absurd (markerName_cons hm ▸ List.mem_cons_self) hs
    rw [List.cons_append, cover_char hnone, escape_char hnone, hcover, hescape]
    exact ⟨rfl, rfl⟩

/-! ## white space at the ends -/

/-- a marker with nothing but white space after it -/
def EndsInMarker (t : Text) : Prop :=
  ∃ x name w, Layers.matchesName name = true ∧ Text.isBlank w = true ∧ t = x ++ (tagText name ++ w)

def stripTokens (ts : List Token) : List Token := (ts.dropWhile Token.isBlank).rdropWhile Token.isBlank

theorem bracket_of_blank {w : Text} (hw : Text.isBlank w = true) : '[' ∉ w ∧ w.getLast? ≠ some '\\' := by
  have hall := Text.isBlank_iff.mp hw
  refine ⟨fun h => absurd (hall _ h) (by decide), fun h => ?_⟩
  exact absurd (hall _ (List.mem_of_getLast? h)) (by decide)

theorem blank_chars {w : Text} (hw : Text.isBlank w = true) : ∀ k ∈ w.map Token.char, k.isBlank = true := by
  intro k hk
  obtain ⟨c, hc, rfl⟩ := List.mem_map.mp hk
  exact Text.isBlank_iff.mp hw c hc

theorem rdropWhile_append_blank {ts us : List Token} (h : ∀ k ∈ us, k.isBlank = true) :
    (ts ++ us).rdropWhile Token.isBlank = ts.rdropWhile Token.isBlank := by
  rw [List.rdropWhile, List.reverse_append, List.dropWhile_append_of_pos fun k hk => h k (List.mem_reverse.mp hk)]
  rfl

theorem rdropWhile_concat_of_not {ts : List Token} {k : Token} (h : k.isBlank = false) :
    (ts ++ [k]).rdropWhile Token.isBlank = ts ++ [k] :=
  List.rdropWhile_concat_neg _ _ _ (by rw [h]; exact Bool.false_ne_true)

theorem dropWhile_of_head {ts : List Token} (h : ∀ k, ts.head? = some k → k.isBlank = false) :
    ts.dropWhile Token.isBlank = ts := by
  cases ts with
  | nil => rfl
  | cons k ts => rw [List.dropWhile_cons, h k rfl, if_neg Bool.false_ne_true]

theorem lex_lstrip (t : Text) : lex (Text.lstrip t) = (lex t).dropWhile Token.isBlank := by
  obtain ⟨w, hw, ht⟩ := Text.lstrip_append t
  obtain ⟨hb, hl⟩ := bracket_of_blank hw
  conv_rhs => rw [ht, lex_chars_append hb hl, List.dropWhile_append_of_pos (blank_chars hw)]
  refine (dropWhile_of_head fun k hk => ?_).symm
  rcases lex_cases (Text.lstrip t) with heq | ⟨name, u, hname, heq⟩ | ⟨name, u, hname, heq⟩ | ⟨c, u, hc, heq⟩
  · rw [heq] at hk
    exact nomatch hk
  · rw [heq, lex_tag hname] at hk
    obtain rfl := Option.some.inj hk
    rfl
  · rw [heq, lex_escaped hname] at hk
    obtain rfl := Option.some.inj hk
    rfl
  · rw [heq, lex_char hc] at hk
    obtain rfl := Option.some.inj hk
    have hhead := List.head?_dropWhile_not Text.isSpace t
    have hlstrip : t.dropWhile Text.isSpace = c :: u := heq
    rw [hlstrip] at hhead
    exact hhead

theorem EndsInMarker.append {t : Text} (h : EndsInMarker t) (s : Text) : EndsInMarker (s ++ t) := by
  obtain ⟨x, name, w, hname, hw, rfl⟩ := h
  exact ⟨s ++ x, name, w, hname, hw, (List.append_assoc _ _ _).symm⟩

theorem endsInMarker_of_cut {c : Char} {u w name v : Text} (hname : Layers.matchesName name = true)
    (hw : Text.isBlank w = true) (h : c :: (u ++ w) = tagText name ++ v) (hno : ¬tagText name <+: c :: u) :
    EndsInMarker (c :: (u ++ w)) := by
  rw [← List.cons_append] at h
  rcases List.append_eq_append_iff.mp h with ⟨m, htag, hw'⟩ | ⟨m, hu, -⟩
  · refine ⟨[], name, v, hname, ?_, h⟩
    rw [hw', Text.isBlank_append, Bool.and_eq_true] at hw
    exact hw.2
  · exact absurd ⟨m, hu.symm⟩ hno

/-- white space after a text that it does not complete to a marker -/
theorem lex_append_blank {r w : Text} (hw : Text.isBlank w = true) (h : ¬EndsInMarker (r ++ w)) :
    lex (r ++ w) = lex r ++ w.map .char := by
  induction hn : r.length using Nat.strong_induction_on generalizing r with
  | _ n ih =>
    subst hn
    obtain ⟨hb, hl⟩ := bracket_of_blank hw
    rcases lex_cases r with rfl | ⟨name, u, hname, rfl⟩ | ⟨name, u, hname, rfl⟩ | ⟨c, u, hc, rfl⟩
    · have hchars := lex_chars_append hb hl []
      rw [List.append_nil, lex_nil, List.append_nil] at hchars
      exact hchars
    · rw [List.append_assoc] at h ⊢
      rw [lex_tag hname, lex_tag hname, ih u.length (by rw [List.length_append, length_tagText]; omega)
        (fun he => h (he.append _)) rfl]
      rfl
    · rw [List.cons_append, List.append_assoc] at h ⊢
      rw [lex_escaped hname, lex_escaped hname, ih u.length
        (by rw [List.length_cons, List.length_append, length_tagText]; omega)
        (fun he => h ((he.append (tagText name)).append ['\\'])) rfl]
      rfl
    · have hplain : Plain c (u ++ w) := by
        refine ⟨?_, fun hbs => ?_⟩
        · cases hm : markerName (c :: (u ++ w)) with
          | none => rfl
          | some name =>
            obtain ⟨hname, v, hv⟩ := markerName_eq_some hm
            refine absurd (endsInMarker_of_cut hname hw hv fun hpre => ?_) h
            exact nomatch hc.1.symm.trans (markerName_of_front hm hpre)
        · cases hm : markerName (u ++ w) with
          | none => rfl
          | some name =>
            obtain ⟨hname, v, hv⟩ := markerName_eq_some hm
            cases u with
            | nil =>
              rw [List.nil_append] at hm
              obtain ⟨d, w', rfl⟩ : ∃ d w', w = d :: w' := by
                cases w with
                | nil => exact nomatch markerName_nil.symm.trans hm
                | cons d w' => exact ⟨d, w', rfl⟩
              exact absurd (markerName_cons hm ▸ List.mem_cons_self) hb
            | cons d u =>
              refine absurd ((endsInMarker_of_cut hname hw hv fun hpre => ?_).append [c]) h
              exact nomatch (hc.2 hbs).symm.trans (markerName_of_front hm hpre)
      rw [List.cons_append, lex_char hplain, lex_char hc, ih u.length (Nat.lt_succ_self _)
        (fun he => h (he.append [c])) rfl]
      rfl

theorem last_of_rstrip {t : Text} {ts : List Token} {k : Token} (h : lex (Text.rstrip t) = ts ++ [k]) :
    k.isBlank = false := by
  have hflat := flat_lex (Text.rstrip t)
  rw [h, flat_append, flat_cons, flat_nil, List.append_nil] at hflat
  cases k with
  | char c =>
    have hlast := Text.rstrip_rstrip t
    rw [← hflat] at hlast
    cases hc : Text.isSpace c with
    | false => exact hc
    | true =>
      have hblank : Text.isBlank (Token.char c).shown = true := Text.isBlank_iff.mpr fun d hd => by
        rw [List.mem_singleton.mp hd]
        exact hc
      rw [Text.rstrip_append_blank hblank] at hlast
      have hlen := congrArg List.length hlast
      have hle := (Text.rstrip_prefix (flat ts)).length_le
      rw [List.length_append] at hlen
      have hone : (Token.char c).shown.length = 1 := rfl
      omega
  | escaped name => rfl
  | tag name => rfl

theorem rdropWhile_lex_rstrip (t : Text) :
    (lex (Text.rstrip t)).rdropWhile Token.isBlank = lex (Text.rstrip t) := by
  rcases List.eq_nil_or_concat (lex (Text.rstrip t)) with hnil | ⟨ts, k, hk⟩
  · rw [hnil]
    rfl
  · rw [List.concat_eq_append] at hk
    rw [hk, rdropWhile_concat_of_not (last_of_rstrip hk)]

/-- the end of a text is cut off as its tokens are, unless the blank of a marker is there -/
theorem lex_rstrip (t : Text) : lex (Text.rstrip t) = (lex t).rdropWhile Token.isBlank ↔ ¬EndsInMarker t := by
  constructor
  · rintro h ⟨x, name, w, hname, hw, rfl⟩
    obtain ⟨ts, k, hk, hlex⟩ := lex_append_tag hname x w
    obtain ⟨hb, hl⟩ := bracket_of_blank hw
    have hchars := lex_chars_append hb hl []
    rw [List.append_nil, lex_nil, List.append_nil] at hchars
    have hkeep : k.isBlank = false := by
      rcases hk with rfl | rfl
      · rfl
      · rfl
    rw [hlex, hchars, List.append_cons, rdropWhile_append_blank (blank_chars hw),
      rdropWhile_concat_of_not hkeep] at h
    have hflat := flat_lex (Text.rstrip (x ++ (tagText name ++ w)))
    have hlast : ∃ y, k.shown = y ++ [' '] := by
      rcases hk with rfl | rfl
      · exact ⟨'[' :: 'l' :: 'a' :: 'y' :: 'e' :: 'r' :: ':' :: (name ++ [']']), by
          simp only [Token.shown, tagText, List.cons_append, List.append_assoc, List.nil_append]⟩
      · exact ⟨'\\' :: '[' :: 'l' :: 'a' :: 'y' :: 'e' :: 'r' :: ':' :: (name ++ [']']), by
          simp only [Token.shown, tagText, List.cons_append, List.append_assoc, List.nil_append]⟩
    obtain ⟨y, hy⟩ := hlast
    rw [h, flat_append, flat_cons, flat_nil, List.append_nil, hy, ← List.append_assoc] at hflat
    have hstrip := Text.rstrip_rstrip (x ++ (tagText name ++ w))
    rw [← hflat, Text.rstrip_append_blank rfl] at hstrip
    have hle := (Text.rstrip_prefix (flat ts ++ y)).length_le
    rw [hstrip] at hle
    simp only [List.length_append, List.length_singleton] at hle
    omega
  · intro h
    obtain ⟨w, hw, ht⟩ := Text.rstrip_append t
    have hlex : lex t = lex (Text.rstrip t) ++ w.map .char := by
      conv_lhs => rw [ht]
      rw [ht] at h
      exact lex_append_blank hw h
    rw [hlex, rdropWhile_append_blank (blank_chars hw), rdropWhile_lex_rstrip]

theorem endsInMarker_lstrip (t : Text) : EndsInMarker (Text.lstrip t) ↔ EndsInMarker t := by
  obtain ⟨w, hw, ht⟩ := Text.lstrip_append t
  constructor
  · intro h
    rw [ht]
    exact h.append w
  · rintro ⟨x, name, v, hname, hv, h⟩
    have hboth : x ++ (tagText name ++ v) = w ++ Text.lstrip t := h.symm.trans ht
    rcases List.append_eq_append_iff.mp hboth with ⟨m, hx, hm⟩ | ⟨m, hx, hm⟩
    · cases m with
      | nil => exact ⟨[], name, v, hname, hv, hm.symm⟩
      | cons c m =>
        have hc : '[' = c := (List.cons.inj hm).1
        refine absurd ?_ (bracket_of_blank hw).1
        rw [hx, ← hc]
        exact List.mem_append_right x List.mem_cons_self
    · exact ⟨m, name, v, hname, hv, hm⟩

/-- white space at the ends is cut off token by token exactly when the text does not end in a marker -/
theorem lex_strip (t : Text) : lex (Text.strip t) = stripTokens (lex t) ↔ ¬EndsInMarker t := by
  rw [← endsInMarker_lstrip, stripTokens, ← lex_lstrip, Text.strip]
  exact lex_rstrip (Text.lstrip t)

/-- `MARKER_RE` finds nothing -/
def NoMarker (t : Text) : Prop := ∀ s, s <:+ t → marker s = none

/-- a text without markers is its characters -/
theorem lex_chars_iff {t : Text} : lex t = t.map .char ↔ NoMarker t := by
  constructor
  · rintro h s ⟨x, rfl⟩
    cases hm : marker s with
    | none => rfl
    | some n =>
      obtain ⟨name, u, hname, -, rfl⟩ := marker_eq_some hm
      obtain ⟨ts, k, hk, hlex⟩ := lex_append_tag hname x u
      rw [hlex] at h
      have hmem : k ∈ (x ++ (tagText name ++ u)).map Token.char := h ▸ List.mem_append_right ts List.mem_cons_self
      obtain ⟨c, -, hc⟩ := List.mem_map.mp hmem
      rcases hk with rfl | rfl
      · exact nomatch hc
      · exact nomatch hc
  · intro h
    induction t with
    | nil => rfl
    | cons c t ih =>
      have hnone : ∀ s, s <:+ c :: t → markerName s = none := fun s hs => by rw [markerName, h s hs]; rfl
      have hplain : Plain c t := ⟨hnone _ List.suffix_rfl, fun _ => hnone _ (List.suffix_cons c t)⟩
      rw [lex_char hplain, ih fun s hs => h s (hs.trans (List.suffix_cons c t))]
      rfl

/-- the end of a text is in its last line, when that is not blank -/
theorem endsInMarker_append_newline (s : Text) {t : Text} (ht : Text.isBlank t = false) :
    EndsInMarker (s ++ '\n' :: t) ↔ EndsInMarker t := by
  constructor
  · rintro ⟨x, name, w, hname, hw, h⟩
    have hblank : ∀ m, m ++ '\n' :: t = w → False := fun m hm => by
      rw [← hm, Text.isBlank_append, Bool.and_eq_true] at hw
      have htail : Text.isBlank t = true := Text.isBlank_iff.mpr fun c hc =>
        Text.isBlank_iff.mp hw.2 c (List.mem_cons_of_mem _ hc)
      rw [ht] at htail
      exact Bool.noConfusion htail
    rcases List.append_eq_append_iff.mp h with ⟨m, hx, hm⟩ | ⟨m, hs, hm⟩
    · cases m with
      | nil => exact absurd (List.cons.inj hm).1 (by decide)
      | cons c m => exact ⟨m, name, w, hname, hw, (List.cons.inj hm).2⟩
    · rcases List.append_eq_append_iff.mp hm.symm with ⟨m', htag, hm'⟩ | ⟨m', -, hw'⟩
      · cases m' with
        | nil => exact (hblank [] hm').elim
        | cons c m' =>
          have hmem : c ∈ tagText name := htag ▸ List.mem_append_right m List.mem_cons_self
          rw [← (List.cons.inj hm').1] at hmem
          rcases List.mem_cons.mp hmem with heq | hmem
          · exact absurd heq (by decide)
          · exact absurd hmem (tag_char hname (Or.inr (Or.inr rfl)))
      · exact (hblank m' hw'.symm).elim
  · intro h
    have hall := h.append (s ++ ['\n'])
    rwa [List.append_assoc] at hall

end Body
