import Stigmergy.Lib.Json

/-!
# Writing JSON

`json.dumps` with `ensure_ascii=False` of values without numbers, in one style or another: what is
written between two items, after an opening bracket and before a closing one.

* `size_pretty`   the lines and the indentation of `indent=2` are `layout` more bytes than `dumps` on one line;
* `loads_text`    what is written without blanks is read back.
-/

set_option linter.unusedSectionVars false

/-- a value without numbers, the keys of a mapping in order -/
inductive Doc where
  | null
  | bool (b : Bool)
  | str (t : Text)
  | arr (items : List Doc)
  | obj (entries : List (Text × Doc))

namespace Doc

/-- how the parts of an array or an object are set apart, by the depth they stand at -/
structure Style where
  comma : ℕ → Text
  opening : ℕ → Text
  closing : ℕ → Text
  colon : Text

/-- the default separators -/
def line : Style := ⟨fun _ => ", ".toList, fun _ => [], fun _ => [], ": ".toList⟩

/-- `separators=(",", ":")` -/
def tight : Style := ⟨fun _ => [','], fun _ => [], fun _ => [], [':']⟩

def newline (n : ℕ) : Text := '\n' :: List.replicate (2 * n) ' '

/-- `indent=2` -/
def pretty : Style := ⟨fun n => ',' :: newline n, newline, newline, ": ".toList⟩

/-- the escape of one character when only ASCII controls, quotes and backslashes have one -/
def escape (c : Char) : Text := if c.toNat < 32 ∨ c = '"' ∨ c = '\\' then Json.escape c else [c]

def quoted (t : Text) : Text := '"' :: t.flatMap escape ++ ['"']

section
variable (s : Style)

mutual

/-- `json.dumps` of a value that stands at depth `n` -/
def text (n : ℕ) : Doc → Text
  | null => "null".toList
  | bool true => "true".toList
  | bool false => "false".toList
  | str t => quoted t
  | arr [] => "[]".toList
  | arr (v :: vs) => '[' :: (s.opening (n + 1) ++ (text (n + 1) v ++ items (n + 1) vs)) ++
      (s.closing n ++ [']'])
  | obj [] => "\x7b\x7d".toList
  | obj ((key, v) :: es) => '\x7b' :: (s.opening (n + 1) ++ (quoted key ++ (s.colon ++ text (n + 1) v) ++
      entries (n + 1) es)) ++ (s.closing n ++ ['\x7d'])

/-- the items of an array after the first -/
def items (n : ℕ) : List Doc → Text
  | [] => []
  | v :: vs => s.comma n ++ (text n v ++ items n vs)

/-- the members of an object after the first -/
def entries (n : ℕ) : List (Text × Doc) → Text
  | [] => []
  | (key, v) :: es => s.comma n ++ (quoted key ++ (s.colon ++ text n v) ++ entries n es)

end

end

/-! ## sizes -/

/-- bytes as UTF-8 -/
def size (t : Text) : ℕ := (t.map Char.utf8Size).sum

mutual

/-- the bytes of line ends and indentation, less the blanks they stand for -/
def layout (n : ℕ) : Doc → ℕ
  | null => 0
  | bool _ => 0
  | str _ => 0
  | arr [] => 0
  | arr (v :: vs) => 2 * n + 2 + (2 * (n + 1) + layout (n + 1) v) + itemsLayout (n + 1) vs
  | obj [] => 0
  | obj ((_, v) :: es) => 2 * n + 2 + (2 * (n + 1) + layout (n + 1) v) + entriesLayout (n + 1) es

def itemsLayout (n : ℕ) : List Doc → ℕ
  | [] => 0
  | v :: vs => 2 * n + layout n v + itemsLayout n vs

def entriesLayout (n : ℕ) : List (Text × Doc) → ℕ
  | [] => 0
  | (_, v) :: es => 2 * n + layout n v + entriesLayout n es

end

theorem size_append (s t : Text) : size (s ++ t) = size s + size t := by
  rw [size, List.map_append, List.sum_append]
  rfl

theorem size_cons (c : Char) (t : Text) : size (c :: t) = c.utf8Size + size t := rfl

theorem size_newline (n : ℕ) : size (newline n) = 2 * n + 1 := by
  have hblank : ' '.utf8Size = 1 := rfl
  have hline : '\n'.utf8Size = 1 := rfl
  rw [newline, size_cons, size, List.map_replicate, List.sum_replicate_nat, hblank, hline]
  omega

mutual

/-- line ends and indentation are the only difference between the two styles -/
theorem size_pretty (n : ℕ) : ∀ v, size (text pretty n v) = size (text line n v) + layout n v
  | null => rfl
  | bool true => rfl
  | bool false => rfl
  | str _ => rfl
  | arr [] => rfl
  | arr (v :: vs) => by
    have hv := size_pretty (n + 1) v
    have hvs := size_items (n + 1) vs
    simp only [text, layout, line, pretty, size_append, size_cons, List.nil_append, List.cons_append,
      size_newline] at hv hvs ⊢
    omega
  | obj [] => rfl
  | obj ((key, v) :: es) => by
    have hv := size_pretty (n + 1) v
    have hes := size_entries (n + 1) es
    simp only [text, layout, line, pretty, size_append, size_cons, List.nil_append, List.cons_append,
      size_newline] at hv hes ⊢
    omega

theorem size_items (n : ℕ) : ∀ vs, size (items pretty n vs) = size (items line n vs) + itemsLayout n vs
  | [] => rfl
  | v :: vs => by
    have hv := size_pretty n v
    have hvs := size_items n vs
    have hcomma : size ", ".toList = 2 := rfl
    have hone : ','.utf8Size = 1 := rfl
    simp only [items, itemsLayout, line, pretty, size_append, size_cons, List.cons_append,
      size_newline] at hv hvs ⊢
    omega

theorem size_entries (n : ℕ) :
    ∀ es, size (entries pretty n es) = size (entries line n es) + entriesLayout n es
  | [] => rfl
  | (key, v) :: es => by
    have hv := size_pretty n v
    have hes := size_entries n es
    have hcomma : size ", ".toList = 2 := rfl
    have hone : ','.utf8Size = 1 := rfl
    simp only [entries, entriesLayout, line, pretty, size_append, size_cons, List.cons_append,
      size_newline] at hv hes ⊢
    omega

end

/-! ## reading back -/

mutual

def toJson : Doc → Json
  | null => .null
  | bool b => .bool b
  | str t => .str t
  | arr vs => .arr (toJsons vs)
  | obj es => .obj (toMembers es)

def toJsons : List Doc → List Json
  | [] => []
  | v :: vs => toJson v :: toJsons vs

def toMembers : List (Text × Doc) → List (Text × Json)
  | [] => []
  | (key, v) :: es => (key, toJson v) :: toMembers es

end

theorem unit_escape (c : Char) (t : Text) : Json.unit (escape c ++ t) = some (c, t) := by
  by_cases h : c.toNat < 32 ∨ c = '"' ∨ c = '\\'
  · rw [escape, if_pos h]
    exact Json.unit_escape c t
  · rw [escape, if_neg h]
    push Not at h
    show (if c = '\\' then _ else if c.toNat < 32 then none else some (c, t)) = _
    rw [if_neg h.2.2, if_neg (Nat.not_lt.mpr h.1)]

theorem escape_eq_cons (c : Char) : ∃ d t, escape c = d :: t ∧ d ≠ '"' := by
  by_cases h : c.toNat < 32 ∨ c = '"' ∨ c = '\\'
  · rw [escape, if_pos h]
    exact Json.escape_eq_cons c
  · rw [escape, if_neg h]
    push Not at h
    exact ⟨c, [], rfl, h.2.1⟩

theorem string_escape {n : ℕ} {s : Text} (h : (s.flatMap escape).length < n) (t : Text) :
    Json.string n (s.flatMap escape ++ '"' :: t) = some (s, t) := by
  induction s generalizing n with
  | nil =>
    cases n with
    | zero => exact absurd h (Nat.not_lt_zero _)
    | succ n => rfl
  | cons c s ih =>
    cases n with
    | zero => exact absurd h (Nat.not_lt_zero _)
    | succ n =>
      have hread := unit_escape c (s.flatMap escape ++ '"' :: t)
      obtain ⟨d, u, hescape, hd⟩ := escape_eq_cons c
      rw [List.flatMap_cons, hescape, List.length_append, List.length_cons] at h
      rw [List.flatMap_cons, List.append_assoc]
      rw [hescape] at hread ⊢
      rw [List.cons_append] at hread ⊢
      rw [Json.string]
      · rw [hread]
        show (Json.string n (s.flatMap escape ++ '"' :: t)).map _ = _
        rw [ih (by omega)]
        rfl
      · rintro t' heq
        exact hd (List.cons.inj heq).1

/-- `t` is read as `v` with any fuel above its length, whatever follows -/
def Reads (t : Text) (v : Json) : Prop :=
  (∃ c u, t = c :: u ∧ Json.isSpace c = false ∧ c ≠ ']' ∧ c ≠ '\x7d') ∧
    ∀ n rest, t.length < n → Json.value n (t ++ rest) = some (v, rest)

theorem Reads.skip {t : Text} {v : Json} (h : Reads t v) (rest : Text) : Json.skip (t ++ rest) = t ++ rest := by
  obtain ⟨c, u, rfl, hc, -⟩ := h.1
  exact Json.skip_cons hc _

theorem reads_quoted (t : Text) : Reads (quoted t) (.str t) := by
  refine ⟨⟨'"', t.flatMap escape ++ ['"'], rfl, rfl, by decide, by decide⟩, fun n rest h => ?_⟩
  cases n with
  | zero => exact absurd h (Nat.not_lt_zero _)
  | succ n =>
    rw [quoted, List.length_append, List.length_cons, List.length_singleton] at h
    rw [quoted, List.append_assoc, List.cons_append, Json.value, List.singleton_append,
      string_escape (by omega)]
    rfl

theorem reads_scalar : Reads "null".toList .null ∧ Reads "true".toList (.bool true) ∧
    Reads "false".toList (.bool false) := by
  refine ⟨⟨⟨'n', "ull".toList, rfl, by decide⟩, fun n rest h => ?_⟩,
    ⟨⟨'t', "rue".toList, rfl, by decide⟩, fun n rest h => ?_⟩,
    ⟨⟨'f', "alse".toList, rfl, by decide⟩, fun n rest h => ?_⟩⟩
  all_goals
    cases n with
    | zero => exact absurd h (Nat.not_lt_zero _)
    | succ n => rfl

theorem skip_close {c : Char} (h : c = ',' ∨ c = ']' ∨ c = '\x7d') (t : Text) : Json.skip (c :: t) = c :: t := by
  rcases h with rfl | rfl | rfl
  · exact Json.skip_cons rfl t
  · exact Json.skip_cons rfl t
  · exact Json.skip_cons rfl t

theorem members_of_reads {key t : Text} {v : Json} (hv : Reads t v) {n : ℕ} {c : Char} (rest : Text)
    (hc : c = ',' ∨ c = ']' ∨ c = '\x7d') (h : (quoted key ++ ':' :: t).length < n) :
    Json.members (n + 1) (quoted key ++ (':' :: t ++ c :: rest)) = match c :: rest with
      | '\x7d' :: t => some ([(key, v)], t)
      | ',' :: t => (Json.members n (Json.skip t)).map fun r => ((key, v) :: r.1, r.2)
      | _ => none := by
  have hlen : (key.flatMap escape).length < n ∧ t.length < n := by
    simp only [quoted, List.length_append, List.length_cons] at h
    omega
  have hcons : quoted key ++ (':' :: t ++ c :: rest) =
      '"' :: (key.flatMap escape ++ '"' :: ':' :: (t ++ c :: rest)) := by
    rw [quoted]
    simp only [List.cons_append, List.append_assoc, List.nil_append]
  rw [hcons, Json.members, string_escape hlen.1]
  have hcolon : Json.skip (':' :: (t ++ c :: rest)) = ':' :: (t ++ c :: rest) := Json.skip_cons rfl _
  simp only [hcolon]
  rw [hv.skip, hv.2 n _ hlen.2]
  dsimp only
  rw [skip_close hc]
  rfl

theorem value_array {t : Text} {v : Json} (hv : Reads t v) (n : ℕ) (rest : Text) :
    Json.value (n + 1) ('[' :: (t ++ rest)) = (Json.items n (t ++ rest)).map fun r => (.arr r.1, r.2) := by
  have hskip := hv.skip rest
  obtain ⟨c, u, rfl, -, hc, -⟩ := hv.1
  rw [Json.value]
  split
  · next heq =>
    rw [hskip] at heq
    exact absurd (List.cons.inj heq).1 hc
  · next heq => rw [hskip]

theorem value_object (key : Text) (n : ℕ) (rest : Text) : Json.value (n + 1) ('\x7b' :: (quoted key ++ rest)) =
    (Json.members n (quoted key ++ rest)).map fun r => (.obj r.1, r.2) := by
  have hskip := (reads_quoted key).skip rest
  rw [Json.value]
  split
  · next heq =>
    rw [hskip] at heq
    exact absurd (List.cons.inj heq).1 (by decide)
  · next heq => rw [hskip]

theorem items_of_reads {t : Text} {v : Json} (hv : Reads t v) {n : ℕ} {c : Char} (rest : Text)
    (hc : c = ',' ∨ c = ']' ∨ c = '\x7d') (h : t.length < n) :
    Json.items (n + 1) (t ++ c :: rest) = match c :: rest with
      | ']' :: t => some ([v], t)
      | ',' :: t => (Json.items n (Json.skip t)).map fun r => (v :: r.1, r.2)
      | _ => none := by
  rw [Json.items, hv.2 n _ h]
  dsimp only
  rw [skip_close hc]
  rfl

mutual

/-- what is written without blanks is read back, in front of anything -/
theorem reads_text (k : ℕ) : ∀ v, Reads (text tight k v) (toJson v)
  | null => reads_scalar.1
  | bool true => reads_scalar.2.1
  | bool false => reads_scalar.2.2
  | str t => reads_quoted t
  | arr [] => by
    refine ⟨⟨'[', [']'], rfl, rfl, by decide, by decide⟩, fun n rest h => ?_⟩
    cases n with
    | zero => exact absurd h (Nat.not_lt_zero _)
    | succ n => rfl
  | arr (v :: vs) => by
    have hv := reads_text (k + 1) v
    have hvs := reads_items (k + 1) vs _ _ hv
    refine ⟨⟨'[', _, rfl, rfl, by decide, by decide⟩, fun n rest h => ?_⟩
    cases n with
    | zero => exact absurd h (Nat.not_lt_zero _)
    | succ n =>
      have hshape : text tight k (arr (v :: vs)) ++ rest =
          '[' :: (text tight (k + 1) v ++ (items tight (k + 1) vs ++ ']' :: rest)) := by
        simp only [text, tight, List.nil_append, List.cons_append, List.append_assoc]
      have hlen := congrArg List.length hshape
      simp only [List.length_append, List.length_cons] at hlen h
      rw [hshape, value_array hv, hvs n rest (by rw [List.length_append]; omega)]
      rfl
  | obj [] => by
    refine ⟨⟨'\x7b', ['\x7d'], rfl, rfl, by decide, by decide⟩, fun n rest h => ?_⟩
    cases n with
    | zero => exact absurd h (Nat.not_lt_zero _)
    | succ n => rfl
  | obj ((key, v) :: es) => by
    have hv := reads_text (k + 1) v
    have hes := reads_entries (k + 1) es key _ _ hv
    refine ⟨⟨'\x7b', _, rfl, rfl, by decide, by decide⟩, fun n rest h => ?_⟩
    cases n with
    | zero => exact absurd h (Nat.not_lt_zero _)
    | succ n =>
      have hshape : text tight k (obj ((key, v) :: es)) ++ rest = '\x7b' :: (quoted key ++
          (':' :: text tight (k + 1) v ++ (entries tight (k + 1) es ++ '\x7d' :: rest))) := by
        simp only [text, tight, List.nil_append, List.cons_append, List.append_assoc]
      have hlen := congrArg List.length hshape
      simp only [List.length_append, List.length_cons] at hlen h
      rw [hshape, value_object, hes n rest (by simp only [List.length_append, List.length_cons]; omega)]
      rfl

theorem reads_items (k : ℕ) : ∀ vs (t : Text) (v : Json), Reads t v → ∀ n (rest : Text),
    (t ++ items tight k vs).length + 1 < n →
    Json.items n (t ++ (items tight k vs ++ ']' :: rest)) = some (v :: toJsons vs, rest)
  | [], t, v, hv, n, rest, h => by
    cases n with
    | zero => exact absurd h (Nat.not_lt_zero _)
    | succ n =>
      rw [List.length_append] at h
      rw [items, List.nil_append, items_of_reads hv rest (Or.inr (Or.inl rfl)) (by omega)]
      rfl
  | w :: ws, t, v, hv, n, rest, h => by
    have hw := reads_items k ws _ _ (reads_text k w)
    cases n with
    | zero => exact absurd h (Nat.not_lt_zero _)
    | succ n =>
      have hshape : items tight k (w :: ws) ++ ']' :: rest =
          ',' :: (text tight k w ++ (items tight k ws ++ ']' :: rest)) := by
        simp only [items, tight, List.nil_append, List.cons_append, List.append_assoc]
      have hlen := congrArg List.length hshape
      simp only [List.length_append, List.length_cons] at hlen h
      rw [hshape, items_of_reads hv _ (Or.inl rfl) (by omega)]
      show (Json.items n (Json.skip (text tight k w ++ _))).map _ = _
      rw [(reads_text k w).skip, hw n rest (by rw [List.length_append]; omega)]
      rfl

theorem reads_entries (k : ℕ) : ∀ es (key t : Text) (v : Json), Reads t v → ∀ n (rest : Text),
    (quoted key ++ (':' :: t ++ entries tight k es)).length + 1 < n →
    Json.members n (quoted key ++ (':' :: t ++ (entries tight k es ++ '\x7d' :: rest))) =
      some ((key, v) :: toMembers es, rest)
  | [], key, t, v, hv, n, rest, h => by
    cases n with
    | zero => exact absurd h (Nat.not_lt_zero _)
    | succ n =>
      simp only [List.length_append, List.length_cons] at h
      rw [entries, List.nil_append, members_of_reads hv rest (Or.inr (Or.inr rfl))
        (by simp only [List.length_append, List.length_cons]; omega)]
      rfl
  | (key', w) :: es, key, t, v, hv, n, rest, h => by
    have hw := reads_entries k es key' _ _ (reads_text k w)
    cases n with
    | zero => exact absurd h (Nat.not_lt_zero _)
    | succ n =>
      have hshape : entries tight k ((key', w) :: es) ++ '\x7d' :: rest =
          ',' :: (quoted key' ++ (':' :: text tight k w ++ (entries tight k es ++ '\x7d' :: rest))) := by
        simp only [entries, tight, List.nil_append, List.cons_append, List.append_assoc]
      have hlen := congrArg List.length hshape
      simp only [List.length_append, List.length_cons] at hlen h
      rw [hshape, members_of_reads hv _ (Or.inl rfl)
        (by simp only [List.length_append, List.length_cons]; omega)]
      show (Json.members n (Json.skip (quoted key' ++ _))).map _ = _
      rw [(reads_quoted key').skip, hw n rest (by simp only [List.length_append, List.length_cons]; omega)]
      rfl

end

theorem loads_text (v : Doc) : Json.loads (text tight 0 v) = some (toJson v) := by
  have h := reads_text 0 v
  have hskip := h.skip []
  have hvalue := h.2 ((text tight 0 v).length + 1) [] (Nat.lt_succ_self _)
  rw [List.append_nil] at hskip hvalue
  rw [Json.loads, hskip, hvalue]
  rfl

end Doc
