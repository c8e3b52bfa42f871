import Stigmergy.Lib.Text

/-!
# JSON

`json.dumps` of strings, with every character outside printable ASCII escaped, and `json.loads`.  A
value is read with fuel, one unit for each character of the text.

* `unit_escape`      one escaped character is read back;
* `string_escaped`   so is an escaped string;
* `escape_ascii`     what is written is printable ASCII;
* `value_str`, `members_cons`, `members_last`   reading the parts of an object.

A lone surrogate, which no `Char` is, is refused here; a number is read as its sign, digits and power
of ten.
-/

set_option linter.unusedSectionVars false

inductive Json where
  | null
  | bool (b : Bool)
  | num (negative : Bool) (digits : ℕ) (exponent : ℤ)
  /-- `NaN`, `Infinity` and `-Infinity` -/
  | special
  | str (t : Text)
  | arr (items : List Json)
  | obj (entries : List (Text × Json))

namespace Json

/-! ## Writing -/

def hexDigit (n : ℕ) : Char := if n < 10 then Char.ofNat (48 + n) else Char.ofNat (87 + n)

def hexDigits (n : ℕ) : Text :=
  [hexDigit (n / 4096 % 16), hexDigit (n / 256 % 16), hexDigit (n / 16 % 16), hexDigit (n % 16)]

/-- `\uXXXX` -/
def hexEscape (n : ℕ) : Text := '\\' :: 'u' :: hexDigits n

/-- the escape of one character -/
def escape (c : Char) : Text :=
  if c = '"' then ['\\', '"']
  else if c = '\\' then ['\\', '\\']
  else if c = '\n' then ['\\', 'n']
  else if c = '\r' then ['\\', 'r']
  else if c = '\t' then ['\\', 't']
  else if c.toNat = 12 then ['\\', 'f']
  else if c.toNat = 8 then ['\\', 'b']
  else if 32 ≤ c.toNat ∧ c.toNat ≤ 126 then [c]
  else if c.toNat < 65536 then hexEscape c.toNat
  else hexEscape (55296 + (c.toNat - 65536) / 1024) ++ hexEscape (56320 + (c.toNat - 65536) % 1024)

/-- a string without its quotes -/
def escaped (t : Text) : Text := t.flatMap escape

/-- `json.dumps` of a string -/
def quoted (t : Text) : Text := '"' :: escaped t ++ ['"']

/-! ## Reading -/

def isSpace (c : Char) : Bool := c == ' ' || c == '\t' || c == '\n' || c == '\r'

def skip (t : Text) : Text := t.dropWhile isSpace

def hexValue (c : Char) : Option ℕ :=
  if '0' ≤ c ∧ c ≤ '9' then some (c.toNat - 48)
  else if 'a' ≤ c ∧ c ≤ 'f' then some (c.toNat - 87)
  else if 'A' ≤ c ∧ c ≤ 'F' then some (c.toNat - 55)
  else none

def hex4 : Text → Option (ℕ × Text)
  | a :: b :: c :: d :: t => match hexValue a, hexValue b, hexValue c, hexValue d with
    | some a, some b, some c, some d => some (a * 4096 + b * 256 + c * 16 + d, t)
    | _, _, _, _ => none
  | _ => none

/-- what follows `\u` -/
def unicode (t : Text) : Option (Char × Text) :=
  match hex4 t with
  | none => none
  | some (n, t) =>
    if 55296 ≤ n ∧ n < 56320 then
      match t with
      | '\\' :: 'u' :: t => match hex4 t with
        | some (m, t) =>
          if 56320 ≤ m ∧ m < 57344 then
            some (Char.ofNat (65536 + (n - 55296) * 1024 + (m - 56320)), t)
          else none
        | none => none
      | _ => none
    else if 56320 ≤ n ∧ n < 57344 then none
    else some (Char.ofNat n, t)

def shortEscape (c : Char) : Option Char :=
  if c = '"' ∨ c = '\\' ∨ c = '/' then some c
  else if c = 'n' then some '\n'
  else if c = 'r' then some '\r'
  else if c = 't' then some '\t'
  else if c = 'f' then some (Char.ofNat 12)
  else if c = 'b' then some (Char.ofNat 8)
  else none

/-- one character of a string -/
def unit : Text → Option (Char × Text)
  | [] => none
  | c :: t =>
    if c = '\\' then
      match t with
      | [] => none
      | e :: t => if e = 'u' then unicode t else (shortEscape e).map fun c => (c, t)
    else if c.toNat < 32 then none
    else some (c, t)

/-- the rest of a string after its opening quote -/
def string : ℕ → Text → Option (Text × Text)
  | 0, _ => none
  | n + 1, t =>
    match t with
    | '"' :: t => some ([], t)
    | t => match unit t with
      | none => none
      | some (c, t) => (string n t).map fun r => (c :: r.1, r.2)

def isDigit (c : Char) : Bool := '0' ≤ c && c ≤ '9'

def digitsValue (ds : Text) : ℕ := ds.foldl (fun n c => n * 10 + (c.toNat - 48)) 0

/-- `(\.\d+)?` -/
def fraction : Text → Text × Text
  | '.' :: t => if (t.takeWhile isDigit).isEmpty then ([], '.' :: t)
      else (t.takeWhile isDigit, t.dropWhile isDigit)
  | t => ([], t)

def power (t : Text) : Option (ℤ × Text) :=
  let signed := match t with
    | '-' :: t => (true, t)
    | '+' :: t => (false, t)
    | t => (false, t)
  let ds := signed.2.takeWhile isDigit
  if ds.isEmpty then none
  else some ((if signed.1 then -(digitsValue ds : ℤ) else digitsValue ds), signed.2.dropWhile isDigit)

/-- `([eE][-+]?\d+)?` -/
def exponent : Text → ℤ × Text
  | c :: t => if c = 'e' ∨ c = 'E' then (power t).getD (0, c :: t) else (0, c :: t)
  | [] => (0, [])

/-- a number after its sign -/
def number (negative : Bool) (t : Text) : Option (Json × Text) :=
  let whole := match t with
    | '0' :: t => some (['0'], t)
    | t => if (t.takeWhile isDigit).isEmpty then none
        else some (t.takeWhile isDigit, t.dropWhile isDigit)
  whole.map fun w =>
    let f := fraction w.2
    let e := exponent f.2
    (.num negative (digitsValue (w.1 ++ f.1)) (e.1 - f.1.length), e.2)

def literals : List (Text × Json) :=
  [("null".toList, .null), ("true".toList, .bool true), ("false".toList, .bool false),
    ("NaN".toList, .special), ("Infinity".toList, .special), ("-Infinity".toList, .special)]

def scalar (t : Text) : Option (Json × Text) :=
  match literals.find? fun l => Text.startsWith l.1 t with
  | some (name, v) => some (v, t.drop name.length)
  | none => match t with
    | '-' :: t => number true t
    | t => number false t

mutual
def value : ℕ → Text → Option (Json × Text)
  | 0, _ => none
  | n + 1, t =>
    match t with
    | '"' :: t => (string n t).map fun r => (.str r.1, r.2)
    | '[' :: t => match skip t with
      | ']' :: t => some (.arr [], t)
      | t => (items n t).map fun r => (.arr r.1, r.2)
    | '{' :: t => match skip t with
      | '}' :: t => some (.obj [], t)
      | t => (members n t).map fun r => (.obj r.1, r.2)
    | t => scalar t

/-- the items of an array up to its `]` -/
def items : ℕ → Text → Option (List Json × Text)
  | 0, _ => none
  | n + 1, t =>
    match value n t with
    | none => none
    | some (v, t) => match skip t with
      | ']' :: t => some ([v], t)
      | ',' :: t => (items n (skip t)).map fun r => (v :: r.1, r.2)
      | _ => none

/-- the members of an object up to its brace -/
def members : ℕ → Text → Option (List (Text × Json) × Text)
  | 0, _ => none
  | n + 1, t =>
    match t with
    | '"' :: t => match string n t with
      | none => none
      | some (key, t) => match skip t with
        | ':' :: t => match value n (skip t) with
          | none => none
          | some (v, t) => match skip t with
            | '}' :: t => some ([(key, v)], t)
            | ',' :: t => (members n (skip t)).map fun r => ((key, v) :: r.1, r.2)
            | _ => none
        | _ => none
    | _ => none
end

/-- `json.loads`; nothing for a `ValueError` -/
def loads (t : Text) : Option Json :=
  match value (t.length + 1) (skip t) with
  | some (v, rest) => if (skip rest).isEmpty then some v else none
  | none => none

/-- `data.get(key)` of a mapping: the last of several equal keys counts -/
def get (key : String) : Json → Option Json
  | obj entries => (entries.reverse.find? fun e => e.1 == key.toList).map fun e => e.2
  | _ => none

/-! ## Reading what was written -/

theorem hexValue_hexDigit {n : ℕ} (h : n < 16) : hexValue (hexDigit n) = some n := by
  have hall : ∀ m < 16, hexValue (hexDigit m) = some m := by decide
  exact hall n h

theorem hexDigit_ascii {n : ℕ} (h : n < 16) : 32 ≤ (hexDigit n).toNat ∧ (hexDigit n).toNat ≤ 126 := by
  have hall : ∀ m < 16, 32 ≤ (hexDigit m).toNat ∧ (hexDigit m).toNat ≤ 126 := by decide
  exact hall n h

theorem hex4_hexDigits {n : ℕ} (h : n < 65536) (t : Text) : hex4 (hexDigits n ++ t) = some (n, t) := by
  have hdigit : ∀ m, hexValue (hexDigit (m % 16)) = some (m % 16) := fun m =>
    hexValue_hexDigit (Nat.mod_lt _ (by decide))
  have hsum : n / 4096 % 16 * 4096 + n / 256 % 16 * 256 + n / 16 % 16 * 16 + n % 16 = n := by omega
  simp only [hexDigits, List.cons_append, List.nil_append, hex4, hdigit, hsum]

theorem unit_hexEscape (n : ℕ) (t : Text) : unit (hexEscape n ++ t) = unicode (hexDigits n ++ t) := rfl

theorem not_surrogate (c : Char) : c.toNat < 55296 ∨ 57344 ≤ c.toNat := by
  have h : c.toNat < 55296 ∨ (57343 < c.toNat ∧ c.toNat < 1114112) := c.valid
  omega

theorem toNat_lt (c : Char) : c.toNat < 1114112 := by
  have h : c.toNat < 55296 ∨ (57343 < c.toNat ∧ c.toNat < 1114112) := c.valid
  omega

theorem unicode_char {n : ℕ} (h : n < 65536) (hn : n < 55296 ∨ 57344 ≤ n) (t : Text) :
    unicode (hexDigits n ++ t) = some (Char.ofNat n, t) := by
  unfold unicode
  rw [hex4_hexDigits h]
  dsimp only
  rw [if_neg (by omega), if_neg (by omega)]

theorem unicode_pair {high low : ℕ} (h : 55296 ≤ high ∧ high < 56320) (l : 56320 ≤ low ∧ low < 57344)
    (t : Text) : unicode (hexDigits high ++ (hexEscape low ++ t)) =
      some (Char.ofNat (65536 + (high - 55296) * 1024 + (low - 56320)), t) := by
  unfold unicode
  rw [hex4_hexDigits (by omega)]
  dsimp only [hexEscape, List.cons_append]
  rw [if_pos h]
  show (match hex4 (hexDigits low ++ t) with
    | some (m, t) =>
      if 56320 ≤ m ∧ m < 57344 then
        some (Char.ofNat (65536 + (high - 55296) * 1024 + (m - 56320)), t)
      else none
    | none => none) = _
  rw [hex4_hexDigits (by omega)]
  dsimp only
  rw [if_pos l]

/-- one escaped character is read back -/
theorem unit_escape (c : Char) (t : Text) : unit (escape c ++ t) = some (c, t) := by
  unfold escape
  split
  · rename_i h
    rw [h]
    rfl
  split
  · rename_i h
    rw [h]
    rfl
  split
  · rename_i h
    rw [h]
    rfl
  split
  · rename_i h
    rw [h]
    rfl
  split
  · rename_i h
    rw [h]
    rfl
  split
  · rename_i h
    rw [← Char.ofNat_toNat c, h]
    rfl
  split
  · rename_i h
    rw [← Char.ofNat_toNat c, h]
    rfl
  split
  · rename_i hbackslash _ _ _ _ _ h
    show (if c = '\\' then _ else if c.toNat < 32 then none else some (c, t)) = _
    rw [if_neg hbackslash, if_neg (by omega)]
  split
  · rename_i h
    rw [unit_hexEscape, unicode_char h (not_surrogate c), Char.ofNat_toNat]
  · rename_i h
    have hlt := toNat_lt c
    rw [List.append_assoc, unit_hexEscape, unicode_pair (by omega) (by omega)]
    have hsum : 65536 + (55296 + (c.toNat - 65536) / 1024 - 55296) * 1024 +
        (56320 + (c.toNat - 65536) % 1024 - 56320) = c.toNat := by omega
    rw [hsum, Char.ofNat_toNat]

theorem hexEscape_ascii (n : ℕ) : ∀ c ∈ hexEscape n, 32 ≤ c.toNat ∧ c.toNat ≤ 126 := by
  intro c hc
  unfold hexEscape hexDigits at hc
  simp only [List.mem_cons, List.not_mem_nil, or_false] at hc
  rcases hc with rfl | rfl | rfl | rfl | rfl | rfl
  · decide
  · decide
  · exact hexDigit_ascii (Nat.mod_lt _ (by decide))
  · exact hexDigit_ascii (Nat.mod_lt _ (by decide))
  · exact hexDigit_ascii (Nat.mod_lt _ (by decide))
  · exact hexDigit_ascii (Nat.mod_lt _ (by decide))

theorem escape_ascii (c : Char) : ∀ d ∈ escape c, 32 ≤ d.toNat ∧ d.toNat ≤ 126 := by
  unfold escape
  split
  · decide
  split
  · decide
  split
  · decide
  split
  · decide
  split
  · decide
  split
  · decide
  split
  · decide
  split
  · rename_i h
    intro d hd
    rw [List.mem_singleton.mp hd]
    exact h
  split
  · exact hexEscape_ascii _
  · intro d hd
    rcases List.mem_append.mp hd with hd | hd
    · exact hexEscape_ascii _ d hd
    · exact hexEscape_ascii _ d hd

theorem quoted_ascii (t : Text) : ∀ d ∈ quoted t, 32 ≤ d.toNat ∧ d.toNat ≤ 126 := by
  intro d hd
  unfold quoted at hd
  rw [List.cons_append, List.mem_cons, List.mem_append, List.mem_singleton] at hd
  rcases hd with rfl | hd | rfl
  · decide
  · obtain ⟨c, -, hc⟩ := List.mem_flatMap.mp hd
    exact escape_ascii c d hc
  · decide

/-- an escape does not begin with a quote -/
theorem escape_eq_cons (c : Char) : ∃ d t, escape c = d :: t ∧ d ≠ '"' := by
  unfold escape
  split
  · exact ⟨_, _, rfl, by decide⟩
  split
  · exact ⟨_, _, rfl, by decide⟩
  split
  · exact ⟨_, _, rfl, by decide⟩
  split
  · exact ⟨_, _, rfl, by decide⟩
  split
  · exact ⟨_, _, rfl, by decide⟩
  split
  · exact ⟨_, _, rfl, by decide⟩
  split
  · exact ⟨_, _, rfl, by decide⟩
  split
  · rename_i hquote _ _ _ _ _ _ _
    exact ⟨c, [], rfl, hquote⟩
  split
  · exact ⟨_, _, rfl, by decide⟩
  · exact ⟨_, _, rfl, by decide⟩

theorem length_le_escaped (s : Text) : s.length ≤ (escaped s).length := by
  induction s with
  | nil => exact Nat.le_refl _
  | cons c s ih =>
    obtain ⟨d, t, hescape, -⟩ := escape_eq_cons c
    unfold escaped at ih ⊢
    rw [List.flatMap_cons, hescape, List.cons_append, List.length_cons, List.length_cons,
      List.length_append]
    omega

theorem string_escaped {n : ℕ} {s : Text} (h : s.length < n) (t : Text) :
    string n (escaped s ++ '"' :: t) = some (s, t) := by
  induction s generalizing n with
  | nil =>
    cases n with
    | zero => exact absurd h (Nat.not_lt_zero _)
    | succ n => rfl
  | cons c s ih =>
    cases n with
    | zero => exact absurd h (Nat.not_lt_zero _)
    | succ n =>
      have hread := unit_escape c (escaped s ++ '"' :: t)
      obtain ⟨d, u, hescape, hd⟩ := escape_eq_cons c
      have hcons : escaped (c :: s) ++ '"' :: t = escape c ++ (escaped s ++ '"' :: t) := by
        unfold escaped
        rw [List.flatMap_cons, List.append_assoc]
      rw [hcons]
      rw [hescape] at hread ⊢
      rw [string]
      · rw [hread]
        show (string n (escaped s ++ '"' :: t)).map _ = _
        rw [ih (Nat.lt_of_succ_lt_succ h)]
        rfl
      · rintro t' heq
        exact hd (List.cons.inj heq).1

theorem value_str {n : ℕ} {s : Text} (h : s.length < n) (t : Text) :
    value (n + 1) (quoted s ++ t) = some (.str s, t) := by
  unfold quoted
  rw [List.cons_append, List.cons_append, List.append_assoc]
  rw [value, List.singleton_append, string_escaped h]
  rfl

/-- `text` is read as `v` in front of a comma or a closing brace -/
def Reads (n : ℕ) (text : Text) (v : Json) : Prop :=
  ∀ c t, (c = ',' ∨ c = '}') → value n (skip (text ++ c :: t)) = some (v, c :: t)

theorem skip_cons {c : Char} (h : isSpace c = false) (t : Text) : skip (c :: t) = c :: t := by
  unfold skip
  rw [List.dropWhile_cons, h, if_neg Bool.false_ne_true]

theorem reads_str {n : ℕ} {s : Text} (h : s.length < n) : Reads (n + 1) (quoted s) (.str s) := by
  intro c t _
  have hskip : skip (quoted s ++ c :: t) = quoted s ++ c :: t := skip_cons rfl _
  rw [hskip, value_str h]

theorem reads_one (n : ℕ) : Reads (n + 1) ['1'] (.num false 1 0) := by
  rintro c t (rfl | rfl)
  · rfl
  · rfl

/-- a member with its value, separated as `(",", ":")` says -/
def member (key : Text) (text : Text) : Text := quoted key ++ ':' :: text

/-- what `members` does after a key and its value -/
theorem members_member {n : ℕ} {key text : Text} {v : Json} (hkey : key.length < n)
    (h : Reads n text v) {c : Char} (hc : c = ',' ∨ c = '}') (t : Text) :
    members (n + 1) (member key text ++ c :: t) = match c :: t with
      | '}' :: t => some ([(key, v)], t)
      | ',' :: t => (members n (skip t)).map fun r => ((key, v) :: r.1, r.2)
      | _ => none := by
  have hcons : member key text ++ c :: t = '"' :: (escaped key ++ '"' :: ':' :: (text ++ c :: t)) := by
    unfold member quoted
    simp only [List.cons_append, List.append_assoc, List.nil_append]
  have hskip : skip (c :: t) = c :: t := by
    rcases hc with rfl | rfl
    · exact skip_cons rfl t
    · exact skip_cons rfl t
  rw [hcons, members, string_escaped hkey]
  show (match value n (skip (text ++ c :: t)) with
    | none => none
    | some (v, t) => match skip t with
      | '}' :: t => some ([(key, v)], t)
      | ',' :: t => (members n (skip t)).map fun r : List (Text × Json) × Text =>
          ((key, v) :: r.1, r.2)
      | _ => none) = _
  rw [h c t hc]
  dsimp only
  rw [hskip]
  rfl

theorem members_last {n : ℕ} {key text : Text} {v : Json} (hkey : key.length < n)
    (h : Reads n text v) (t : Text) :
    members (n + 1) (member key text ++ '}' :: t) = some ([(key, v)], t) :=
  members_member hkey h (Or.inr rfl) t

theorem members_cons {n : ℕ} {key text key' text' : Text} {v : Json} (hkey : key.length < n)
    (h : Reads n text v) (t : Text) :
    members (n + 1) (member key text ++ ',' :: (member key' text' ++ t)) =
      (members n (member key' text' ++ t)).map fun r => ((key, v) :: r.1, r.2) := by
  have hskip : skip (member key' text' ++ t) = member key' text' ++ t := skip_cons rfl _
  rw [members_member hkey h (Or.inl rfl)]
  show (members n (skip (member key' text' ++ t))).map _ = _
  rw [hskip]

end Json
