import Stigmergy.Lib.Text

/-!
# What the code takes from its runtime

YAML values as `yaml.safe_load` returns them, and the functions of the standard library and of the
YAML parser the models leave open: case mapping, Unicode normalisation, digests, dates.  A theorem
about `(R : Runtime)` holds whatever these functions are, up to the laws in the structure.

* `Yaml`        a loaded value with the text `str()` gives for it;
* `Metadata`    a front matter mapping;
* `Runtime`     the open functions.
-/

set_option linter.unusedSectionVars false

/-- microseconds, the resolution of `timestamptz` -/
abbrev Time := ℕ

inductive Yaml where
  | null
  | str (s : Text)
  /-- a date or a timestamp, by its calendar day -/
  | date (day shown : Text)
  | list (items : List Yaml) (shown : Text)
  | map (isEmpty : Bool) (shown : Text)
  /-- numbers and booleans -/
  | scalar (truthy : Bool) (shown : Text)

namespace Yaml

/-- `bool(value)` -/
def truthy : Yaml → Bool
  | null => false
  | str s => !s.isEmpty
  | date _ _ => true
  | list items _ => !items.isEmpty
  | map isEmpty _ => !isEmpty
  | scalar t _ => t

/-- `str(value)` -/
def shown : Yaml → Text
  | null => "None".toList
  | str s => s
  | date _ t | list _ t | map _ t | scalar _ t => t

/-- `str(value or "")` -/
def orEmpty (v : Yaml) : Text := if v.truthy then v.shown else []

def isNull : Yaml → Bool
  | null => true
  | _ => false

def asStr : Yaml → Option Text
  | str s => some s
  | _ => none

end Yaml

/-- a loaded mapping, in order; a key that is no string stands here as a text no field has -/
abbrev Metadata := List (Text × Yaml)

namespace Metadata

/-- `metadata.get(key)` -/
def get (m : Metadata) (key : String) : Yaml := ((m.find? fun e => e.1 == key.toList).map (·.2)).getD .null

/-- `key in metadata` -/
def has (m : Metadata) (key : String) : Bool := m.any fun e => e.1 == key.toList

end Metadata

namespace Yaml

/-- what front matter is written with: nothing, strings and lists of strings -/
inductive Plain (showList : List Text → Text) : Yaml → Prop where
  | null : Plain showList .null
  | str (s : Text) : Plain showList (.str s)
  | list (ss : List Text) : Plain showList (.list (ss.map .str) (showList ss))

end Yaml

/-- a mapping of plain values under names in lower case -/
structure Metadata.Plain (showList : List Text → Text) (m : Metadata) : Prop where
  values : ∀ e ∈ m, e.2.Plain showList
  keys : ∀ e ∈ m, ∀ c ∈ e.1, ('a' ≤ c ∧ c ≤ 'z') ∨ c = '_'
  nodup : (m.map Prod.fst).Nodup

/-- the functions a model leaves open -/
structure Runtime where
  /-- `str.lower`, `str.casefold` -/
  lower : Text → Text
  casefold : Text → Text
  /-- `unicodedata.normalize` -/
  nfc : Text → Text
  nfkc : Text → Text
  /-- `normalize("NFKD", …).encode("ascii", "ignore")` -/
  nfkdAscii : Text → Text
  /-- `\d` and `str.isalnum` -/
  isDecimal : Char → Bool
  isAlnum : Char → Bool
  /-- `int` of one decimal character -/
  digit : Char → ℕ
  sha256 : Text → Text
  repr : Text → Text
  /-- `str` of a list of strings -/
  showList : List Text → Text
  /-- `date.fromisoformat(…).isoformat()`, nothing for a `ValueError` -/
  isoDate : Text → Option Text
  /-- `yaml.safe_load`, nothing for a `YAMLError` -/
  safeLoad : Text → Option (Yaml ⊕ Metadata)
  /-- `yaml.safe_dump` of a mapping, Unicode as it is and the keys in order -/
  dump : Metadata → Text
  /-- `_asked_for_an_audience` -/
  askedForAnAudience : Text → Bool
  /-- the schema models on a source's front matter: year and month of its `captured_at`, and its title;
  nothing for a `ValueError` -/
  provenance : Metadata → Option (ℕ × ℕ × Option Text)
  /-- the message of `_validate_artifacts` -/
  artifactsError : Yaml → Option Text
  /-- white space is normalised to white space and composes with nothing before it -/
  nfkc_append_blank : ∀ t w : Text, Text.isBlank w = true →
    ∃ v, Text.isBlank v = true ∧ nfkc (t ++ w) = nfkc t ++ v
  /-- plain front matter is loaded as it was dumped, and holds no closing fence -/
  load_dump : ∀ m : Metadata, m.Plain showList →
    safeLoad (Text.rstrip (dump m)) = some (.inr m) ∧
      Text.contains "\n---".toList (Text.rstrip (dump m)) = false
