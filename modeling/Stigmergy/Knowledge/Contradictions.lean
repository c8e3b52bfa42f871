import Stigmergy.Lib.Scan
import Stigmergy.Kernel.Runtime

/-!
# Contradiction blocks

A page holds an unresolved contradiction as a block between two comments, from
`knowledge/contradictions.py`.  The record is in the block twice: as prose, and encoded in a third
comment.

* `render`        the block of a record;
* `parseAll`      the blocks of a text with their records, or what is wrong with one of them;
* `append`, `remove`   a block put at the end, a block taken out;
* `Codec`         the encoding, by the law the blocks rest on.
-/

set_option linter.unusedSectionVars false

/-- what both sides say, and where -/
structure Claim where
  text : Text
  source : Text
  date : Option Text
  /-- the bounds of the schema -/
  sizes : (1 ≤ text.length ∧ text.length ≤ 2000) ∧ 1 ≤ source.length ∧ source.length ≤ 500
deriving DecidableEq

structure Contradiction where
  contradictionId : Text
  explanation : Text
  claims : List Claim
deriving DecidableEq

namespace Contradictions

structure LocatedContradiction where
  record : Contradiction
  start : ℕ
  stop : ℕ
  block : Text
deriving DecidableEq

/-- what `_decode` finds in the data of a block before it checks the record -/
inductive Decoded where
  | invalid
  | otherStatus
  | record (r : Contradiction)

/-- `[A-Za-z0-9_-]` -/
def isDataChar (c : Char) : Bool :=
  ('A' ≤ c && c ≤ 'Z') || ('a' ≤ c && c ≤ 'z') || ('0' ≤ c && c ≤ '9') || c == '_' || c == '-'

/-- the record as JSON in URL-safe base64 without padding, and back -/
structure Codec where
  encode : Contradiction → Text
  decode : Text → Decoded
  decode_encode : ∀ r, decode (encode r) = .record r
  encode_chars : ∀ r, encode r ≠ [] ∧ ∀ c ∈ encode r, isDataChar c = true

def START : Text := "<!-- stigmergy-contradiction-start:".toList
def DATA : Text := "<!-- stigmergy-contradiction-data:".toList
def END : Text := "<!-- stigmergy-contradiction-end:".toList
def CLOSE : Text := " -->".toList

/-! ## records -/

def isHex (c : Char) : Bool := ('0' ≤ c && c ≤ '9') || ('a' ≤ c && c ≤ 'f')

/-- one character test for each place of `_ID_RE` -/
def idShape : List (Char → Bool) :=
  "con_".toList.map (fun c d => d == c) ++ List.replicate 8 isHex ++ [(· == '-')] ++
    List.replicate 4 isHex ++ [(· == '-'), (· == '4')] ++ List.replicate 3 isHex ++
    [(· == '-'), fun c => "89ab".toList.contains c] ++ List.replicate 3 isHex ++ [(· == '-')] ++
    List.replicate 12 isHex

/-- `_ID_RE` -/
def isContradictionId (t : Text) : Bool :=
  t.length == idShape.length && (List.zipWith (fun p c => p c) idShape t).all id

/-- `_validate` -/
def validate (r : Contradiction) : Except Text Unit :=
  if !isContradictionId r.contradictionId then .error "contradiction id is invalid".toList
  else if Text.isBlank r.explanation || r.claims.length < 2 then
    .error "contradiction requires an explanation and two claims".toList
  else if r.claims.any fun claim => !Text.startsWith "sources/".toList claim.source ||
      !Text.endsWith ".md".toList claim.source then
    .error "contradiction source path is invalid".toList
  else .ok ()

/-- the lines of one claim -/
def claimLines (claim : Claim) : List Text :=
  ["> - **Claim:** ".toList ++ Text.oneLine claim.text] ++
    (match claim.date with
      | some day => if day.isEmpty then []
        else [">   **Date:** \x60".toList ++ Text.oneLine day ++ "\x60".toList]
      | none => []) ++
    [">   **Source:** \x60".toList ++ claim.source ++ "\x60".toList]

section
variable (C : Codec)

/-- the comment before the prose of a block, the prose, and the two comments after it -/
def openLine (id : Text) : Text := START ++ id ++ CLOSE

def visibleLines (r : Contradiction) : List Text :=
  ["> [!WARNING] Unresolved contradiction \x60".toList ++ r.contradictionId ++ "\x60".toList,
    "> ".toList ++ Text.oneLine r.explanation] ++ r.claims.flatMap claimLines

def dataLine (r : Contradiction) : Text := DATA ++ C.encode r ++ CLOSE

def closeLine (id : Text) : Text := END ++ id ++ CLOSE

def block (r : Contradiction) : Text :=
  Text.unlines ([openLine r.contradictionId] ++ visibleLines r ++
    [dataLine C r, closeLine r.contradictionId])

def render (r : Contradiction) : Except Text Text :=
  match validate r with
  | .error e => .error e
  | .ok () => .ok (block C r)

/-- `_decode` -/
def decode (data : Text) : Except Text Contradiction :=
  match C.decode data with
  | .invalid => .error "contradiction data is invalid".toList
  | .otherStatus => .error "contradiction status is invalid".toList
  | .record r =>
    match validate r with
    | .error e => .error e
    | .ok () => .ok r

/-! ## blocks in a text -/

def isIdChar (c : Char) : Bool := ('a' ≤ c && c ≤ 'f') || ('0' ≤ c && c ≤ '9') || c == '-'

/-- the comment that opens a block and the line end after it: their length and the id -/
def opensBlock (t : Text) : Option (ℕ × Text) :=
  if Text.startsWith (START ++ "con_".toList) t then
    let hexes := (t.drop (START.length + 4)).takeWhile isIdChar
    let id := "con_".toList ++ hexes
    if !hexes.isEmpty && Text.startsWith (CLOSE ++ ['\n']) (t.drop (START.length + id.length)) then
      some (START.length + id.length + 5, id)
    else none
  else none

/-- the two comments that close a block: their length and the data -/
def closesBlock (id t : Text) : Option (ℕ × Text) :=
  if Text.startsWith DATA t then
    let data := (t.drop DATA.length).takeWhile isDataChar
    let rest := CLOSE ++ '\n' :: closeLine id
    if !data.isEmpty && Text.startsWith rest (t.drop (DATA.length + data.length)) then
      some (DATA.length + data.length + rest.length, data)
    else none
  else none

/-- the length up to the end of the first close, and its data -/
def upToClose (id : Text) : Text → Option (ℕ × Text)
  | [] => none
  | c :: t =>
    match closesBlock id (c :: t) with
    | some r => some r
    | none => (upToClose id t).map fun r => (r.1 + 1, r.2)

/-- `_BLOCK_RE` at the front of a text: its length, the id and the data -/
def blockAt (t : Text) : Option (ℕ × Text × Text) :=
  match opensBlock t with
  | none => none
  | some (n, id) => (upToClose id (t.drop n)).map fun r => (n + r.1, id, r.2)

/-- one match of `_BLOCK_RE` with its record -/
def locate (text : Text) (found : ℕ × ℕ × Text × Text) : Except Text LocatedContradiction :=
  match decode C found.2.2.2 with
  | .error e => .error e
  | .ok r =>
    let matched := (text.drop found.1).take (found.2.1 - found.1)
    if r.contradictionId ≠ found.2.2.1 then .error "contradiction ids do not match".toList
    else if matched ≠ block C r then .error "contradiction block is not canonical".toList
    else .ok ⟨r, found.1, found.2.1, matched⟩

/-- `parse_all` -/
def parseAll (text : Text) : Except Text (List LocatedContradiction) :=
  match (Scan.located blockAt text).mapM (locate C text) with
  | .error e => .error e
  | .ok located =>
    if Text.count START text ≠ located.length ∨ Text.count DATA text ≠ located.length ∨
        Text.count END text ≠ located.length then
      .error "contradiction marker is incomplete".toList
    else if ¬ (located.map fun item => item.record.contradictionId).Nodup then
      .error "contradiction id is duplicated in one page".toList
    else .ok located

def append (text : Text) (r : Contradiction) : Except Text Text :=
  match parseAll C text with
  | .error e => .error e
  | .ok located =>
    if located.any fun item => item.record.contradictionId == r.contradictionId then .ok text
    else
      match render C r with
      | .error e => .error e
      | .ok rendered => .ok (Text.rstrip text ++ "\n\n".toList ++ rendered ++ ['\n'])

/-- a place moved back over newlines as long as there are two before it -/
def backUp (t : Text) : ℕ → ℕ
  | k + 2 => if t[k + 1]? = some '\n' ∧ t[k]? = some '\n' then backUp t (k + 1) else k + 2
  | k => k

/-- one block cut out -/
def cut (t : Text) (item : LocatedContradiction) : Text :=
  t.take (backUp t item.start) ++ t.drop item.stop

def remove (text : Text) (id : Text) : Except Text (Text × Bool) :=
  match parseAll C text with
  | .error e => .error e
  | .ok located =>
    let found := located.filter fun item => item.record.contradictionId == id
    if found.isEmpty then .ok (text, false)
    else .ok (Text.rstrip (found.reverse.foldl cut text) ++ ['\n'], true)

end

end Contradictions
