import Stigmergy.Lib.Base64
import Stigmergy.Lib.Json

/-!
# Listing cursors

`_encode_cursor` and `_decode_cursor` of `server/service.py`: the sort key and the virtual path of the
last page shown, bound to the listing, as JSON in URL-safe base64.

* `decodeCursor_encodeCursor`   a cursor of the same listing is read back, if it is not too long;
* `encodeCursor_fits`           and when it is, by the lengths of the key and the path as JSON.
-/

set_option linter.unusedSectionVars false

namespace Cursor

def CURSOR_VERSION : ℕ := 1
def MAX_CURSOR_CHARS : ℕ := 2048

/-- `json.dumps` of the cursor's mapping, without blanks -/
def cursorJson (listing key path : Text) : Text :=
  '{' :: (Json.member "v".toList ['1'] ++ ',' :: (Json.member "l".toList (Json.quoted listing) ++
    ',' :: (Json.member "k".toList (Json.quoted key) ++
      ',' :: (Json.member "p".toList (Json.quoted path) ++ ['}']))))

def encodeCursor (listing key path : Text) : Text :=
  Base64.encode ((cursorJson listing key path).map Char.toNat)

def invalidCursor : Text := "cursor is not valid for this listing; start again without one".toList

/-- `data.get("v") == 1` -/
def isVersion : Option Json → Bool
  | some (.num negative digits exponent) => !negative && digits != 0 &&
      digits * 10 ^ exponent.toNat == 10 ^ (-exponent).toNat * CURSOR_VERSION
  | some (.bool b) => b
  | _ => false

def asStr : Option Json → Option Text
  | some (.str t) => some t
  | _ => none

section
variable (decodeText : List ℕ → Option Text)

/-- the text of JSON bytes; `decodeText` is for bytes that are not ASCII -/
def textOf (bytes : List ℕ) : Option Text :=
  if bytes.all (· < 128) then some (bytes.map Char.ofNat) else decodeText bytes

/-- `(sort key, virtual path)` from a cursor of the same listing -/
def decodeCursor (cursor listing : Text) : Except Text (Text × Text) :=
  if MAX_CURSOR_CHARS < cursor.length then .error invalidCursor
  else match ((Base64.decode (Base64.pad cursor)).bind (textOf decodeText)).bind Json.loads with
    | none => .error invalidCursor
    | some data =>
      if !isVersion (data.get "v") || asStr (data.get "l") != some listing then .error invalidCursor
      else match asStr (data.get "k"), asStr (data.get "p") with
        | some key, some path => .ok (key, path)
        | _, _ => .error invalidCursor

end

theorem length_cursorJson (listing key path : Text) : (cursorJson listing key path).length =
    28 + (Json.escaped listing).length + (Json.escaped key).length + (Json.escaped path).length := by
  have hkey : ∀ c : Char, Json.escape c = [c] → ∀ text : Text,
      (Json.member [c] text).length = text.length + 4 := by
    intro c hc text
    unfold Json.member Json.quoted Json.escaped
    rw [List.flatMap_cons, hc]
    simp only [List.flatMap_nil, List.append_nil, List.length_append, List.length_cons,
      List.length_nil]
    omega
  have hquoted : ∀ t : Text, (Json.quoted t).length = (Json.escaped t).length + 2 := by
    intro t
    unfold Json.quoted
    simp only [List.length_append, List.length_cons, List.length_nil]
  unfold cursorJson
  rw [show "v".toList = ['v'] from rfl, show "l".toList = ['l'] from rfl,
    show "k".toList = ['k'] from rfl, show "p".toList = ['p'] from rfl]
  simp only [List.length_cons, List.length_append, List.length_nil, hkey 'v' rfl, hkey 'l' rfl,
    hkey 'k' rfl, hkey 'p' rfl, hquoted]
  omega

theorem loads_cursorJson (listing key path : Text) : Json.loads (cursorJson listing key path) =
    some (.obj [("v".toList, .num false 1 0), ("l".toList, .str listing), ("k".toList, .str key),
      ("p".toList, .str path)]) := by
  have hlen := length_cursorJson listing key path
  have hlisting := Json.length_le_escaped listing
  have hkey := Json.length_le_escaped key
  have hpath := Json.length_le_escaped path
  obtain ⟨n, hn⟩ : ∃ n, (cursorJson listing key path).length = n + 6 :=
    ⟨(cursorJson listing key path).length - 6, by omega⟩
  have hmembers : Json.members (n + 6) ((cursorJson listing key path).drop 1) =
      some ([("v".toList, .num false 1 0), ("l".toList, .str listing), ("k".toList, .str key),
        ("p".toList, .str path)], []) := by
    show Json.members (n + 6) (Json.member "v".toList ['1'] ++ ',' :: (Json.member "l".toList
      (Json.quoted listing) ++ ',' :: (Json.member "k".toList (Json.quoted key) ++
        ',' :: (Json.member "p".toList (Json.quoted path) ++ ['}'])))) = _
    have hone : ∀ name : Text, name.length = 1 → ∀ m : ℕ, name.length < m + 2 := by
      intro name hname m
      omega
    rw [Json.members_cons (n := n + 5) (hone "v".toList rfl _) (Json.reads_one (n + 4)),
      Json.members_cons (n := n + 4) (hone "l".toList rfl _) (Json.reads_str (by omega)),
      Json.members_cons (n := n + 3) (hone "k".toList rfl _) (Json.reads_str (by omega)),
      Json.members_last (n := n + 2) (hone "p".toList rfl _) (Json.reads_str (by omega))]
    rfl
  unfold Json.loads
  have hskip : Json.skip (cursorJson listing key path) = cursorJson listing key path :=
    Json.skip_cons rfl _
  have hvalue : Json.value (n + 6 + 1) (cursorJson listing key path) =
      some (.obj [("v".toList, .num false 1 0), ("l".toList, .str listing), ("k".toList, .str key),
        ("p".toList, .str path)], []) := by
    show ((Json.members (n + 6) ((cursorJson listing key path).drop 1)).map fun r => (Json.obj r.1, r.2))
      = _
    rw [hmembers]
    rfl
  rw [hskip, hn, hvalue]
  rfl

theorem cursorJson_ascii (listing key path : Text) :
    ∀ c ∈ cursorJson listing key path, 32 ≤ c.toNat ∧ c.toNat ≤ 126 := by
  have hmember : ∀ k t : Text, (∀ c ∈ t, 32 ≤ c.toNat ∧ c.toNat ≤ 126) →
      ∀ c ∈ Json.member k t, 32 ≤ c.toNat ∧ c.toNat ≤ 126 := by
    intro k t ht c hc
    unfold Json.member at hc
    rcases List.mem_append.mp hc with hc | hc
    · exact Json.quoted_ascii k c hc
    · rcases List.mem_cons.mp hc with rfl | hc
      · decide
      · exact ht c hc
  have hone : ∀ c ∈ ['1'], 32 ≤ c.toNat ∧ c.toNat ≤ 126 := by decide
  intro c hc
  unfold cursorJson at hc
  simp only [List.mem_cons, List.mem_append, List.not_mem_nil, or_false] at hc
  rcases hc with rfl | hc | rfl | hc | rfl | hc | rfl | hc | rfl
  · decide
  · exact hmember _ _ hone c hc
  · decide
  · exact hmember _ _ (Json.quoted_ascii listing) c hc
  · decide
  · exact hmember _ _ (Json.quoted_ascii key) c hc
  · decide
  · exact hmember _ _ (Json.quoted_ascii path) c hc
  · decide

/-- the cursor is within its bound -/
theorem encodeCursor_fits (listing key path : Text) :
    (encodeCursor listing key path).length ≤ MAX_CURSOR_CHARS ↔
      (Json.escaped listing).length + (Json.escaped key).length + (Json.escaped path).length ≤ 1508 := by
  unfold encodeCursor MAX_CURSOR_CHARS
  rw [Base64.length_encode, List.length_map, length_cursorJson]
  omega

theorem decodeCursor_encodeCursor (decodeText : List ℕ → Option Text) (listing key path : Text) :
    decodeCursor decodeText (encodeCursor listing key path) listing =
      if (encodeCursor listing key path).length ≤ MAX_CURSOR_CHARS then .ok (key, path)
      else .error invalidCursor := by
  have hascii := cursorJson_ascii listing key path
  have hbytes : ∀ b ∈ (cursorJson listing key path).map Char.toNat, b < 128 := by
    intro b hb
    obtain ⟨c, hc, rfl⟩ := List.mem_map.mp hb
    have := hascii c hc
    omega
  have htext : textOf decodeText ((cursorJson listing key path).map Char.toNat) =
      some (cursorJson listing key path) := by
    unfold textOf
    rw [if_pos (List.all_eq_true.mpr fun b hb => decide_eq_true (hbytes b hb)), List.map_map]
    congr 1
    exact (List.map_congr_left fun c _ => Char.ofNat_toNat c).trans (List.map_id _)
  unfold decodeCursor
  by_cases hfits : (encodeCursor listing key path).length ≤ MAX_CURSOR_CHARS
  · rw [if_neg (Nat.not_lt.mpr hfits), if_pos hfits]
    unfold encodeCursor
    rw [Base64.decode_pad_encode _ fun b hb => Nat.lt_trans (hbytes b hb) (by decide),
      Option.bind_some, htext, Option.bind_some, loads_cursorJson]
    show (if (!isVersion (some (.num false 1 0)) || some listing != some listing) = true then
      Except.error invalidCursor else .ok (key, path)) = _
    rw [show isVersion (some (.num false 1 0)) = true from rfl, bne_self_eq_false]
    rfl
  · rw [if_pos (Nat.lt_of_not_le hfits), if_neg hfits]

end Cursor
