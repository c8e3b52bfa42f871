import Stigmergy.Lib.Base64
import Stigmergy.Lib.Dumps
import Stigmergy.Knowledge.Contradictions

/-!
# The data of contradiction blocks

The record of a block as `render` encodes it and `_decode` reads it: JSON with its keys in order, as
UTF-8 in URL-safe base64 without padding.

* `jsonCodec`   the encoding, with the law that a record is decoded as it was encoded.
-/

set_option linter.unusedSectionVars false

namespace Contradictions

/-- `claim.model_dump(mode="json")` -/
def claimDoc (claim : Claim) : Doc :=
  .obj [("date".toList, match claim.date with
      | some day => .str day
      | none => .null),
    ("source".toList, .str claim.source), ("text".toList, .str claim.text)]

/-- the payload of `render` -/
def payload (r : Contradiction) : Doc :=
  .obj [("claims".toList, .arr (r.claims.map claimDoc)), ("explanation".toList, .str r.explanation),
    ("id".toList, .str r.contradictionId), ("status".toList, .str "unresolved".toList)]

/-- `str.encode` -/
def utf8Bytes (t : Text) : List ℕ := (t.flatMap String.utf8EncodeChar).map UInt8.toNat

/-- `bytes.decode`; nothing for a `UnicodeDecodeError` -/
def ofUtf8 (bytes : List ℕ) : Option Text :=
  (bytes.map UInt8.ofNat).toByteArray.utf8Decode?.map Array.toList

def encodeRecord (r : Contradiction) : Text := Base64.encode (utf8Bytes (Doc.text Doc.tight 0 (payload r)))

/-- `ContradictionClaim.model_validate` -/
def claimOf : Json → Option Claim
  | .obj entries =>
    if entries.any fun e => ["text".toList, "source".toList, "date".toList].all (e.1 != ·) then none
    else
      match (Json.obj entries).get "text", (Json.obj entries).get "source", (Json.obj entries).get "date" with
      | some (.str text), some (.str source), day =>
        if sizes : (1 ≤ text.length ∧ text.length ≤ 2000) ∧ 1 ≤ source.length ∧ source.length ≤ 500 then
          match day with
          | none | some .null => some ⟨text, source, none, sizes⟩
          | some (.str day) => some ⟨text, source, some day, sizes⟩
          | _ => none
        else none
      | _, _, _ => none
  | _ => none

/-- what iterating over a value gives -/
def itemsOf : Json → Option (List Json)
  | .arr items => some items
  | .str t => some (t.map fun c => .str [c])
  | .obj entries => some (entries.map fun e => .str e.1)
  | _ => none

section
variable (shown : Json → Text)

/-- `str(value)`, which `shown` gives for a value that is no string -/
def strOf : Json → Text
  | .str t => t
  | v => shown v

def decodePayload : Json → Decoded
  | .obj entries =>
    match (Json.obj entries).get "status" with
    | some (.str status) =>
      if status ≠ "unresolved".toList then .otherStatus
      else
        match (Json.obj entries).get "id", (Json.obj entries).get "explanation",
          ((Json.obj entries).get "claims").bind fun v => (itemsOf v).bind fun items => items.mapM claimOf with
        | some id, some explanation, some claims => .record ⟨strOf shown id, strOf shown explanation, claims⟩
        | _, _, _ => .invalid
    | _ => .otherStatus
  | _ => .invalid

def decodeData (data : Text) : Decoded :=
  match ((Base64.decode (Base64.pad data)).bind ofUtf8).bind Json.loads with
  | some v => decodePayload shown v
  | none => .invalid

/-! ## reading back -/

theorem claimOf_toJson (claim : Claim) : claimOf (claimDoc claim).toJson = some claim := by
  obtain ⟨text, source, day, sizes⟩ := claim
  cases day with
  | none =>
    show (if sizes : _ then some (⟨text, source, none, sizes⟩ : Claim) else none) = _
    rw [dif_pos sizes]
  | some day =>
    show (if sizes : _ then some (⟨text, source, some day, sizes⟩ : Claim) else none) = _
    rw [dif_pos sizes]

theorem mapM_claimOf (claims : List Claim) :
    (Doc.toJsons (claims.map claimDoc)).mapM claimOf = some claims := by
  induction claims with
  | nil => rfl
  | cons claim claims ih =>
    rw [List.map_cons, Doc.toJsons, List.mapM_cons, claimOf_toJson, ih]
    rfl

theorem decodePayload_payload (r : Contradiction) : decodePayload shown (payload r).toJson = .record r := by
  show (match some (Json.str r.contradictionId), some (Json.str r.explanation),
      (Doc.toJsons (r.claims.map claimDoc)).mapM claimOf with
    | some id, some explanation, some claims => Decoded.record ⟨strOf shown id, strOf shown explanation, claims⟩
    | _, _, _ => Decoded.invalid) = _
  rw [mapM_claimOf]
  rfl

theorem ofUtf8_utf8Bytes (t : Text) : ofUtf8 (utf8Bytes t) = some t := by
  have hid : (utf8Bytes t).map UInt8.ofNat = t.flatMap String.utf8EncodeChar := by
    rw [utf8Bytes, List.map_map]
    exact List.map_id'' (fun b => UInt8.ofNat_toNat) _
  rw [ofUtf8, hid]
  show t.utf8Encode.utf8Decode?.map Array.toList = _
  rw [List.utf8Decode?_utf8Encode]
  rfl

theorem utf8Bytes_lt (t : Text) : ∀ b ∈ utf8Bytes t, b < 256 := by
  intro b hb
  obtain ⟨u, -, rfl⟩ := List.mem_map.mp hb
  exact u.toNat_lt

theorem decodeData_encodeRecord (r : Contradiction) : decodeData shown (encodeRecord r) = .record r := by
  rw [decodeData, encodeRecord, Base64.decode_pad_encode _ (utf8Bytes_lt _)]
  show (match (ofUtf8 _).bind Json.loads with
    | some v => decodePayload shown v
    | none => .invalid) = _
  rw [ofUtf8_utf8Bytes]
  show (match Json.loads _ with
    | some v => decodePayload shown v
    | none => .invalid) = _
  rw [Doc.loads_text]
  exact decodePayload_payload shown r

theorem encodeRecord_chars (r : Contradiction) :
    encodeRecord r ≠ [] ∧ ∀ c ∈ encodeRecord r, isDataChar c = true := by
  refine ⟨fun hnil => ?_, fun c hc => ?_⟩
  · have hlen := Base64.length_encode (utf8Bytes (Doc.text Doc.tight 0 (payload r)))
    have hpos : utf8Bytes (Doc.text Doc.tight 0 (payload r)) ≠ [] := fun h => by
      have hback := ofUtf8_utf8Bytes (Doc.text Doc.tight 0 (payload r))
      rw [h] at hback
      exact nomatch Option.some.inj hback
    have hsize := List.length_pos_iff.mpr hpos
    rw [← encodeRecord, hnil, List.length_nil] at hlen
    omega
  · have hall : ∀ n < 64, isDataChar (Base64.digit n) = true := by decide
    obtain ⟨n, hn, rfl⟩ := Base64.mem_encode _ (utf8Bytes_lt _) c hc
    exact hall n hn

/-- the encoding of records -/
def jsonCodec : Codec where
  encode := encodeRecord
  decode := decodeData shown
  decode_encode := decodeData_encodeRecord shown
  encode_chars := encodeRecord_chars

end

end Contradictions
