import Stigmergy.Knowledge.Contradictions

/-!
# A codec for contradictions

Every character as six letters, one for each group of four bits, and `z` after each text.

* `texts_encodeTexts`   the texts are read back;
* `nibbles`             the codec.
-/

set_option linter.unusedSectionVars false

namespace Nibbles

def letter (n : ℕ) : Char := Char.ofNat (97 + n % 16)

def value (c : Char) : ℕ := c.toNat - 97

def encodeChar (c : Char) : Text :=
  [letter (c.toNat / 1048576), letter (c.toNat / 65536), letter (c.toNat / 4096),
    letter (c.toNat / 256), letter (c.toNat / 16), letter c.toNat]

def encodeTexts (ts : List Text) : Text := ts.flatMap fun t => t.flatMap encodeChar ++ ['z']

/-- the texts, after a part of the first one -/
def texts : Text → Text → List Text
  | cur, 'z' :: t => cur :: texts [] t
  | cur, a :: b :: c :: d :: e :: f :: t =>
    texts (cur ++ [Char.ofNat (1048576 * value a + 65536 * value b + 4096 * value c + 256 * value d +
      16 * value e + value f)]) t
  | _, _ => []

theorem letter_spec (n : ℕ) :
    value (letter n) = n % 16 ∧ letter n ≠ 'z' ∧ Contradictions.isDataChar (letter n) = true := by
  have hall : ∀ k < 16, value (Char.ofNat (97 + k)) = k ∧ Char.ofNat (97 + k) ≠ 'z' ∧
      Contradictions.isDataChar (Char.ofNat (97 + k)) = true := by decide
  exact hall (n % 16) (Nat.mod_lt n (by omega))

theorem texts_encodeChar (cur : Text) (c : Char) (t : Text) :
    texts cur (encodeChar c ++ t) = texts (cur ++ [c]) t := by
  have hlt : c.toNat < 1114112 := by
    have hvalid := c.valid
    unfold UInt32.isValidChar Nat.isValidChar at hvalid
    show c.val.toNat < 1114112
    omega
  have hnat : 1048576 * (c.toNat / 1048576 % 16) + 65536 * (c.toNat / 65536 % 16) +
      4096 * (c.toNat / 4096 % 16) + 256 * (c.toNat / 256 % 16) + 16 * (c.toNat / 16 % 16) +
      c.toNat % 16 = c.toNat := by omega
  unfold encodeChar
  simp only [List.cons_append, List.nil_append]
  rw [texts]
  · simp only [(letter_spec _).1]
    rw [hnat, Char.ofNat_toNat]
  · exact fun h => absurd h (letter_spec _).2.1

theorem texts_encodeTexts (ts : List Text) : texts [] (encodeTexts ts) = ts := by
  have hone : ∀ (t cur u : Text), texts cur (t.flatMap encodeChar ++ 'z' :: u) = (cur ++ t) :: texts [] u := by
    intro t
    induction t with
    | nil =>
      intro cur u
      rw [List.append_nil]
      rfl
    | cons c t ih =>
      intro cur u
      rw [List.flatMap_cons, List.append_assoc, texts_encodeChar, ih, List.append_assoc]
      rfl
  induction ts with
  | nil => rfl
  | cons t ts ih =>
    unfold encodeTexts at ih ⊢
    rw [List.flatMap_cons, List.append_assoc, List.singleton_append, hone, ih, List.nil_append]

theorem isDataChar_encodeTexts (ts : List Text) :
    ∀ c ∈ encodeTexts ts, Contradictions.isDataChar c = true := by
  intro c hc
  obtain ⟨t, -, hc⟩ := List.mem_flatMap.mp hc
  rcases List.mem_append.mp hc with hc | hc
  · obtain ⟨d, -, hc⟩ := List.mem_flatMap.mp hc
    simp only [encodeChar, List.mem_cons, List.not_mem_nil, or_false] at hc
    rcases hc with rfl | rfl | rfl | rfl | rfl | rfl <;> exact (letter_spec _).2.2
  · rw [List.mem_singleton.mp hc]
    rfl

/-! ## records -/

def claimTexts (claim : Claim) : List Text :=
  [claim.text, claim.source, match claim.date with
    | some day => 'd' :: day
    | none => []]

def dateOf : Text → Option Text
  | 'd' :: day => some day
  | _ => none

def claimsOf : List Text → Option (List Claim)
  | [] => some []
  | text :: source :: date :: ts =>
    if h : (1 ≤ text.length ∧ text.length ≤ 2000) ∧ 1 ≤ source.length ∧ source.length ≤ 500 then
      (claimsOf ts).map (⟨text, source, dateOf date, h⟩ :: ·)
    else none
  | _ => none

def recordOf : List Text → Contradictions.Decoded
  | id :: explanation :: ts =>
    match claimsOf ts with
    | some claims => .record ⟨id, explanation, claims⟩
    | none => .invalid
  | _ => .invalid

def recordTexts (r : Contradiction) : List Text :=
  [r.contradictionId, r.explanation] ++ r.claims.flatMap claimTexts

theorem claimsOf_claimTexts (claims : List Claim) : claimsOf (claims.flatMap claimTexts) = some claims := by
  induction claims with
  | nil => rfl
  | cons claim claims ih =>
    obtain ⟨text, source, date, sizes⟩ := claim
    rw [List.flatMap_cons]
    show claimsOf (text :: source :: _ :: claims.flatMap claimTexts) = _
    rw [claimsOf, dif_pos sizes, ih]
    cases date with
    | none => rfl
    | some day => rfl

end Nibbles

def nibbles : Contradictions.Codec where
  encode := fun r => Nibbles.encodeTexts (Nibbles.recordTexts r)
  decode := fun t => Nibbles.recordOf (Nibbles.texts [] t)
  decode_encode := fun r => by
    rw [Nibbles.texts_encodeTexts]
    show Nibbles.recordOf (r.contradictionId :: r.explanation ::
      r.claims.flatMap Nibbles.claimTexts) = _
    rw [Nibbles.recordOf, Nibbles.claimsOf_claimTexts]
  encode_chars := fun r => by
    refine ⟨fun h => ?_, Nibbles.isDataChar_encodeTexts _⟩
    unfold Nibbles.encodeTexts Nibbles.recordTexts at h
    simp at h
