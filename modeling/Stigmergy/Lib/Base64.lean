import Stigmergy.Lib.Text

/-!
# Base64

The URL-safe alphabet, `base64.urlsafe_b64encode` with its padding taken off and
`base64.urlsafe_b64decode`, which skips characters outside the alphabet.

* `decode_pad_encode`   what was encoded, padded again, is decoded as it was;
* `length_encode`       four characters for three bytes, rounded up.
-/

set_option linter.unusedSectionVars false

namespace Base64

/-- the character of a sextet -/
def digit (n : ℕ) : Char :=
  if n < 26 then Char.ofNat (65 + n)
  else if n < 52 then Char.ofNat (71 + n)
  else if n < 62 then Char.ofNat (n - 4)
  else if n = 62 then '-' else '_'

/-- the sextet of a character of either alphabet -/
def value (c : Char) : Option ℕ :=
  if 'A' ≤ c ∧ c ≤ 'Z' then some (c.toNat - 65)
  else if 'a' ≤ c ∧ c ≤ 'z' then some (c.toNat - 71)
  else if '0' ≤ c ∧ c ≤ '9' then some (c.toNat + 4)
  else if c = '-' ∨ c = '+' then some 62
  else if c = '_' ∨ c = '/' then some 63
  else none

/-- `urlsafe_b64encode(…).rstrip("=")` -/
def encode : List ℕ → Text
  | [] => []
  | [a] => [digit (a / 4), digit (a % 4 * 16)]
  | [a, b] => [digit (a / 4), digit (a % 4 * 16 + b / 16), digit (b % 16 * 4)]
  | a :: b :: c :: bytes => digit (a / 4) :: digit (a % 4 * 16 + b / 16) ::
      digit (b % 16 * 4 + c / 64) :: digit (c % 64) :: encode bytes

/-- `cursor + "=" * (-len(cursor) % 4)` -/
def pad (t : Text) : Text := t ++ List.replicate ((4 - t.length % 4) % 4) '='

/-- `a2b_base64` from the place in a group of four, the bits left of the last character and the padding
met since; nothing for a `binascii.Error` -/
def decodeFrom : ℕ → ℕ → ℕ → Text → Option (List ℕ)
  | place, _, _, [] => if place = 0 then some [] else none
  | place, left, pads, c :: t =>
    if c = '=' then
      if 2 ≤ place then
        if 4 ≤ place + (pads + 1) then some [] else decodeFrom place left (pads + 1) t
      else decodeFrom place left pads t
    else match value c with
      | none => decodeFrom place left pads t
      | some v =>
        if place = 0 then decodeFrom 1 v 0 t
        else if place = 1 then (decodeFrom 2 (v % 16) 0 t).map fun bytes => (left * 4 + v / 16) :: bytes
        else if place = 2 then (decodeFrom 3 (v % 4) 0 t).map fun bytes => (left * 16 + v / 4) :: bytes
        else (decodeFrom 0 0 0 t).map fun bytes => (left * 64 + v) :: bytes

/-- `urlsafe_b64decode`; nothing for a `ValueError` -/
def decode (t : Text) : Option (List ℕ) :=
  if t.any fun c => 128 ≤ c.toNat then none else decodeFrom 0 0 0 t

theorem value_digit {n : ℕ} (h : n < 64) :
    value (digit n) = some n ∧ digit n ≠ '=' ∧ (digit n).toNat < 128 := by
  have hall : ∀ m < 64, value (digit m) = some m ∧ digit m ≠ '=' ∧ (digit m).toNat < 128 := by decide
  exact hall n h

section
variable {n : ℕ} (h : n < 64) (left pads : ℕ) (t : Text)
include h

theorem decodeFrom_zero : decodeFrom 0 left pads (digit n :: t) = decodeFrom 1 n 0 t := by
  rw [decodeFrom, if_neg (value_digit h).2.1, (value_digit h).1]
  rfl

theorem decodeFrom_one : decodeFrom 1 left pads (digit n :: t) =
    (decodeFrom 2 (n % 16) 0 t).map fun bytes => (left * 4 + n / 16) :: bytes := by
  rw [decodeFrom, if_neg (value_digit h).2.1, (value_digit h).1]
  rfl

theorem decodeFrom_two : decodeFrom 2 left pads (digit n :: t) =
    (decodeFrom 3 (n % 4) 0 t).map fun bytes => (left * 16 + n / 4) :: bytes := by
  rw [decodeFrom, if_neg (value_digit h).2.1, (value_digit h).1]
  rfl

theorem decodeFrom_three : decodeFrom 3 left pads (digit n :: t) =
    (decodeFrom 0 0 0 t).map fun bytes => (left * 64 + n) :: bytes := by
  rw [decodeFrom, if_neg (value_digit h).2.1, (value_digit h).1]
  rfl

end

theorem length_encode (bytes : List ℕ) : (encode bytes).length = (bytes.length * 4 + 2) / 3 := by
  induction bytes using encode.induct with
  | case1 => rfl
  | case2 a => simp [encode]
  | case3 a b => simp [encode]
  | case4 a b c bytes ih =>
    rw [encode]
    simp only [List.length_cons, ih]
    omega

theorem mem_encode (bytes : List ℕ) (h : ∀ b ∈ bytes, b < 256) : ∀ c ∈ encode bytes, ∃ n < 64, c = digit n := by
  induction bytes using encode.induct with
  | case1 => exact fun c hc => absurd hc List.not_mem_nil
  | case2 a =>
    have ha := h a List.mem_cons_self
    intro c hc
    rw [encode] at hc
    simp only [List.mem_cons, List.not_mem_nil, or_false] at hc
    rcases hc with rfl | rfl
    · exact ⟨_, by omega, rfl⟩
    · exact ⟨_, by omega, rfl⟩
  | case3 a b =>
    have ha := h a List.mem_cons_self
    have hb := h b (List.mem_cons_of_mem _ List.mem_cons_self)
    intro c hc
    rw [encode] at hc
    simp only [List.mem_cons, List.not_mem_nil, or_false] at hc
    rcases hc with rfl | rfl | rfl
    · exact ⟨_, by omega, rfl⟩
    · exact ⟨_, by omega, rfl⟩
    · exact ⟨_, by omega, rfl⟩
  | case4 a b d bytes ih =>
    have ha := h a List.mem_cons_self
    have hb := h b (List.mem_cons_of_mem _ List.mem_cons_self)
    have hd := h d (List.mem_cons_of_mem _ (List.mem_cons_of_mem _ List.mem_cons_self))
    have hrest := ih fun x hx =>
      h x (List.mem_cons_of_mem _ (List.mem_cons_of_mem _ (List.mem_cons_of_mem _ hx)))
    intro c hc
    rw [encode] at hc
    simp only [List.mem_cons] at hc
    rcases hc with rfl | rfl | rfl | rfl | hc
    · exact ⟨_, by omega, rfl⟩
    · exact ⟨_, by omega, rfl⟩
    · exact ⟨_, by omega, rfl⟩
    · exact ⟨_, by omega, rfl⟩
    · exact hrest c hc

theorem encode_lt (bytes : List ℕ) (h : ∀ b ∈ bytes, b < 256) : ∀ c ∈ encode bytes, c.toNat < 128 := by
  intro c hc
  obtain ⟨n, hn, rfl⟩ := mem_encode bytes h c hc
  exact (value_digit hn).2.2

theorem pad_cons_four (a b c d : Char) (t : Text) : pad (a :: b :: c :: d :: t) =
    a :: b :: c :: d :: pad t := by
  unfold pad
  have hlen : (4 - (a :: b :: c :: d :: t).length % 4) % 4 = (4 - t.length % 4) % 4 := by
    simp only [List.length_cons]
    omega
  rw [hlen]
  rfl

theorem decodeFrom_pad_encode (bytes : List ℕ) (h : ∀ b ∈ bytes, b < 256) :
    decodeFrom 0 0 0 (pad (encode bytes)) = some bytes := by
  induction bytes using encode.induct with
  | case1 => rfl
  | case2 a =>
    have ha := h a List.mem_cons_self
    show decodeFrom 0 0 0 [digit (a / 4), digit (a % 4 * 16), '=', '='] = _
    rw [decodeFrom_zero (by omega), decodeFrom_one (by omega)]
    show some [a / 4 * 4 + a % 4 * 16 / 16] = some [a]
    congr 2
    omega
  | case3 a b =>
    have ha := h a List.mem_cons_self
    have hb := h b (List.mem_cons_of_mem _ List.mem_cons_self)
    show decodeFrom 0 0 0
      [digit (a / 4), digit (a % 4 * 16 + b / 16), digit (b % 16 * 4), '='] = _
    rw [decodeFrom_zero (by omega), decodeFrom_one (by omega), decodeFrom_two (by omega)]
    show some [a / 4 * 4 + (a % 4 * 16 + b / 16) / 16,
      (a % 4 * 16 + b / 16) % 16 * 16 + b % 16 * 4 / 4] = some [a, b]
    congr 2
    · omega
    · congr 1
      omega
  | case4 a b c bytes ih =>
    have ha := h a List.mem_cons_self
    have hb := h b (List.mem_cons_of_mem _ List.mem_cons_self)
    have hc := h c (List.mem_cons_of_mem _ (List.mem_cons_of_mem _ List.mem_cons_self))
    have hrest := ih fun x hx =>
      h x (List.mem_cons_of_mem _ (List.mem_cons_of_mem _ (List.mem_cons_of_mem _ hx)))
    rw [encode, pad_cons_four, decodeFrom_zero (by omega), decodeFrom_one (by omega),
      decodeFrom_two (by omega), decodeFrom_three (by omega), hrest]
    show some (_ :: _ :: _ :: bytes) = some (a :: b :: c :: bytes)
    congr 2
    · omega
    · congr 1
      · omega
      · congr 1
        omega

theorem decode_pad_encode (bytes : List ℕ) (h : ∀ b ∈ bytes, b < 256) :
    decode (pad (encode bytes)) = some bytes := by
  unfold decode
  have hascii : ((pad (encode bytes)).any fun c => decide (128 ≤ c.toNat)) = false := by
    refine List.any_eq_false.mpr fun c hc hbig => ?_
    have hbig := decide_eq_true_iff.mp hbig
    rcases List.mem_append.mp hc with hc | hc
    · exact absurd (encode_lt bytes h c hc) (by omega)
    · rw [List.eq_of_mem_replicate hc] at hbig
      exact absurd hbig (by decide)
  rw [hascii, if_neg Bool.false_ne_true, decodeFrom_pad_encode bytes h]

end Base64
