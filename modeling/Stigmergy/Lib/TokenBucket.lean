import Mathlib.Algebra.Order.Field.Basic
import Mathlib.Tactic.Linarith
import Mathlib.Tactic.Ring

/-!
# Token buckets

A bucket starts full, refills at a constant rate up to its capacity, and is refilled only when somebody looks.

* `level`          what the bucket holds at a time;
* `level_refill`   looking changes nothing later;
* `level_le_add`   nothing refills faster than the rate;
* `level_spend`    what is left of a token that was taken.
-/

set_option linter.unusedSectionVars false

/-- capacity and rate are given from outside -/
structure TokenBucket (K : Type*) where
  tokens : K
  last : K

namespace TokenBucket

section
variable {K : Type*} [Field K] [LinearOrder K] [IsStrictOrderedRing K] (c r : K)

def full (now : K) : TokenBucket K := ⟨c, now⟩

/-- the tokens at a time, refilled since the last look -/
def level (b : TokenBucket K) (t : K) : K := min c (b.tokens + max 0 (t - b.last) * r)

def refill (b : TokenBucket K) (now : K) : TokenBucket K := ⟨b.level c r now, now⟩

def spend (b : TokenBucket K) : TokenBucket K := ⟨b.tokens - 1, b.last⟩

theorem level_le (b : TokenBucket K) (t : K) : b.level c r t ≤ c := min_le_left _ _

theorem level_of_le {b : TokenBucket K} {t : K} (h : b.last ≤ t) :
    b.level c r t = min c (b.tokens + (t - b.last) * r) := by
  unfold level
  rw [max_eq_right (sub_nonneg.mpr h)]

variable {c r}

theorem level_full {t now : K} (hr : 0 ≤ r) (h : now ≤ t) : (full c now).level c r t = c := by
  rw [level_of_le c r h]
  refine min_eq_left ?_
  show c ≤ c + (t - now) * r
  have hgain : 0 ≤ (t - now) * r := mul_nonneg (sub_nonneg.mpr h) hr
  linarith

theorem level_nonneg {b : TokenBucket K} (hc : 0 ≤ c) (hr : 0 ≤ r) (hb : 0 ≤ b.tokens) (t : K) :
    0 ≤ b.level c r t := by
  refine le_min hc ?_
  have hgain : 0 ≤ max 0 (t - b.last) * r := mul_nonneg (le_max_left _ _) hr
  linarith

/-- a look in between changes nothing -/
theorem level_refill {b : TokenBucket K} {now t : K} (hr : 0 ≤ r) (hb : b.last ≤ now) (h : now ≤ t) :
    (b.refill c r now).level c r t = b.level c r t := by
  have hgain : 0 ≤ (t - now) * r := mul_nonneg (sub_nonneg.mpr h) hr
  have hsplit : b.tokens + (t - b.last) * r = b.tokens + (now - b.last) * r + (t - now) * r := by ring
  rw [level_of_le c r (hb.trans h), level_of_le c r (show (b.refill c r now).last ≤ t from h), hsplit]
  show min c (b.level c r now + (t - now) * r) = _
  rw [level_of_le c r hb]
  set m := b.tokens + (now - b.last) * r
  rcases le_total c m with hm | hm
  · rw [min_eq_left hm, min_eq_left (le_add_of_nonneg_right hgain), min_eq_left (le_add_of_le_of_nonneg hm hgain)]
  · rw [min_eq_right hm]

/-- no more than the rate comes in -/
theorem level_le_add {b : TokenBucket K} {t u : K} (hr : 0 ≤ r) (h : t ≤ u) :
    b.level c r u ≤ b.level c r t + (u - t) * r := by
  have hgain : 0 ≤ (u - t) * r := mul_nonneg (sub_nonneg.mpr h) hr
  have hmax : max 0 (u - b.last) ≤ max 0 (t - b.last) + (u - t) := by
    refine max_le ?_ ?_
    · have hm : (0 : K) ≤ max 0 (t - b.last) := le_max_left _ _
      linarith
    · have hm : t - b.last ≤ max 0 (t - b.last) := le_max_right _ _
      linarith
  have hmul := mul_le_mul_of_nonneg_right hmax hr
  unfold level
  rcases le_total c (b.tokens + max 0 (t - b.last) * r) with hm | hm
  · rw [min_eq_left hm]
    exact (min_le_left _ _).trans (le_add_of_nonneg_right hgain)
  · rw [min_eq_right hm]
    refine (min_le_right _ _).trans ?_
    rw [add_mul] at hmul
    linarith

/-- a token that is taken is gone at once, and later levels depend on the level then only -/
theorem level_spend {b : TokenBucket K} {now t : K} (h : now ≤ t) :
    (b.refill c r now).spend.level c r t = min c (b.level c r now - 1 + (t - now) * r) :=
  level_of_le c r (show (b.refill c r now).spend.last ≤ t from h)

end

end TokenBucket
