import Mathlib.Data.Nat.Digits.Defs
import Mathlib.Data.Rat.Cast.Order
import Mathlib.Tactic.FieldSimp
import Mathlib.Tactic.Ring

/-!
# Decimal numbers and their significant digits

A decimal is a natural number with a count of decimal places.

* `Decimal.value`   the rational number it stands for;
* `roundTo k`       a natural number with its first `k` digits kept, the last one rounded half to even;
* `Decimal.canon k` the rational number with `k` significant digits;
* `canon_congr`     it depends on the value alone;
* `canon_eq_value`  it is the value where the digits are no more than `k`.
-/

set_option linter.unusedSectionVars false

structure Decimal where
  num : ℕ
  places : ℕ
deriving DecidableEq, Repr

namespace Decimal

def value (d : Decimal) : ℚ := d.num / 10 ^ d.places

def times (d : Decimal) (n : ℕ) : Decimal := ⟨d.num * n, d.places⟩

/-- how many digits of `n` a rounding to `k` of them gives up -/
def dropped (k n : ℕ) : ℕ := (Nat.digits 10 n).length - k

/-- `n` to the nearest multiple of `p`, half to even -/
def nearest (p n : ℕ) : ℕ :=
  if 2 * (n % p) < p ∨ (2 * (n % p) = p ∧ n / p % 2 = 0) then n / p * p else (n / p + 1) * p

def roundTo (k n : ℕ) : ℕ := nearest (10 ^ dropped k n) n

/-- the value with `k` significant digits -/
def canon (k : ℕ) (d : Decimal) : ℚ := roundTo k d.num / 10 ^ d.places

section
variable {k : ℕ}

theorem nearest_one (n : ℕ) : nearest 1 n = n := by
  have hmod : 2 * (n % 1) < 1 := by
    rw [Nat.mod_one]
    exact Nat.one_pos
  rw [nearest, if_pos (Or.inl hmod), Nat.div_one, Nat.mul_one]

theorem nearest_mul_ten (p n : ℕ) : nearest (10 * p) (10 * n) = 10 * nearest p n := by
  have hdiv : 10 * n / (10 * p) = n / p := Nat.mul_div_mul_left n p (by decide)
  have hmod : 10 * n % (10 * p) = 10 * (n % p) := Nat.mul_mod_mul_left 10 n p
  have hcond : (2 * (10 * (n % p)) < 10 * p ∨ (2 * (10 * (n % p)) = 10 * p ∧ n / p % 2 = 0)) ↔
      (2 * (n % p) < p ∨ (2 * (n % p) = p ∧ n / p % 2 = 0)) := by omega
  rw [nearest, nearest, hdiv, hmod]
  by_cases h : 2 * (n % p) < p ∨ (2 * (n % p) = p ∧ n / p % 2 = 0)
  · rw [if_pos h, if_pos (hcond.mpr h)]
    ring
  · rw [if_neg h, if_neg (mt hcond.mp h)]
    ring

/-- a number of at most `k` digits is kept -/
theorem roundTo_eq_self {n : ℕ} (h : (Nat.digits 10 n).length ≤ k) : roundTo k n = n := by
  have hd : dropped k n = 0 := Nat.sub_eq_zero_of_le h
  rw [roundTo, hd, Nat.pow_zero, nearest_one]

theorem roundTo_mul_ten (n : ℕ) : roundTo k (10 * n) = 10 * roundTo k n := by
  rcases Nat.eq_zero_or_pos n with rfl | hn
  · rw [Nat.mul_zero, roundTo_eq_self (n := 0) (Nat.zero_le k)]
  · have hlen : (Nat.digits 10 (10 * n)).length = (Nat.digits 10 n).length + 1 := by
      have hcons := Nat.digits_add_two_add_one 8 (10 * n - 1)
      rw [show 10 * n - 1 + 1 = 10 * n by omega, show 8 + 2 = 10 from rfl,
        Nat.mul_div_cancel_left n (by decide : 0 < 10)] at hcons
      rw [hcons, List.length_cons]
    by_cases hk : k ≤ (Nat.digits 10 n).length
    · have hd : dropped k (10 * n) = dropped k n + 1 := by
        rw [dropped, hlen, dropped]
        omega
      rw [roundTo, roundTo, hd, Nat.pow_succ, Nat.mul_comm _ 10, nearest_mul_ten]
    · rw [roundTo_eq_self (by omega), roundTo_eq_self (by omega)]

theorem roundTo_mul_pow (n m : ℕ) : roundTo k (n * 10 ^ m) = roundTo k n * 10 ^ m := by
  induction m with
  | zero => rw [Nat.pow_zero, Nat.mul_one, Nat.mul_one]
  | succ m ih =>
    have hstep : n * 10 ^ (m + 1) = 10 * (n * 10 ^ m) := by ring
    rw [hstep, roundTo_mul_ten, ih]
    ring

theorem value_eq_iff {d e : Decimal} : d.value = e.value ↔ d.num * 10 ^ e.places = e.num * 10 ^ d.places := by
  rw [value, value, div_eq_div_iff (by positivity) (by positivity)]
  exact_mod_cast Iff.rfl

/-- numbers of one value have the same significant digits -/
theorem canon_congr {d e : Decimal} (h : d.value = e.value) : d.canon k = e.canon k := by
  have hnum := value_eq_iff.mp h
  have hround : roundTo k d.num * 10 ^ e.places = roundTo k e.num * 10 ^ d.places := by
    rw [← roundTo_mul_pow, hnum, roundTo_mul_pow]
  rw [canon, canon, div_eq_div_iff (by positivity) (by positivity)]
  exact_mod_cast hround

theorem canon_eq_value {d : Decimal} (h : (Nat.digits 10 d.num).length ≤ k) : d.canon k = d.value := by
  rw [canon, roundTo_eq_self h, value]

end

end Decimal
