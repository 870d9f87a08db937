import Mathlib

/-!
# Signed Montgomery and Barrett reduction over the integers

Both reductions are stated on mathematical integers, for any modulus; a fixed-width circuit or
program instantiates them once it is known that none of its signals wraps.

* `red R q qinv c`: with `q * qinv = 1 (mod R)`, subtracting the balanced digit
  `u = c * qinv mod± R` times `q` makes `c` divisible by `R`; the quotient stands for `c / R`.
* `barrett v s q x`: `x` minus `q` times the quotient guess `⌊v * x / 2^s⌋`, where `v` is
  `2^s / q` rounded up. The guess is the floor quotient except at negative multiples of `q`,
  where it is one too small.
-/

namespace Montgomery

/-- The digit that cancels the low part of `c`: the residue of `c * qinv` nearest to zero. -/
def digit (R : ℕ) (qinv c : ℤ) : ℤ := (c * qinv).bmod R

def red (R : ℕ) (q qinv c : ℤ) : ℤ := (c - digit R qinv c * q) / R

variable {R : ℕ} {q qinv c : ℤ}

theorem digit_bounds (hR : 0 < R) (hev : 2 ∣ R) (qinv c : ℤ) :
    -(R : ℤ) ≤ 2 * digit R qinv c ∧ 2 * digit R qinv c < R := by
  have h1 := Int.le_bmod (x := c * qinv) hR
  have h2 := Int.bmod_lt (x := c * qinv) hR
  unfold digit
  omega

/-- The subtraction clears every digit below the radix. -/
theorem dvd_sub_digit (hq : (R : ℤ) ∣ q * qinv - 1) (c : ℤ) :
    (R : ℤ) ∣ c - digit R qinv c * q := by
  have h1 : (R : ℤ) ∣ c * qinv - digit R qinv c :=
    Int.ModEq.dvd (Int.bmod_emod (x := c * qinv) (m := R))
  have h2 : c - digit R qinv c * q = (c * qinv - digit R qinv c) * q - c * (q * qinv - 1) := by
    ring
  rw [h2]
  exact dvd_sub (h1.mul_right q) (hq.mul_left c)

theorem mul_red (hq : (R : ℤ) ∣ q * qinv - 1) (c : ℤ) :
    (R : ℤ) * red R q qinv c = c - digit R qinv c * q :=
  Int.mul_ediv_cancel' (dvd_sub_digit hq c)

/-- `red` divides by the radix, modulo `q`. -/
theorem mul_red_modEq (hq : (R : ℤ) ∣ q * qinv - 1) (c : ℤ) :
    (R : ℤ) * red R q qinv c ≡ c [ZMOD q] := by
  rw [mul_red hq c]
  exact (Int.modEq_iff_dvd.2 ⟨digit R qinv c, by ring⟩)

theorem red_bounds (hR : 0 < R) (hev : 2 ∣ R) (hq0 : 0 < q) (hq : (R : ℤ) ∣ q * qinv - 1) (c : ℤ) :
    2 * c - R * q < 2 * R * red R q qinv c ∧ 2 * R * red R q qinv c ≤ 2 * c + R * q := by
  obtain ⟨h1, h2⟩ := digit_bounds hR hev qinv c
  have h := mul_red hq c
  have e : 2 * R * red R q qinv c = 2 * c - 2 * digit R qinv c * q := by
    rw [mul_assoc, h]; ring
  rw [e]
  constructor <;> nlinarith

/-- Below half the radix times `q`, the result is strictly below `q`. -/
theorem red_lt (hR : 0 < R) (hev : 2 ∣ R) (hq0 : 0 < q) (hq : (R : ℤ) ∣ q * qinv - 1)
    (h1 : -(R * q) < 2 * c) (h2 : 2 * c < R * q) :
    -q < red R q qinv c ∧ red R q qinv c < q := by
  obtain ⟨b1, b2⟩ := red_bounds hR hev hq0 hq c
  have hR' : (0 : ℤ) < 2 * R := by omega
  constructor
  · refine lt_of_mul_lt_mul_left (a := 2 * (R : ℤ)) ?_ hR'.le
    linarith
  · refine lt_of_mul_lt_mul_left (a := 2 * (R : ℤ)) ?_ hR'.le
    linarith

end Montgomery

namespace Barrett

/-- The quotient guess `⌊v * x / 2^s⌋`. -/
def quot (v : ℤ) (s : ℕ) (x : ℤ) : ℤ := v * x / 2 ^ s

def red (v : ℤ) (s : ℕ) (q x : ℤ) : ℤ := x - quot v s x * q

variable {v q e K : ℤ} {s : ℕ}

/-- With `v * q = 2^s + e` the guess is the floor quotient `k` unless `x = k * q` and `k < 0`. -/
theorem quot_eq (hq : 0 < q) (he : 0 < e) (hv : v * q = 2 ^ s + e) (hK : (K + 1) * e < v)
    {x : ℤ} (h1 : -K ≤ x / q) (h2 : x / q ≤ K) :
    quot v s x = if x < 0 ∧ q ∣ x then x / q - 1 else x / q := by
  have hx : x = q * (x / q) + x % q := (Int.mul_ediv_add_emod x q).symm
  have hr0 := Int.emod_nonneg x hq.ne'
  have hr1 := Int.emod_lt_of_pos x hq
  have hn : x < 0 ↔ x / q < 0 := ⟨fun h => Int.ediv_neg_of_neg_of_pos h hq, fun h => by nlinarith⟩
  simp only [hn, Int.dvd_iff_emod_eq_zero]
  generalize x / q = k at *
  generalize x % q = r at *
  have hp : (0 : ℤ) < 2 ^ s := by positivity
  -- the remainder the guess leaves: `v * x - k * 2^s`
  have hvx : v * x = k * e + v * r + k * 2 ^ s := by rw [hx]; linear_combination k * hv
  have hdiv : quot v s x = (k * e + v * r) / 2 ^ s + k := by
    rw [quot, hvx, Int.add_mul_ediv_right _ _ hp.ne']
  have hv0 : 0 < v := pos_of_mul_pos_left (hv ▸ by positivity) hq.le
  have ke1 : -(K * e) ≤ k * e := by rw [← neg_mul]; exact mul_le_mul_of_nonneg_right h1 he.le
  have ke2 : k * e ≤ K * e := mul_le_mul_of_nonneg_right h2 he.le
  have vr : v * r ≤ 2 ^ s + e - v := by
    calc v * r ≤ v * (q - 1) := mul_le_mul_of_nonneg_left (by omega) hv0.le
      _ = 2 ^ s + e - v := by linear_combination hv
  rw [hdiv]
  split_ifs with hc
  · obtain ⟨hk, rfl⟩ := hc
    have hke : k * e < 0 := mul_neg_of_neg_of_pos hk he
    have : (k * e + v * 0) / 2 ^ s = -1 := by
      rw [Int.ediv_eq_iff_of_pos hp]
      constructor <;> linarith
    omega
  · have : (k * e + v * r) / 2 ^ s = 0 := by
      apply Int.ediv_eq_zero_of_lt
      · rcases lt_or_ge k 0 with hk | hk
        · have : v * 1 ≤ v * r := mul_le_mul_of_nonneg_left (by omega) hv0.le
          linarith
        · have := mul_nonneg hv0.le hr0
          have := mul_nonneg hk he.le
          linarith
      · linarith
    omega

/-- The reduced value: the remainder, or `q` itself at a negative multiple of `q`. -/
theorem red_eq (hq : 0 < q) (he : 0 < e) (hv : v * q = 2 ^ s + e) (hK : (K + 1) * e < v)
    {x : ℤ} (h1 : -K ≤ x / q) (h2 : x / q ≤ K) :
    red v s q x = if x < 0 ∧ q ∣ x then q else x % q := by
  rw [red, quot_eq hq he hv hK h1 h2]
  have hm := Int.mul_ediv_add_emod x q
  split_ifs with hc
  · have := Int.emod_eq_zero_of_dvd hc.2
    linarith
  · linarith

end Barrett
