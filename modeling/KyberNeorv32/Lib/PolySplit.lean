import Mathlib

/-!
# Splitting a polynomial remainder in two

The radix-2 step of a number theoretic transform, over any commutative ring: the remainder of a
polynomial modulo `X^(2n) - z^2`, held as `2n` coefficients, becomes the remainders modulo
`X^n - z` and `X^n + z` when each pair `(a, b)` of coefficients `n` apart becomes
`(a + z b, a - z b)`. `Holds` says that a range of a coefficient array is a remainder, up to a
multiple of the modulus; `Holds.split` is the step; `Holds.modByMonic` reads the final remainder.
-/

namespace PolySplit

open Polynomial

variable {R : Type} [CommRing R]

/-- The polynomial with coefficients `c s, …, c (s + n - 1)`. -/
noncomputable def block (c : ℕ → R) (s n : ℕ) : R[X] :=
  ∑ j ∈ Finset.range n, C (c (s + j)) * X ^ j

/-- The `n` coefficients from `s` stand for `P` modulo `X^n - w`. -/
def Holds (P : R[X]) (c : ℕ → R) (s n : ℕ) (w : R) : Prop := (X ^ n - C w) ∣ P - block c s n

theorem block_add (c : ℕ → R) (s m n : ℕ) :
    block c s (m + n) = block c s m + X ^ m * block c (s + m) n := by
  unfold block
  rw [Finset.sum_range_add, Finset.mul_sum]
  congr 1
  refine Finset.sum_congr rfl fun j _ => ?_
  rw [pow_add, add_assoc]
  ring

theorem block_lincomb (c a b : ℕ → R) (z : R) (s sa sb n : ℕ)
    (h : ∀ j < n, c (s + j) = a (sa + j) + z * b (sb + j)) :
    block c s n = block a sa n + C z * block b sb n := by
  unfold block
  rw [Finset.mul_sum, ← Finset.sum_add_distrib]
  refine Finset.sum_congr rfl fun j hj => ?_
  rw [h j (Finset.mem_range.1 hj), C_add, C_mul]
  ring

/-- One half of the split: reduce modulo the factor `X^n - z` of `X^(2n) - z^2`. -/
theorem Holds.factor {P : R[X]} {c c' : ℕ → R} {s s' n : ℕ} {z w : R}
    (h : Holds P c s (n + n) w) (hw : z ^ 2 = w)
    (hc : ∀ j < n, c' (s' + j) = c (s + j) + z * c (s + n + j)) : Holds P c' s' n z := by
  have hdvd : (X ^ n - C z : R[X]) ∣ X ^ (n + n) - C w :=
    ⟨X ^ n + C z, by rw [← hw, C_pow, pow_add]; ring⟩
  have hblock : P - block c' s' n =
      (P - block c s (n + n)) + (X ^ n - C z) * block c (s + n) n := by
    rw [block_lincomb c' c c z s' s (s + n) n hc, block_add]
    ring
  unfold Holds
  rw [hblock]
  exact dvd_add (hdvd.trans h) (dvd_mul_right _ _)

/-- **The split.** The lower half holds `P` modulo `X^n - z`, the upper one modulo `X^n + z`. -/
theorem Holds.split {P : R[X]} {c c' : ℕ → R} {s n : ℕ} {z w : R} (h : Holds P c s (n + n) w)
    (hw : z ^ 2 = w) (hlow : ∀ j < n, c' (s + j) = c (s + j) + z * c (s + n + j))
    (hhigh : ∀ j < n, c' (s + n + j) = c (s + j) - z * c (s + n + j)) :
    Holds P c' s n z ∧ Holds P c' (s + n) n (-z) :=
  ⟨h.factor hw hlow,
    h.factor (by rw [neg_sq, hw]) fun j hj => by rw [hhigh j hj, neg_mul, sub_eq_add_neg]⟩

/-- A polynomial of degree below `n` holds itself modulo anything. -/
theorem Holds.self (c : ℕ → R) (s n : ℕ) (w : R) : Holds (block c s n) c s n w := by
  simp [Holds]

/-- Two coefficients that hold `P` modulo `X^2 - w` are the remainder. -/
theorem Holds.modByMonic [Nontrivial R] {P : R[X]} {c : ℕ → R} {s : ℕ} {w : R}
    (h : Holds P c s 2 w) : P %ₘ (X ^ 2 - C w) = C (c s) + C (c (s + 1)) * X := by
  have hmonic : (X ^ 2 - C w : R[X]).Monic := monic_X_pow_sub_C w (by norm_num)
  have hblock : block c s 2 = C (c s) + C (c (s + 1)) * X := by
    simp [block, Finset.sum_range_succ]
  obtain ⟨g, hg⟩ := h
  rw [hblock] at hg
  refine (div_modByMonic_unique g _ hmonic ⟨?_, ?_⟩).2
  · rw [← hg]; ring
  · rw [degree_X_pow_sub_C (by norm_num) w, add_comm]
    exact lt_of_le_of_lt degree_linear_le (by norm_num)

end PolySplit
