import Mathlib

/-!
# Binary long division

The schoolbook loop on the bits of the numerator, the highest first: shift the next bit into the
remainder, and where the divisor fits, subtract it and set the quotient bit. `Divided` is the loop
invariant, one `step` of the loop keeps it, and at the end it gives quotient and remainder.

A zero divisor fits every time; the invariant says what the loop makes of it, since circuits run it
all the same.
-/

namespace LongDivision

/-- The bits of `n` from `k` up, out of `w`, have been divided by `d`. -/
structure Divided (w n d k q r : ℕ) : Prop where
  of_pos : 0 < d → n / 2 ^ k = q * d + r ∧ r < d
  of_zero : d = 0 → q = 2 ^ (w - k) - 1 ∧ r = n / 2 ^ k

/-- The remainder with the next bit of the numerator shifted in. -/
def shifted (n k r : ℕ) : ℕ := 2 * r + n / 2 ^ k % 2

def nextQuotient (d q s : ℕ) : ℕ := if d ≤ s then 2 * q + 1 else 2 * q

def nextRemainder (d s : ℕ) : ℕ := if d ≤ s then s - d else s

theorem div_pow_succ (n k : ℕ) : n / 2 ^ k = 2 * (n / 2 ^ (k + 1)) + n / 2 ^ k % 2 := by
  have h : n / 2 ^ (k + 1) = n / 2 ^ k / 2 := by rw [pow_succ, Nat.div_div_eq_div_mul]
  omega

namespace Divided
variable {w n d k q r : ℕ}

theorem start (d : ℕ) (h : n < 2 ^ w) : Divided w n d w 0 0 where
  of_pos hd := by
    rw [Nat.div_eq_of_lt h]
    exact ⟨by simp, hd⟩
  of_zero _ := by
    rw [Nat.div_eq_of_lt h]
    simp

theorem step (h : Divided w n d (k + 1) q r) (hk : k < w) :
    Divided w n d k (nextQuotient d q (shifted n k r)) (nextRemainder d (shifted n k r)) where
  of_pos hd := by
    obtain ⟨heq, hlt⟩ := h.of_pos hd
    have hbits := div_pow_succ n k
    have hdouble : 2 * (q * d + r) = 2 * q * d + 2 * r := by ring
    unfold nextQuotient nextRemainder shifted
    by_cases hfit : d ≤ 2 * r + n / 2 ^ k % 2
    · rw [if_pos hfit, if_pos hfit, Nat.add_mul, one_mul]
      constructor <;> omega
    · rw [if_neg hfit, if_neg hfit]
      constructor <;> omega
  of_zero hd := by
    obtain ⟨hq, hr⟩ := h.of_zero hd
    have hbits := div_pow_succ n k
    have hpow : 2 ^ (w - k) = 2 * 2 ^ (w - (k + 1)) := by
      rw [← pow_succ']
      congr 1
      omega
    have hone : 1 ≤ 2 ^ (w - (k + 1)) := Nat.one_le_two_pow
    unfold nextQuotient nextRemainder shifted
    rw [if_pos (by omega), if_pos (by omega), hd]
    constructor <;> omega

/-- The remainder never outgrows the bits it was made of, whatever the divisor. -/
theorem remainder_le (h : Divided w n d k q r) : r ≤ n / 2 ^ k := by
  rcases Nat.eq_zero_or_pos d with hd | hd
  · exact (h.of_zero hd).2.le
  · have heq := (h.of_pos hd).1
    omega

theorem shifted_le (h : Divided w n d (k + 1) q r) : shifted n k r ≤ n / 2 ^ k := by
  have hle := h.remainder_le
  have hbits := div_pow_succ n k
  unfold shifted
  omega

theorem quotient_lt (h : Divided w n d k q r) (hn : n < 2 ^ w) (hk : k ≤ w) :
    q < 2 ^ (w - k) := by
  rcases Nat.eq_zero_or_pos d with hd | hd
  · rw [(h.of_zero hd).1]
    exact Nat.sub_lt (Nat.two_pow_pos _) one_pos
  · have hbound : n / 2 ^ k < 2 ^ (w - k) := by
      rw [Nat.div_lt_iff_lt_mul (Nat.two_pow_pos k), ← pow_add, Nat.sub_add_cancel hk]
      exact hn
    have hmul : q ≤ q * d := Nat.le_mul_of_pos_right q hd
    have heq := (h.of_pos hd).1
    omega

theorem quotient_eq (h : Divided w n d 0 q r) (hd : 0 < d) : q = n / d := by
  obtain ⟨heq, hlt⟩ := h.of_pos hd
  rw [pow_zero, Nat.div_one] at heq
  rw [heq, Nat.add_comm, Nat.add_mul_div_right _ _ hd, Nat.div_eq_of_lt hlt, zero_add]

theorem remainder_eq (h : Divided w n d 0 q r) : r = n % d := by
  rcases Nat.eq_zero_or_pos d with rfl | hd
  · rw [(h.of_zero rfl).2, pow_zero, Nat.div_one, Nat.mod_zero]
  · obtain ⟨heq, hlt⟩ := h.of_pos hd
    rw [pow_zero, Nat.div_one] at heq
    rw [heq, Nat.add_comm, Nat.add_mul_mod_self_right, Nat.mod_eq_of_lt hlt]

end Divided

end LongDivision
