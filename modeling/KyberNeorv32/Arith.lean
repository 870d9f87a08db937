import KyberNeorv32.Verilog
import KyberNeorv32.Lib.Reduction

/-!
# What the arithmetic of `pq_alu.v` means on integers

The Montgomery block computes `Montgomery.red` of the exact product of its inputs
(`fqResult_eq_red`), the Barrett block computes `Barrett.red` of its input
(`barrettResult_eq_red`), in both cases for every 16-bit input. From these come the facts about
coefficients that the networks use: `fqResult_modEq`, `fqResult_lt`, `barrettResult_eq`.
-/

namespace KyberNeorv32.Verilog

open Words

/-! ## The Montgomery block -/

theorem fqProduct_toInt (a b : BitVec 16) : (fqProduct a b).toInt = a.toInt * b.toInt :=
  toInt_mul_signExtend (by norm_num) (by norm_num) (by norm_num) a b

/-- The unsigned 32-bit product by `KYBER_QINV` is only read in its low half. -/
theorem montU_eq (a b : BitVec 16) : montU a b = (fqProduct a b).setWidth 16 * kyberQinv := by
  rw [montU, extractLsb'_zero, qinvProduct, extractLsb'_zero, BitVec.setWidth_mul _ _ (by norm_num)]
  simp

theorem montU_toInt (a b : BitVec 16) :
    (montU a b).toInt = Montgomery.digit (2 ^ 16) 62209 (a.toInt * b.toInt) := by
  have hq : kyberQinv.toInt = (62209 : ℤ).bmod (2 ^ 16) := by decide
  rw [montU_eq, BitVec.toInt_mul, toInt_setWidth_of_le _ (by norm_num), fqProduct_toInt, hq,
    Int.mul_bmod_bmod, Int.bmod_mul_bmod, Montgomery.digit]

theorem montUq_toInt (a b : BitVec 16) :
    (montUq a b).toInt = Montgomery.digit (2 ^ 16) 62209 (a.toInt * b.toInt) * 3329 := by
  rw [montUq, toInt_mul_signExtend (by norm_num) (by norm_num) (by norm_num), montU_toInt]
  rfl

theorem qinv_dvd : ((2 ^ 16 : ℕ) : ℤ) ∣ 3329 * 62209 - 1 := by norm_num

theorem product_bounds (a b : BitVec 16) :
    -1073741824 ≤ a.toInt * b.toInt ∧ a.toInt * b.toInt ≤ 1073741824 := by
  obtain ⟨a1, a2⟩ := toInt_bounds a
  obtain ⟨b1, b2⟩ := toInt_bounds b
  constructor <;> nlinarith

/-- The 32-bit subtraction does not wrap, and its low half is zero. -/
theorem montDifference_toInt (a b : BitVec 16) :
    (montDifference a b).toInt = a.toInt * b.toInt -
      Montgomery.digit (2 ^ 16) 62209 (a.toInt * b.toInt) * 3329 := by
  have hx : SubExact (fqProduct a b) (montUq a b) := by
    rw [subExact_iff, fqProduct_toInt, montUq_toInt]
    obtain ⟨h1, h2⟩ := product_bounds a b
    obtain ⟨u1, u2⟩ := Montgomery.digit_bounds (R := 2 ^ 16) (by norm_num) (by norm_num) 62209
      (a.toInt * b.toInt)
    generalize Montgomery.digit (2 ^ 16) 62209 (a.toInt * b.toInt) = u at *
    push_cast at u1 u2
    constructor <;> omega
  rw [montDifference, hx, fqProduct_toInt, montUq_toInt]

theorem montShifted_toInt (a b : BitVec 16) :
    (montShifted a b).toInt = Montgomery.red (2 ^ 16) 3329 62209 (a.toInt * b.toInt) := by
  rw [montShifted, BitVec.toInt_sshiftRight, Int.shiftRight_eq_div_pow, montDifference_toInt,
    Montgomery.red]

/-- **The Montgomery block is exact**: for every pair of 16-bit inputs, its output is the integer
Montgomery reduction of their product. -/
theorem fqResult_eq_red (a b : BitVec 16) :
    (fqResult a b).toInt = Montgomery.red (2 ^ 16) 3329 62209 (a.toInt * b.toInt) := by
  obtain ⟨h1, h2⟩ := product_bounds a b
  obtain ⟨r1, r2⟩ := Montgomery.red_bounds (R := 2 ^ 16) (q := 3329) (by norm_num) (by norm_num)
    (by norm_num) qinv_dvd (a.toInt * b.toInt)
  rw [fqResult, extractLsb'_zero, toInt_setWidth_of_le _ (by norm_num), montShifted_toInt,
    bmod_eq_self_iff]
  generalize Montgomery.red (2 ^ 16) 3329 62209 (a.toInt * b.toInt) = r at *
  push_cast at r1 r2
  constructor <;> omega

theorem fqResult_modEq (a b : BitVec 16) :
    65536 * (fqResult a b).toInt ≡ a.toInt * b.toInt [ZMOD 3329] := by
  rw [fqResult_eq_red]
  exact Montgomery.mul_red_modEq qinv_dvd _

/-- `2^16` can be cancelled modulo `q`. -/
theorem mont_cancel {x y : ℤ} (h : 65536 * x ≡ 65536 * y [ZMOD 3329]) : x ≡ y [ZMOD 3329] := by
  unfold Int.ModEq at *
  omega

theorem fqResult_lt {a b : BitVec 16} (h1 : -(3329 * 32768) < a.toInt * b.toInt)
    (h2 : a.toInt * b.toInt < 3329 * 32768) :
    -3329 < (fqResult a b).toInt ∧ (fqResult a b).toInt < 3329 := by
  rw [fqResult_eq_red]
  apply Montgomery.red_lt (by norm_num) (by norm_num) (by norm_num) qinv_dvd
  · push_cast; linarith
  · push_cast; linarith

/-- A factor below `q` in absolute value is enough, whatever the other one. -/
theorem fqResult_lt_of_lt (a : BitVec 16) {b : BitVec 16} (h1 : -3329 < b.toInt)
    (h2 : b.toInt < 3329) : -3329 < (fqResult a b).toInt ∧ (fqResult a b).toInt < 3329 := by
  obtain ⟨a1, a2⟩ := toInt_bounds a
  apply fqResult_lt
  · nlinarith
  · nlinarith

/-- The Montgomery block does not care which of its inputs is which. -/
theorem fqResult_comm (a b : BitVec 16) : fqResult a b = fqResult b a := by
  apply BitVec.eq_of_toInt_eq
  rw [fqResult_eq_red, fqResult_eq_red, mul_comm]

/-! ## The Barrett block -/

theorem barrettShifted_toInt (x : BitVec 16) :
    (barrettShifted x).toInt = Barrett.quot 20159 26 x.toInt := by
  have hp : (barrettProduct x).toInt = barrettV.toInt * x.toInt :=
    toInt_mul_signExtend (by norm_num) (by norm_num) (by norm_num) _ _
  rw [barrettShifted, BitVec.toInt_sshiftRight, Int.shiftRight_eq_div_pow, hp, Barrett.quot]
  rfl

/-- The exact quotient times `q`, cut to 16 bits. -/
theorem barrettMultiple_toInt (x : BitVec 16) :
    (barrettMultiple x).toInt = (Barrett.quot 20159 26 x.toInt * 3329).bmod (2 ^ 16) := by
  have hw : (barrettMultipleWide x).toInt = (barrettQuotient x).toInt * kyberQ.toInt :=
    toInt_mul_signExtend (by norm_num) (by norm_num) (by norm_num) _ _
  have hq : (barrettQuotient x).toInt = (Barrett.quot 20159 26 x.toInt).bmod (2 ^ 16) := by
    rw [barrettQuotient, extractLsb'_zero, toInt_setWidth_of_le _ (by norm_num),
      barrettShifted_toInt]
  rw [barrettMultiple, extractLsb'_zero, toInt_setWidth_of_le _ (by norm_num), hw, hq,
    Int.bmod_mul_bmod]
  rfl

theorem barrettRed_eq (x : BitVec 16) : Barrett.red 20159 26 3329 x.toInt =
    if x.toInt < 0 ∧ 3329 ∣ x.toInt then 3329 else x.toInt % 3329 := by
  obtain ⟨x1, x2⟩ := toInt_bounds x
  apply Barrett.red_eq (e := 447) (K := 10) <;> omega

/-- **The Barrett block is exact**: although the multiple and the last subtraction are 16 bits
wide, the output is the integer Barrett reduction of every 16-bit input. -/
theorem barrettResult_eq_red (x : BitVec 16) :
    (barrettResult x).toInt = Barrett.red 20159 26 3329 x.toInt := by
  rw [barrettResult, BitVec.toInt_sub, barrettMultiple_toInt, Int.sub_bmod_bmod]
  change (Barrett.red 20159 26 3329 x.toInt).bmod (2 ^ 16) = _
  rw [bmod_eq_self_iff, barrettRed_eq]
  split <;> omega

/-- The remainder, or `q` itself at a negative multiple of `q`. -/
theorem barrettResult_eq (x : BitVec 16) : (barrettResult x).toInt =
    if x.toInt < 0 ∧ 3329 ∣ x.toInt then 3329 else x.toInt % 3329 := by
  rw [barrettResult_eq_red, barrettRed_eq]

theorem barrettResult_modEq (x : BitVec 16) : (barrettResult x).toInt ≡ x.toInt [ZMOD 3329] := by
  rw [barrettResult_eq]
  split
  · rename_i h
    exact (Int.modEq_zero_iff_dvd.2 dvd_rfl).trans (Int.modEq_zero_iff_dvd.2 h.2).symm
  · exact Int.mod_modEq _ _

theorem barrettResult_bounds (x : BitVec 16) :
    0 ≤ (barrettResult x).toInt ∧ (barrettResult x).toInt ≤ 3329 := by
  rw [barrettResult_eq]
  split <;> omega

theorem barrettResult_eq_q_iff (x : BitVec 16) :
    (barrettResult x).toInt = 3329 ↔ x.toInt < 0 ∧ 3329 ∣ x.toInt := by
  rw [barrettResult_eq]
  split <;> omega

/-- The last subtraction of the Barrett block does wrap, and so does the multiple before it, for
the inputs whose multiple is `-10 * q`: the two cancel. -/
theorem barrett_subExact_iff (x : BitVec 16) :
    SubExact x (barrettMultiple x) ↔ -29961 < x.toInt := by
  obtain ⟨x1, x2⟩ := toInt_bounds x
  have hr := barrettRed_eq x
  rw [Barrett.red] at hr
  rw [subExact_iff, barrettMultiple_toInt]
  generalize Barrett.quot 20159 26 x.toInt = t at *
  rw [Int.bmod_eq_emod]
  split at hr <;> split <;> omega

end KyberNeorv32.Verilog
