import KyberNeorv32.Versions

/-!
# The Montgomery multiplier, signal by signal

`Arith` reads off what the Montgomery block computes; here every signal on the way is looked at, in
both versions, for all pairs of 16-bit operands. `MontSignals.Exact` says that each is the integer
it is meant to be, and how far the result is bounded.

The two bounds are those of `Montgomery.red_bounds`: a product is at most `2^30` in absolute value
and the digit at most `2^15`, so the result is at most `(2^30 + 2^15 * 3329) / 2^16`, cut to 18048;
products below `2^15 * 3329` bring it below `q`.
-/

namespace KyberNeorv32

open Words

def Verilog.montSignals (fqA fqB : BitVec 16) : MontSignals where
  fqProduct := fqProduct fqA fqB
  qinvProduct := qinvProduct fqA fqB
  montU := montU fqA fqB
  montUq := montUq fqA fqB
  montDifference := montDifference fqA fqB
  montShifted := montShifted fqA fqB
  fqResult := fqResult fqA fqB

theorem montSignals_eq (a b : BitVec 16) : Vhdl.montSignals a b = Verilog.montSignals a b := rfl

/-- No product and no difference wraps, no bit is lost in the shift and the cut, and the result is
the Montgomery product within its bounds. -/
structure MontSignals.Exact (s : MontSignals) (a b : BitVec 16) : Prop where
  fqProduct : s.fqProduct.toInt = a.toInt * b.toInt
  qinvProduct : s.qinvProduct.toNat = (s.fqProduct.extractLsb' 0 16).toNat * 62209
  montU : s.montU = s.qinvProduct.extractLsb' 0 16
  montUq : s.montUq.toInt = s.montU.toInt * 3329
  montDifference : s.montDifference.toInt = s.fqProduct.toInt - s.montUq.toInt
  low_zero : s.montDifference.extractLsb' 0 16 = 0
  montShifted : 2 ^ 16 * s.montShifted.toInt = s.montDifference.toInt
  fqResult : s.fqResult.toInt = s.montShifted.toInt
  modEq : 2 ^ 16 * s.fqResult.toInt ≡ a.toInt * b.toInt [ZMOD 3329]
  bound : |s.fqResult.toInt| ≤ 18048
  bound_of_product : |a.toInt * b.toInt| < 3329 * 2 ^ 15 → |s.fqResult.toInt| ≤ 3328
  bound_of_operand : |a.toInt| ≤ 3328 ∨ |b.toInt| ≤ 3328 → |s.fqResult.toInt| ≤ 3328

namespace Verilog

/-- An unsigned product of two 16-bit factors fits in 32 bits. -/
theorem qinvProduct_toNat (a b : BitVec 16) :
    (qinvProduct a b).toNat = ((fqProduct a b).extractLsb' 0 16).toNat * 62209 := by
  have hlow := ((fqProduct a b).extractLsb' 0 16).isLt
  rw [qinvProduct, BitVec.toNat_mul, BitVec.toNat_setWidth, BitVec.toNat_setWidth]
  generalize ((fqProduct a b).extractLsb' 0 16).toNat = x at *
  change x % 2 ^ 32 * (62209 % 2 ^ 32) % 2 ^ 32 = _
  omega

theorem montDifference_low (a b : BitVec 16) : (montDifference a b).extractLsb' 0 16 = 0 := by
  rw [extractLsb'_zero, setWidth_eq_zero_iff _ (by norm_num), montDifference_toInt]
  exact Montgomery.dvd_sub_digit qinv_dvd _

theorem fqResult_bound (a b : BitVec 16) : |(fqResult a b).toInt| ≤ 18048 := by
  obtain ⟨h1, h2⟩ := product_bounds a b
  obtain ⟨r1, r2⟩ := Montgomery.red_bounds (R := 2 ^ 16) (q := 3329) (by norm_num) (by norm_num)
    (by norm_num) qinv_dvd (a.toInt * b.toInt)
  rw [← fqResult_eq_red] at r1 r2
  push_cast at r1 r2
  rw [abs_le]
  constructor
  · omega
  · omega

theorem fqResult_bound_of_product {a b : BitVec 16} (h : |a.toInt * b.toInt| < 3329 * 2 ^ 15) :
    |(fqResult a b).toInt| ≤ 3328 := by
  obtain ⟨h1, h2⟩ := abs_lt.1 h
  obtain ⟨r1, r2⟩ := fqResult_lt (a := a) (b := b) (by linarith) (by linarith)
  rw [abs_le]
  constructor
  · omega
  · omega

theorem fqResult_bound_of_operand {a b : BitVec 16} (h : |a.toInt| ≤ 3328 ∨ |b.toInt| ≤ 3328) :
    |(fqResult a b).toInt| ≤ 3328 := by
  have hfactor : ∀ x y : BitVec 16, |y.toInt| ≤ 3328 → |(fqResult x y).toInt| ≤ 3328 := by
    intro x y hy
    obtain ⟨y1, y2⟩ := abs_le.1 hy
    obtain ⟨r1, r2⟩ := fqResult_lt_of_lt x (b := y) (by omega) (by omega)
    exact abs_le.2 ⟨by omega, by omega⟩
  rcases h with h | h
  · rw [fqResult_comm]
    exact hfactor b a h
  · exact hfactor a b h

theorem montSignals_exact (a b : BitVec 16) : (montSignals a b).Exact a b where
  fqProduct := fqProduct_toInt a b
  qinvProduct := qinvProduct_toNat a b
  montU := rfl
  montUq := toInt_mul_signExtend (by norm_num) (by norm_num) (by norm_num) _ _
  montDifference := by
    change (montDifference a b).toInt = (fqProduct a b).toInt - (montUq a b).toInt
    rw [montDifference_toInt, fqProduct_toInt, montUq_toInt]
  low_zero := montDifference_low a b
  montShifted := by
    change 2 ^ 16 * (montShifted a b).toInt = (montDifference a b).toInt
    rw [montShifted_toInt, montDifference_toInt]
    exact Montgomery.mul_red qinv_dvd _
  fqResult := by
    change (fqResult a b).toInt = (montShifted a b).toInt
    rw [fqResult_eq_red, montShifted_toInt]
  modEq := fqResult_modEq a b
  bound := fqResult_bound a b
  bound_of_product := fqResult_bound_of_product
  bound_of_operand := fqResult_bound_of_operand

end Verilog

/-- **`fqmul_k` is exact on all operands.** For every pair of 16-bit operands every signal of the
Montgomery block, in `pq_alu.v` and in `fqmul.vhd`, is the integer it stands for; and the
instruction returns the sign-extended result whatever the upper halves of its operands, its
register fields and the twiddle. -/
theorem fqmul_exact (a b : BitVec 16) :
    (Verilog.montSignals a b).Exact a b ∧ (Vhdl.montSignals a b).Exact a b ∧
      ∀ (r : Regs) (aHigh bHigh twiddle : BitVec 16),
        (Verilog.pqAlu.out twiddle (pqFqmul r (aHigh ++ a) (bHigh ++ b))).1 =
          (Verilog.montSignals a b).fqResult.signExtend 32 ∧
        ((Vhdl.pqAlu Vhdl.fqMul Vhdl.barretReduce).out twiddle
            (pqFqmul r (aHigh ++ a) (bHigh ++ b))).1 =
          (Vhdl.montSignals a b).fqResult.signExtend 32 := by
  rw [montSignals_eq]
  refine ⟨Verilog.montSignals_exact a b, Verilog.montSignals_exact a b, ?_⟩
  intro r aHigh bHigh twiddle
  have ha : (aHigh ++ a).extractLsb' 0 16 = a := BitVec.extractLsb'_append_eq_right
  have hb : (bHigh ++ b).extractLsb' 0 16 = b := BitVec.extractLsb'_append_eq_right
  constructor
  · change Verilog.resultO (kyberInst .fqmul r) (aHigh ++ a) (bHigh ++ b) twiddle = _
    rw [Verilog.resultO_eq, decode_kyberInst, Verilog.operandA, Verilog.operandB, ha, hb]
    rfl
  · change Vhdl.resultO _ _ (kyberInst .fqmul r) (aHigh ++ a) (bHigh ++ b) twiddle = _
    rw [Vhdl.resultO_eq_result, decode_kyberInst, funs_eq, ha, hb]
    rfl

end KyberNeorv32
