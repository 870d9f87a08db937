import KyberNeorv32.Arith
import KyberNeorv32.Lib.PairNet

/-!
# The ROM and the instructions on coefficients

`zeta_lut[k]` is `17^brv7(k)` in the Montgomery domain, for the primitive 256th root of unity 17
modulo 3329 (`zetaLut_root`), and below `q` (`zetaLut_bounds`). The inverse transform needs no
table of its own: entries `2^l + i` and `2^(l+1) - 1 - i` multiply to `-1` (`zeta_mirror`).

`nttK`, `inttK`, `reduceK` and `fqmulK` are the four arithmetic instructions on 16-bit
coefficients, with `zeta_lut[k]` in the twiddle register: what `result_o` holds when the operands
are on the ports sign-extended. The upper halves of the operands and the register fields of the
instruction do not matter (`resultO_eq`).
-/

namespace KyberNeorv32.Verilog

open Words

/-! ## The twiddle ROM -/

/-- Seven bits reversed. -/
def brv7 (k : BitVec 7) : ℕ := k.reverse.toNat

/-- ROM address of level `l`, block `i`. -/
def addr (l i : ℕ) : BitVec 7 := BitVec.ofNat 7 (2 ^ l + i)

/-- The address the inverse transform uses for level `l`, block `i`. -/
def addrInv (l i : ℕ) : BitVec 7 := BitVec.ofNat 7 (2 ^ (l + 1) - 1 - i)

theorem zetaLut_bounds : ∀ k, 0 < (zetaLut k).toInt ∧ (zetaLut k).toInt < 3329 := by
  decide +kernel

theorem zetaLut_root : ∀ k, (zetaLut k).toInt ≡ 17 ^ brv7 k * 65536 [ZMOD 3329] := by
  unfold Int.ModEq
  decide +kernel

theorem zeta_mirror : ∀ l < 7, ∀ i < 2 ^ l,
    (zetaLut (addr l i)).toInt * (zetaLut (addrInv l i)).toInt ≡ -(65536 * 65536) [ZMOD 3329] := by
  unfold Int.ModEq
  decide +kernel

theorem pow_17_128 : (17 : ℤ) ^ 128 ≡ -1 [ZMOD 3329] := by
  unfold Int.ModEq
  decide +kernel

/-! ## The instructions -/

/-- `result_o` for coefficients `a` and `b`. -/
def exec (op : Op) (twiddleQ a b : BitVec 16) : BitVec 32 :=
  resultO (kyberInst op tbRegs) (a.signExtend 32) (b.signExtend 32) twiddleQ

def low (r : BitVec 32) : BitVec 16 := r.extractLsb' 0 16
def high (r : BitVec 32) : BitVec 16 := r.extractLsb' 16 16

def fqmulK (a b : BitVec 16) : BitVec 32 := exec .fqmul 0 a b
def reduceK (a : BitVec 16) : BitVec 32 := exec .reduce 0 a 0

/-- Both outputs of `ntt_k`, the first in bits 15:0. -/
def nttK (k : BitVec 7) (a b : BitVec 16) : BitVec 16 × BitVec 16 :=
  (low (exec .ntt (zetaLut k) a b), high (exec .ntt (zetaLut k) a b))

def inttK (k : BitVec 7) (a b : BitVec 16) : BitVec 16 × BitVec 16 :=
  (low (exec .intt (zetaLut k) a b), high (exec .intt (zetaLut k) a b))

@[simp] theorem operand_signExtend (a : BitVec 16) : (a.signExtend 32).extractLsb' 0 16 = a := by
  rw [extractLsb'_zero, setWidth_signExtend _ (by norm_num) (by norm_num), BitVec.setWidth_eq]

@[simp] theorem low_append (x y : BitVec 16) : low (x ++ y) = y := BitVec.extractLsb'_append_eq_right

@[simp] theorem high_append (x y : BitVec 16) : high (x ++ y) = x := BitVec.extractLsb'_append_eq_left

theorem exec_eq (op : Op) (twiddleQ a b : BitVec 16) : exec op twiddleQ a b =
    match op with
    | .setTwiddle => 0
    | .fqmul => (fqResult a b).signExtend 32
    | .reduce => (barrettResult a).signExtend 32
    | .ntt => (a - fqResult b twiddleQ) ++ (a + fqResult b twiddleQ)
    | .intt => fqResult (b - a) twiddleQ ++ barrettResult (a + b) := by
  rw [exec, resultO_eq, decode_kyberInst, operandA, operandB, operand_signExtend, operand_signExtend]
  cases op <;> rfl

/-- The product that both outputs of `ntt_k` share. -/
def nttT (k : BitVec 7) (b : BitVec 16) : BitVec 16 := fqResult b (zetaLut k)

theorem nttK_eq (k : BitVec 7) (a b : BitVec 16) : nttK k a b = (a + nttT k b, a - nttT k b) := by
  simp [nttK, exec_eq, nttT]

theorem inttK_eq (k : BitVec 7) (a b : BitVec 16) :
    inttK k a b = (barrettResult (a + b), fqResult (b - a) (zetaLut k)) := by
  simp [inttK, exec_eq]

theorem low_reduceK (a : BitVec 16) : low (reduceK a) = barrettResult a := by
  rw [reduceK, exec_eq]
  exact operand_signExtend _

theorem fqmulK_toInt (a b : BitVec 16) : (fqmulK a b).toInt = (fqResult a b).toInt := by
  rw [fqmulK, exec_eq]
  exact BitVec.toInt_signExtend_of_le (by norm_num)

/-! ## `ntt_k` -/

theorem nttT_bounds (k : BitVec 7) (b : BitVec 16) :
    -3329 < (nttT k b).toInt ∧ (nttT k b).toInt < 3329 :=
  fqResult_lt_of_lt b (by have := zetaLut_bounds k; omega) (zetaLut_bounds k).2

theorem nttT_modEq (k : BitVec 7) (b : BitVec 16) :
    65536 * (nttT k b).toInt ≡ (zetaLut k).toInt * b.toInt [ZMOD 3329] := by
  rw [mul_comm (zetaLut k).toInt]
  exact fqResult_modEq b (zetaLut k)

/-- Neither 16-bit adder on the way to the outputs of `ntt_k` wraps. -/
def NttExact (k : BitVec 7) (a b : BitVec 16) : Prop := AddExact a (nttT k b) ∧ SubExact a (nttT k b)

instance (k : BitVec 7) (a b : BitVec 16) : Decidable (NttExact k a b) := by
  unfold NttExact; infer_instance

theorem nttExact_of_le (k : BitVec 7) {a : BitVec 16} (b : BitVec 16) (h1 : -29439 ≤ a.toInt)
    (h2 : a.toInt ≤ 29439) : NttExact k a b := by
  obtain ⟨t1, t2⟩ := nttT_bounds k b
  constructor
  · rw [addExact_iff]; omega
  · rw [subExact_iff]; omega

/-! ## `intt_k` -/

/-- Neither operand adder of `intt_k` wraps: not `a + b`, not `b - a`. -/
def InttOperandsExact (a b : BitVec 16) : Prop := AddExact a b ∧ SubExact b a

/-- No 16-bit adder on the way to the outputs of `intt_k` wraps, the Barrett block's included. -/
def InttExact (a b : BitVec 16) : Prop :=
  InttOperandsExact a b ∧ SubExact (a + b) (barrettMultiple (a + b))

instance (a b : BitVec 16) : Decidable (InttOperandsExact a b) := by
  unfold InttOperandsExact; infer_instance

instance (a b : BitVec 16) : Decidable (InttExact a b) := by unfold InttExact; infer_instance

theorem inttOperandsExact_of_le {a b : BitVec 16} (ha : |a.toInt| ≤ 16383) (hb : |b.toInt| ≤ 16383) :
    InttOperandsExact a b := by
  rw [abs_le] at ha hb
  constructor
  · rw [addExact_iff]; omega
  · rw [subExact_iff]; omega

end KyberNeorv32.Verilog
