import KyberNeorv32.Verilog
import KyberNeorv32.Butterfly
import KyberNeorv32.Lib.Rv32

/-!
# `pq_alu_neorv32_test`: the software side of the self-test

The firmware computes every sample twice, with the reference C reductions and with the custom
instructions, and counts disagreements. This file models the C side: `montgomeryReduce` and
`barrettReduce` from the C lines that `assembly.s:878-934` interleaves with their machine code,
and the four expressions of `main.c` around them. `montgomery_reduce_code` and
`barrett_reduce_code` say that the machine code computes the C functions.

| here | there |
| --- | --- |
| `montgomeryReduce`, `barrettReduce` | `assembly.s:878-903`, `:905-934` |
| `fqmulBase` … `inttBase` | `result` of the four loops (`main.c:161-259`) |
| `packCoefficients` | `pack_coefficients` (`main.c:133`) |

C arithmetic on `int32_t` wraps here (`-fwrapv`), and a conversion to `int16_t` keeps the low 16
bits.
-/

namespace KyberNeorv32.SelfTest

open Words Verilog

/-! ## The C reductions -/

/-- `QINV`, which is -3327. -/
def qinv : BitVec 32 := 0xfffff301

def kyberQ : BitVec 32 := 3329

def montgomeryReduce (a : BitVec 32) : BitVec 16 :=
  let u : BitVec 16 := (a * qinv).setWidth 16
  let t : BitVec 32 := u.signExtend 32 * kyberQ
  let t := a - t
  let t := t.sshiftRight 16
  t.setWidth 16

/-- `v`, that is `((1U << 26) + KYBER_Q/2)/KYBER_Q`. -/
def barrettV : BitVec 16 := 20159

def barrettReduce (a : BitVec 16) : BitVec 16 :=
  let t : BitVec 16 := ((barrettV.signExtend 32 * a.signExtend 32).sshiftRight 26).setWidth 16
  let t : BitVec 16 := (t.signExtend 32 * kyberQ).setWidth 16
  (a.signExtend 32 - t.signExtend 32).setWidth 16

/-- The C function in 16-bit arithmetic: the products and differences are only read in their low
halves. -/
theorem barrettReduce_eq (a : BitVec 16) : barrettReduce a =
    a - ((barrettV.signExtend 32 * a.signExtend 32).sshiftRight 26).setWidth 16 *
      kyberQ.setWidth 16 := by
  rw [barrettReduce, setWidth_sub _ _ (by norm_num), setWidth_signExtend_self _ (by norm_num),
    setWidth_signExtend_self _ (by norm_num), BitVec.setWidth_mul _ _ (by norm_num),
    setWidth_signExtend_self _ (by norm_num)]

/-! ## The four expressions of `main` -/

/-- `(int16_t)x`, held in an `int32_t`. -/
def int16 (x : BitVec 32) : BitVec 32 := (x.setWidth 16).signExtend 32

def packCoefficients (first second : BitVec 16) : BitVec 32 :=
  first.setWidth 32 ||| (second.setWidth 32 <<< 16)

/-- `(uint32_t)(int32_t)montgomery_reduce(a * b)`. -/
def fqmulBase (x y : BitVec 32) : BitVec 32 :=
  (montgomeryReduce (int16 x * int16 y)).signExtend 32

/-- `(uint32_t)(int32_t)barrett_reduce((int16_t)a)`. -/
def reduceBase (x : BitVec 32) : BitVec 32 := (barrettReduce ((int16 x).setWidth 16)).signExtend 32

def nttBase (zeta : BitVec 16) (x y : BitVec 32) : BitVec 32 :=
  let a := int16 x
  let b := int16 y
  let t : BitVec 16 := montgomeryReduce (zeta.signExtend 32 * b)
  packCoefficients ((a + t.signExtend 32).setWidth 16) ((a - t.signExtend 32).setWidth 16)

def inttBase (zeta : BitVec 16) (x y : BitVec 32) : BitVec 32 :=
  let a := int16 x
  let b := int16 y
  let sum : BitVec 16 := (a + b).setWidth 16
  let difference : BitVec 16 := (b - a).setWidth 16
  let first := barrettReduce sum
  let second := montgomeryReduce (zeta.signExtend 32 * difference.signExtend 32)
  packCoefficients first second

/-! ## The machine code -/

section Code
open Rv32

/-- `assembly.s:885-902`, up to `ret`. -/
def montgomeryReduceCode : List Instr :=
  [.lui .a5 0xfffff, .addi .a5 .a5 769, .mul .a5 .a0 .a5, .lui .a4 0x1, .addi .a4 .a4 (-767),
    .slli .a5 .a5 0x10, .srai .a5 .a5 0x10, .mul .a5 .a5 .a4, .sub .a0 .a0 .a5,
    .srai .a0 .a0 0x10]

/-- `assembly.s:912-933`, up to `ret`. -/
def barrettReduceCode : List Instr :=
  [.lui .a5 0x5, .addi .a5 .a5 (-321), .mul .a5 .a0 .a5, .lui .a4 0x1, .addi .a4 .a4 (-767),
    .srai .a5 .a5 0x1a, .mul .a5 .a5 .a4, .sub .a0 .a0 .a5, .slli .a0 .a0 0x10,
    .srai .a0 .a0 0x10]

/-- `slli` and `srai` by 16 are a conversion to `int16_t`. -/
theorem sshiftRight_shiftLeft (x : BitVec 32) : (x <<< 16).sshiftRight 16 = int16 x := by
  ext i hi
  simp only [int16, BitVec.getElem_sshiftRight, BitVec.getElem_signExtend, BitVec.getElem_setWidth,
    BitVec.getElem_shiftLeft, BitVec.msb_eq_getLsbD_last, BitVec.getLsbD_shiftLeft,
    BitVec.getLsbD_setWidth]
  by_cases h : i < 16
  · simp [h, show 16 + i < 32 by omega, BitVec.getLsbD_eq_getElem hi]
  · simp [h, show ¬ 16 + i < 32 by omega]

/-- An arithmetic shift by 16 leaves a sign-extended halfword. -/
theorem int16_sshiftRight (x : BitVec 32) : int16 (x.sshiftRight 16) = x.sshiftRight 16 := by
  ext i hi
  simp only [int16, BitVec.getElem_sshiftRight, BitVec.getElem_signExtend, BitVec.getElem_setWidth,
    BitVec.msb_eq_getLsbD_last, BitVec.getLsbD_setWidth, BitVec.getLsbD_sshiftRight]
  by_cases h : i < 16
  · have h' : 16 + i < 32 := by omega
    simp [h, h', hi]
  · simp [h, show ¬ 16 + i < 32 by omega]

/-- `lui` and `addi` build the constants. -/
theorem qinv_code : upper 0xfffff + (769 : BitVec 12).signExtend 32 = qinv := by decide

theorem kyberQ_code : upper 0x1 + (-767 : BitVec 12).signExtend 32 = kyberQ := by decide

theorem barrettV_code : upper 0x5 + (-321 : BitVec 12).signExtend 32 = barrettV.signExtend 32 := by
  decide

/-- What the listing of `montgomery_reduce` leaves in `a0`, for any immediates. -/
theorem run_montgomery (s : RegFile) (h h' : BitVec 20) (l l' : BitVec 12) :
    run [.lui .a5 h, .addi .a5 .a5 l, .mul .a5 .a0 .a5, .lui .a4 h', .addi .a4 .a4 l',
      .slli .a5 .a5 0x10, .srai .a5 .a5 0x10, .mul .a5 .a5 .a4, .sub .a0 .a0 .a5,
      .srai .a0 .a0 0x10] s .a0 =
      (s .a0 - ((s .a0 * (upper h + l.signExtend 32)) <<< 16).sshiftRight 16 *
        (upper h' + l'.signExtend 32)).sshiftRight 16 := by
  simp [step, Instr.rd, Instr.value]

/-- **The machine code of `montgomery_reduce`** returns the C result sign-extended, for every
argument register. -/
theorem montgomery_reduce_code (s : RegFile) :
    run montgomeryReduceCode s .a0 = (montgomeryReduce (s .a0)).signExtend 32 := by
  rw [montgomeryReduceCode, run_montgomery, qinv_code, kyberQ_code, sshiftRight_shiftLeft,
    ← int16_sshiftRight]
  simp only [int16, montgomeryReduce]

/-- What the listing of `barrett_reduce` leaves in `a0`, for any immediates. -/
theorem run_barrett (s : RegFile) (h h' : BitVec 20) (l l' : BitVec 12) :
    run [.lui .a5 h, .addi .a5 .a5 l, .mul .a5 .a0 .a5, .lui .a4 h', .addi .a4 .a4 l',
      .srai .a5 .a5 0x1a, .mul .a5 .a5 .a4, .sub .a0 .a0 .a5, .slli .a0 .a0 0x10,
      .srai .a0 .a0 0x10] s .a0 =
      ((s .a0 - (s .a0 * (upper h + l.signExtend 32)).sshiftRight 26 *
        (upper h' + l'.signExtend 32)) <<< 16).sshiftRight 16 := by
  simp [step, Instr.rd, Instr.value]

/-- **The machine code of `barrett_reduce`** returns the C result sign-extended, for every
argument in its calling convention. -/
theorem barrett_reduce_code (s : RegFile) (a : BitVec 16) (ha : s .a0 = a.signExtend 32) :
    run barrettReduceCode s .a0 = (barrettReduce a).signExtend 32 := by
  rw [barrettReduceCode, run_barrett, barrettV_code, kyberQ_code, sshiftRight_shiftLeft, ha, int16,
    barrettReduce_eq, setWidth_sub _ _ (by norm_num), setWidth_signExtend_self a (by norm_num),
    BitVec.setWidth_mul _ _ (by norm_num), BitVec.mul_comm (a.signExtend 32)]

/-- Both listings write the argument registers `a0`, `a4` and `a5` only. -/
theorem reductions_frame (s : RegFile) {r : Reg} (h0 : r ≠ .a0) (h4 : r ≠ .a4) (h5 : r ≠ .a5) :
    run montgomeryReduceCode s r = s r ∧ run barrettReduceCode s r = s r := by
  refine ⟨run_of_not_writes ?_ s, run_of_not_writes ?_ s⟩
  · simp [montgomeryReduceCode, Instr.rd, h0, h4, h5]
  · simp [barrettReduceCode, Instr.rd, h0, h4, h5]

end Code

/-! ## Agreement with the hardware -/

theorem montgomeryReduce_eq (a b : BitVec 16) :
    montgomeryReduce (a.signExtend 32 * b.signExtend 32) = Verilog.fqResult a b := by
  have hu : ((a.signExtend 32 * b.signExtend 32) * qinv).setWidth 16 = montU a b := by
    rw [montU_eq, fqProduct, BitVec.setWidth_mul _ _ (by norm_num)]
    rfl
  simp only [montgomeryReduce, hu, fqResult, montShifted, montDifference, montUq, extractLsb'_zero,
    fqProduct]
  rfl

theorem barrettReduce_eq_barrettResult (a : BitVec 16) : barrettReduce a = barrettResult a := by
  rw [barrettReduce_eq, barrettResult, barrettMultiple, extractLsb'_zero, barrettMultipleWide,
    BitVec.setWidth_mul _ _ (by norm_num), setWidth_signExtend_self _ (by norm_num),
    setWidth_signExtend_self _ (by norm_num), barrettQuotient, extractLsb'_zero]
  rfl

theorem packCoefficients_eq (first second : BitVec 16) :
    packCoefficients first second = second ++ first := by
  ext i hi
  rw [packCoefficients, BitVec.getElem_or, BitVec.getElem_append]
  by_cases h : i < 16
  · simp [h]
  · have h' : i - 16 < 16 := by omega
    simp [h, BitVec.getLsbD_of_ge first i (by omega), BitVec.getLsbD_eq_getElem h']

theorem int16_eq (x : BitVec 32) : int16 x = (x.extractLsb' 0 16).signExtend 32 := by
  rw [int16, extractLsb'_zero]

/-- A 16-bit sum of promoted operands. -/
theorem setWidth_add_signExtend (a b : BitVec 16) :
    (a.signExtend 32 + b.signExtend 32).setWidth 16 = a + b := by
  rw [BitVec.setWidth_add _ _ (by norm_num), setWidth_signExtend_self _ (by norm_num),
    setWidth_signExtend_self _ (by norm_num)]

theorem setWidth_sub_signExtend (a b : BitVec 16) :
    (a.signExtend 32 - b.signExtend 32).setWidth 16 = a - b := by
  rw [setWidth_sub _ _ (by norm_num), setWidth_signExtend_self _ (by norm_num),
    setWidth_signExtend_self _ (by norm_num)]

/-- **Hardware and software agree** on all four operations, for all 32-bit operands, all register
fields and all ROM indices, sums and differences that wrap included. -/
theorem result_eq_base (rs1 rs2 : BitVec 32) (k : BitVec 7) (r : Regs) :
    resultO (kyberInst .fqmul r) rs1 rs2 (zetaLut k) = fqmulBase rs1 rs2 ∧
    resultO (kyberInst .reduce r) rs1 rs2 (zetaLut k) = reduceBase rs1 ∧
    resultO (kyberInst .ntt r) rs1 rs2 (zetaLut k) = nttBase (zetaLut k) rs1 rs2 ∧
    resultO (kyberInst .intt r) rs1 rs2 (zetaLut k) = inttBase (zetaLut k) rs1 rs2 := by
  simp only [resultO_eq, decode_kyberInst, operandA, operandB]
  refine ⟨?_, ?_, ?_, ?_⟩
  · rw [fqmulBase, int16_eq, int16_eq, montgomeryReduce_eq]
  · rw [reduceBase, int16_eq, setWidth_signExtend_self _ (by norm_num),
      barrettReduce_eq_barrettResult]
  · simp only [nttBase, int16_eq, montgomeryReduce_eq, setWidth_add_signExtend,
      setWidth_sub_signExtend, packCoefficients_eq, fqResult_comm (zetaLut k)]
  · simp only [inttBase, int16_eq, montgomeryReduce_eq, setWidth_add_signExtend,
      setWidth_sub_signExtend, packCoefficients_eq, barrettReduce_eq_barrettResult,
      fqResult_comm (zetaLut k)]

end KyberNeorv32.SelfTest
