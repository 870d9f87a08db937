import KyberNeorv32.InsnMachine
import KyberNeorv32.Lib.Words

/-!
# `pq_alu.vhd`: the VHDL PQ-ALU

Every signal is a definition of the source's name. `numeric_std` sizes an expression by its
operands: sums and differences of two 16-bit signals have 16 bits, products have as many bits as
both factors together. Each process of the architecture has a default, so every signal is defined
in every cycle.

The datapath takes its two arithmetic units as parameters `fqMulInst` and `barrettInst`; whatever
they are, `pqAlu` implements the instruction machine (`pqAlu_refines`). The units of `fqmul.vhd` and
`barret_reduce.vhd` are at the end. The latter does not elaborate as written; it is read as its
line-32 comment and the port map of `pq_alu.vhd` fix it: `barret_`/`barrett_` and `a`/`barret_input`
are one name each, `>> 26` is an arithmetic shift, and the 48-bit product is cut to 32 bits.

| here | there |
| --- | --- |
| `isKyberInst` … `validO` | `pq_alu.vhd:136-146` |
| `twiddleNext` | `twiddle_register` (`:151-160`) |
| `fqA`, `fqB` | `fqmul_input_mux` (`:166-185`) |
| `intermediateSum`, `barrettInput` | `fq_mul_output_mux`, `barrett_mux` (`:196-216`) |
| `rdHigh`, `rdLow` | `rd_high_mux`, `rd_low_mux` (`:224-252`) |
-/

namespace KyberNeorv32

/-- The signals between the operands and `fq_result` (`pq_alu.v:189-195`, `fqmul.vhd:20-25`). -/
structure MontSignals where
  fqProduct : BitVec 32
  qinvProduct : BitVec 32
  montU : BitVec 16
  montUq : BitVec 32
  montDifference : BitVec 32
  montShifted : BitVec 32
  fqResult : BitVec 16
deriving DecidableEq, Repr

end KyberNeorv32

namespace KyberNeorv32.Vhdl

open Clocked

def opcodeCustom0 : BitVec 7 := 0b0001011
def funct3Kyber : BitVec 3 := 0b000
def funct7Fqmul : BitVec 7 := 0b0000000
def funct7Reduce : BitVec 7 := 0b0000001
def funct7SetTwiddle : BitVec 7 := 0b0000010
def funct7Ntt : BitVec 7 := 0b0000011
def funct7Intt : BitVec 7 := 0b0000100

def toSigned (n : ℤ) (w : ℕ) : BitVec w := BitVec.ofInt w n

/-- The arguments of `to_signed` in the initial value of `zeta_lut` (`pq_alu.vhd:54-119`). -/
def zetaLutT : Vector ℤ 128 := #v[
  2285, 2571, 2970, 1812, 1493, 1422, 287, 202, 3158, 622, 1577, 182, 962, 2127, 1855, 1468,
  573, 2004, 264, 383, 2500, 1458, 1727, 3199, 2648, 1017, 732, 608, 1787, 411, 3124, 1758,
  1223, 652, 2777, 1015, 2036, 1491, 3047, 1785, 516, 3321, 3009, 2663, 1711, 2167, 126, 1469,
  2476, 3239, 3058, 830, 107, 1908, 3082, 2378, 2931, 961, 1821, 2604, 448, 2264, 677, 2054,
  2226, 430, 555, 843, 2078, 871, 1550, 105, 422, 587, 177, 3094, 3038, 2869, 1574, 1653,
  3083, 778, 1159, 3182, 2552, 1483, 2727, 1119, 1739, 644, 2457, 349, 418, 329, 3173, 3254,
  817, 1097, 603, 610, 1322, 2044, 1864, 384, 2114, 3193, 1218, 1994, 2455, 220, 2142, 1670,
  2144, 1799, 2051, 794, 1819, 2475, 2459, 478, 3221, 3021, 996, 991, 958, 1869, 1522, 1628]

def zetaLut (k : BitVec 7) : BitVec 16 := toSigned (zetaLutT.get k.toFin) 16

/-! ## Decode -/

section Decode
variable (instI : BitVec 32)

def funct7 : BitVec 7 := instI.extractLsb' 25 7

def isKyberInst : Bool :=
  if instI.extractLsb' 0 7 = opcodeCustom0 ∧ instI.extractLsb' 12 3 = funct3Kyber then true
  else false

def opFqmul : Bool := if funct7 instI = funct7Fqmul then isKyberInst instI else false
def opReduce : Bool := if funct7 instI = funct7Reduce then isKyberInst instI else false
def opSetTwiddle : Bool := if funct7 instI = funct7SetTwiddle then isKyberInst instI else false
def opNtt : Bool := if funct7 instI = funct7Ntt then isKyberInst instI else false
def opIntt : Bool := if funct7 instI = funct7Intt then isKyberInst instI else false

def opSupported : Bool :=
  opFqmul instI || opReduce instI || opSetTwiddle instI || opNtt instI || opIntt instI

def validO (startI : Bool) : Bool := startI && opSupported instI

end Decode

/-! ## Datapath -/

section Datapath
variable (fqMulInst : BitVec 16 → BitVec 16 → BitVec 16) (barrettInst : BitVec 16 → BitVec 16)
variable (instI rs1I rs2I : BitVec 32) (twiddleQ : BitVec 16)

def operandA : BitVec 16 := rs1I.extractLsb' 0 16
def operandB : BitVec 16 := rs2I.extractLsb' 0 16

def inttDiff : BitVec 16 := operandB rs2I - operandA rs1I

def fqA : BitVec 16 :=
  if opFqmul instI then operandA rs1I
  else if opIntt instI then twiddleQ
  else if opNtt instI then twiddleQ
  else 0

def fqB : BitVec 16 :=
  if opFqmul instI then operandB rs2I
  else if opIntt instI then inttDiff rs1I rs2I
  else if opNtt instI then operandB rs2I
  else 0

def fqResult : BitVec 16 := fqMulInst (fqA instI rs1I twiddleQ) (fqB instI rs1I rs2I)

def nttDiff : BitVec 16 := operandA rs1I - fqResult fqMulInst instI rs1I rs2I twiddleQ

def intermediateSum : BitVec 16 :=
  if opNtt instI then operandA rs1I + fqResult fqMulInst instI rs1I rs2I twiddleQ
  else if opIntt instI then operandA rs1I + operandB rs2I
  else 0

def barrettInput : BitVec 16 :=
  if opReduce instI then operandA rs1I
  else if opIntt instI then intermediateSum fqMulInst instI rs1I rs2I twiddleQ
  else 0

def barrettResult : BitVec 16 := barrettInst (barrettInput fqMulInst instI rs1I rs2I twiddleQ)

def rdHigh : BitVec 16 :=
  if opFqmul instI then
    BitVec.fill 16 ((fqResult fqMulInst instI rs1I rs2I twiddleQ).getLsbD 15)
  else if opReduce instI then
    BitVec.fill 16 ((barrettResult fqMulInst barrettInst instI rs1I rs2I twiddleQ).getLsbD 15)
  else if opNtt instI then nttDiff fqMulInst instI rs1I rs2I twiddleQ
  else if opIntt instI then fqResult fqMulInst instI rs1I rs2I twiddleQ
  else 0

def rdLow : BitVec 16 :=
  if opFqmul instI then fqResult fqMulInst instI rs1I rs2I twiddleQ
  else if opReduce instI || opIntt instI then
    barrettResult fqMulInst barrettInst instI rs1I rs2I twiddleQ
  else if opNtt instI then intermediateSum fqMulInst instI rs1I rs2I twiddleQ
  else 0

def resultO : BitVec 32 :=
  rdHigh fqMulInst barrettInst instI rs1I rs2I twiddleQ ++
    rdLow fqMulInst barrettInst instI rs1I rs2I twiddleQ

end Datapath

/-! ## The clocked entity -/

def twiddleNext (twiddleQ : BitVec 16) (i : Inputs) : BitVec 16 :=
  if i.rstnI = false then 0
  else if i.startI && opSetTwiddle i.instI then zetaLut (i.rs1I.extractLsb' 0 7)
  else twiddleQ

section
variable (fqMulInst : BitVec 16 → BitVec 16 → BitVec 16) (barrettInst : BitVec 16 → BitVec 16)

def pqAlu : Machine Inputs (BitVec 16) (BitVec 32 × Bool) where
  next := twiddleNext
  out twiddleQ i := (resultO fqMulInst barrettInst i.instI i.rs1I i.rs2I twiddleQ,
    validO i.instI i.startI)

/-- `neorv32_cpu_alu_cfu` is one instance of `pq_alu`, port for port
(`neorv32_cpu_alu_cfu.vhd:37-50`). -/
def neorv32CpuAluCfu : Machine Inputs (BitVec 16) (BitVec 32 × Bool) := pqAlu fqMulInst barrettInst

end

/-! ## It implements the instruction machine -/

section
variable (instI : BitVec 32)

theorem isKyberInst_eq : isKyberInst instI = true ↔
    instI.extractLsb' 0 7 = KyberNeorv32.opcodeCustom0 ∧ instI.extractLsb' 12 3 = 0 := by
  unfold isKyberInst
  split
  · rename_i h
    exact iff_of_true rfl h
  · rename_i h
    exact iff_of_false Bool.false_ne_true h

theorem op_eq (op : Op) : (if funct7 instI = op.funct7 then isKyberInst instI else false) =
    decide (decode instI = some op) := by
  rw [Bool.eq_iff_iff, decide_eq_true_iff, decode_eq_some_iff, ← funct7]
  by_cases h : funct7 instI = op.funct7
  · simp [h, isKyberInst_eq]
  · simp [h]

@[simp] theorem opFqmul_eq : opFqmul instI = decide (decode instI = some .fqmul) :=
  op_eq instI .fqmul
@[simp] theorem opReduce_eq : opReduce instI = decide (decode instI = some .reduce) :=
  op_eq instI .reduce
@[simp] theorem opSetTwiddle_eq : opSetTwiddle instI = decide (decode instI = some .setTwiddle) :=
  op_eq instI .setTwiddle
@[simp] theorem opNtt_eq : opNtt instI = decide (decode instI = some .ntt) := op_eq instI .ntt
@[simp] theorem opIntt_eq : opIntt instI = decide (decode instI = some .intt) := op_eq instI .intt

theorem opSupported_eq : opSupported instI = (decode instI).isSome := by
  simp only [opSupported, opFqmul_eq, opReduce_eq, opSetTwiddle_eq, opNtt_eq, opIntt_eq,
    decode_isSome_eq]

end

section
variable (fqMulInst : BitVec 16 → BitVec 16 → BitVec 16) (barrettInst : BitVec 16 → BitVec 16)

/-- What `result_o` is for each operation. -/
def funs : Funs where
  fqmul a b := BitVec.fill 16 ((fqMulInst a b).getLsbD 15) ++ fqMulInst a b
  reduce a := BitVec.fill 16 ((barrettInst a).getLsbD 15) ++ barrettInst a
  ntt a b twiddle := (a - fqMulInst twiddle b) ++ (a + fqMulInst twiddle b)
  intt a b twiddle := fqMulInst twiddle (b - a) ++ barrettInst (a + b)

/-- The multiplexers leave nothing but the selected operation's own result. -/
theorem resultO_eq_result (instI rs1I rs2I : BitVec 32) (twiddleQ : BitVec 16) :
    resultO fqMulInst barrettInst instI rs1I rs2I twiddleQ =
      (funs fqMulInst barrettInst).result (decode instI) (rs1I.extractLsb' 0 16)
        (rs2I.extractLsb' 0 16) twiddleQ := by
  unfold resultO rdHigh rdLow barrettResult barrettInput intermediateSum nttDiff fqResult fqB fqA
    inttDiff operandA operandB
  simp only [opFqmul_eq, opReduce_eq, opNtt_eq, opIntt_eq]
  rcases decode instI with _ | op
  · simp [Funs.result]
  · cases op <;> simp [Funs.result, funs]

/-- **`pq_alu.vhd` is the instruction machine**, whatever its two arithmetic units compute. -/
theorem pqAlu_refines : Refines (pqAlu fqMulInst barrettInst)
    (insnMachine zetaLut (funs fqMulInst barrettInst)) id Inputs.request where
  next s i := by
    simp only [id, pqAlu, insnMachine, latch, twiddleNext, Request.loads, Inputs.request,
      opSetTwiddle_eq]
    cases i.rstnI <;> rfl
  out s i := by
    simp only [pqAlu, insnMachine, resultO_eq_result, validO, opSupported_eq]
    rfl

end

/-! ## The arithmetic units -/

/-- The signals of `fq_mul` (`fqmul.vhd:16-34`). -/
def montSignals (a b : BitVec 16) : MontSignals :=
  let kyberQ : BitVec 16 := toSigned 3329 16
  let kyberQinv : BitVec 16 := 62209
  let fqProduct : BitVec 32 := a.signExtend 32 * b.signExtend 32
  let qinvProduct : BitVec 32 := (fqProduct.extractLsb' 0 16).setWidth 32 * kyberQinv.setWidth 32
  let montU : BitVec 16 := qinvProduct.extractLsb' 0 16
  let montUq : BitVec 32 := montU.signExtend 32 * kyberQ.signExtend 32
  let montDifference : BitVec 32 := fqProduct - montUq
  let montShifted : BitVec 32 := montDifference.sshiftRight 16
  ⟨fqProduct, qinvProduct, montU, montUq, montDifference, montShifted, montShifted.extractLsb' 0 16⟩

/-- `fq_mul`. -/
def fqMul (a b : BitVec 16) : BitVec 16 := (montSignals a b).fqResult

/-- `barret_reduce` (`barret_reduce.vhd:18-39`), as its port map and comment fix it. -/
def barretReduce (barretInput : BitVec 16) : BitVec 16 :=
  let kyberQ : BitVec 16 := toSigned 3329 16
  let barrettV : BitVec 16 := toSigned 20159 16
  let barrettProduct : BitVec 32 := barrettV.signExtend 32 * barretInput.signExtend 32
  let barrettShifted : BitVec 32 := barrettProduct.sshiftRight 26
  -- 32 bits by 16 bits is 48 bits; the signal takes the low 32
  let barrettMultipleWide : BitVec 32 :=
    (barrettShifted.signExtend 48 * kyberQ.signExtend 48).extractLsb' 0 32
  let barrettMultiple : BitVec 16 := barrettMultipleWide.extractLsb' 0 16
  barretInput - barrettMultiple

end KyberNeorv32.Vhdl
