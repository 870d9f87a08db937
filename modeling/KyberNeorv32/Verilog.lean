import KyberNeorv32.Isa
import KyberNeorv32.Lib.Words

/-!
# `pq_alu.v`: the Verilog PQ-ALU

Every wire is a definition of the source's name on `BitVec` of the source's width. Verilog sizes
an expression by its context: a signed operand of a 32-bit assignment is sign-extended first, an
unsigned one (a part select, `KYBER_QINV`) zero-extended, and `>>>` on a signed wire is
arithmetic. The two arithmetic blocks are functions of their input wires (`fq_a`, `fq_b` and
`barrett_input`); the rest are functions of the ports and of the register `twiddle_q`.

Main result: `resultO_eq` says what `result_o` is for each operation, in terms of the two blocks.
-/

namespace KyberNeorv32.Verilog

def kyberQ : BitVec 16 := 3329
def kyberQinv : BitVec 16 := 62209
def barrettV : BitVec 16 := 20159

def funct3Kyber : BitVec 3 := 0b000
def funct7Fqmul : BitVec 7 := 0
def funct7Reduce : BitVec 7 := 1
def funct7SetTwiddle : BitVec 7 := 2
def funct7Ntt : BitVec 7 := 3
def funct7Intt : BitVec 7 := 4

/-- The twiddle ROM as its `initial` block fills it (`pq_alu.v:87-152`); nothing else writes it. -/
def zetaRom : Vector (BitVec 16) 128 := #v[
  2285, 2571, 2970, 1812, 1493, 1422, 287, 202, 3158, 622, 1577, 182, 962, 2127, 1855, 1468,
  573, 2004, 264, 383, 2500, 1458, 1727, 3199, 2648, 1017, 732, 608, 1787, 411, 3124, 1758,
  1223, 652, 2777, 1015, 2036, 1491, 3047, 1785, 516, 3321, 3009, 2663, 1711, 2167, 126, 1469,
  2476, 3239, 3058, 830, 107, 1908, 3082, 2378, 2931, 961, 1821, 2604, 448, 2264, 677, 2054,
  2226, 430, 555, 843, 2078, 871, 1550, 105, 422, 587, 177, 3094, 3038, 2869, 1574, 1653,
  3083, 778, 1159, 3182, 2552, 1483, 2727, 1119, 1739, 644, 2457, 349, 418, 329, 3173, 3254,
  817, 1097, 603, 610, 1322, 2044, 1864, 384, 2114, 3193, 1218, 1994, 2455, 220, 2142, 1670,
  2144, 1799, 2051, 794, 1819, 2475, 2459, 478, 3221, 3021, 996, 991, 958, 1869, 1522, 1628]

/-- `zeta_lut[k]` for a 7-bit address. -/
def zetaLut (k : BitVec 7) : BitVec 16 := zetaRom.get k.toFin

/-! ## Decode (`pq_alu.v:59-76`) -/

section Decode
variable (instI : BitVec 32)

def funct7 : BitVec 7 := instI.extractLsb' 25 7

def isKyberInst : Bool :=
  instI.extractLsb' 0 7 == opcodeCustom0 && instI.extractLsb' 12 3 == funct3Kyber

def opFqmul : Bool := isKyberInst instI && funct7 instI == funct7Fqmul
def opReduce : Bool := isKyberInst instI && funct7 instI == funct7Reduce
def opSetTwiddle : Bool := isKyberInst instI && funct7 instI == funct7SetTwiddle
def opNtt : Bool := isKyberInst instI && funct7 instI == funct7Ntt
def opIntt : Bool := isKyberInst instI && funct7 instI == funct7Intt

def opSupported : Bool :=
  opFqmul instI || opReduce instI || opSetTwiddle instI || opNtt instI || opIntt instI

def validO (startI : Bool) : Bool := startI && opSupported instI

end Decode

/-! ## Montgomery block (`pq_alu.v:189-203`) -/

section Fqmul
variable (fqA fqB : BitVec 16)

def fqProduct : BitVec 32 := fqA.signExtend 32 * fqB.signExtend 32

def qinvProduct : BitVec 32 :=
  ((fqProduct fqA fqB).extractLsb' 0 16).setWidth 32 * kyberQinv.setWidth 32

def montU : BitVec 16 := (qinvProduct fqA fqB).extractLsb' 0 16
def montUq : BitVec 32 := (montU fqA fqB).signExtend 32 * kyberQ.signExtend 32
def montDifference : BitVec 32 := fqProduct fqA fqB - montUq fqA fqB
def montShifted : BitVec 32 := (montDifference fqA fqB).sshiftRight 16
def fqResult : BitVec 16 := (montShifted fqA fqB).extractLsb' 0 16

end Fqmul

/-! ## Barrett block (`pq_alu.v:233-245`) -/

section Barrett
variable (barrettInput : BitVec 16)

def barrettProduct : BitVec 32 := barrettV.signExtend 32 * barrettInput.signExtend 32
def barrettShifted : BitVec 32 := (barrettProduct barrettInput).sshiftRight 26
def barrettQuotient : BitVec 16 := (barrettShifted barrettInput).extractLsb' 0 16

def barrettMultipleWide : BitVec 32 :=
  (barrettQuotient barrettInput).signExtend 32 * kyberQ.signExtend 32

def barrettMultiple : BitVec 16 := (barrettMultipleWide barrettInput).extractLsb' 0 16
def barrettResult : BitVec 16 := barrettInput - barrettMultiple barrettInput

end Barrett

/-! ## Datapath (`pq_alu.v:154-271`) -/

section Datapath
variable (instI rs1I rs2I : BitVec 32) (twiddleQ : BitVec 16)

def operandA : BitVec 16 := rs1I.extractLsb' 0 16
def operandB : BitVec 16 := rs2I.extractLsb' 0 16

def diffBa : BitVec 16 := operandB rs2I - operandA rs1I

def fqA : BitVec 16 :=
  if opIntt instI then diffBa rs1I rs2I
  else if opNtt instI then operandB rs2I else operandA rs1I

def fqB : BitVec 16 := if opNtt instI || opIntt instI then twiddleQ else operandB rs2I

/-- The output wire of the Montgomery block in place. -/
def fqOut : BitVec 16 := fqResult (fqA instI rs1I rs2I) (fqB instI rs2I twiddleQ)

def addOperand : BitVec 16 :=
  if opIntt instI then operandB rs2I else fqOut instI rs1I rs2I twiddleQ

def addResult : BitVec 16 := operandA rs1I + addOperand instI rs1I rs2I twiddleQ
def diffAf : BitVec 16 := operandA rs1I - fqOut instI rs1I rs2I twiddleQ

def barrettInput : BitVec 16 :=
  if opIntt instI then addResult instI rs1I rs2I twiddleQ else operandA rs1I

/-- The output wire of the Barrett block in place. -/
def barrettOut : BitVec 16 := barrettResult (barrettInput instI rs1I rs2I twiddleQ)

def butterflyFirst : BitVec 16 :=
  if opIntt instI then barrettOut instI rs1I rs2I twiddleQ else addResult instI rs1I rs2I twiddleQ

def butterflySecond : BitVec 16 :=
  if opIntt instI then fqOut instI rs1I rs2I twiddleQ else diffAf instI rs1I rs2I twiddleQ

def butterflyResult : BitVec 32 :=
  butterflySecond instI rs1I rs2I twiddleQ ++ butterflyFirst instI rs1I rs2I twiddleQ

/-- `{{16{fq_result[15]}}, fq_result}`. -/
def fqmulScalarResult : BitVec 32 :=
  BitVec.fill 16 ((fqOut instI rs1I rs2I twiddleQ).getLsbD 15) ++ fqOut instI rs1I rs2I twiddleQ

def reduceScalarResult : BitVec 32 :=
  BitVec.fill 16 ((barrettOut instI rs1I rs2I twiddleQ).getLsbD 15) ++
    barrettOut instI rs1I rs2I twiddleQ

def resultO : BitVec 32 :=
  if opFqmul instI then fqmulScalarResult instI rs1I rs2I twiddleQ
  else if opReduce instI then reduceScalarResult instI rs1I rs2I twiddleQ
  else if opNtt instI || opIntt instI then butterflyResult instI rs1I rs2I twiddleQ
  else 0

end Datapath

/-! ## The clocked module -/

/-- The `always @(posedge clk_i)` block (`pq_alu.v:158-164`): the reset branch is taken when
`rstn_i` is *high*. -/
def twiddleNext (twiddleQ : BitVec 16) (i : Inputs) : BitVec 16 :=
  if i.rstnI then 0
  else if i.startI && opSetTwiddle i.instI then zetaLut (i.rs1I.extractLsb' 0 7)
  else twiddleQ

/-- The module: `twiddle_q` is its only state, `(result_o, valid_o)` its outputs. -/
def pqAlu : Clocked.Machine Inputs (BitVec 16) (BitVec 32 × Bool) where
  next := twiddleNext
  out twiddleQ i := (resultO i.instI i.rs1I i.rs2I twiddleQ, validO i.instI i.startI)

/-! ## What the decoder selects -/

section
variable (instI : BitVec 32)

theorem isKyberInst_eq : isKyberInst instI = true ↔
    instI.extractLsb' 0 7 = opcodeCustom0 ∧ instI.extractLsb' 12 3 = 0 := by
  simp [isKyberInst, funct3Kyber]

theorem op_eq (op : Op) : (isKyberInst instI && funct7 instI == op.funct7) =
    decide (decode instI = some op) := by
  rw [Bool.eq_iff_iff, Bool.and_eq_true, isKyberInst_eq, decide_eq_true_iff, decode_eq_some_iff,
    beq_iff_eq, and_assoc, funct7]

@[simp] theorem opFqmul_eq : opFqmul instI = decide (decode instI = some .fqmul) :=
  op_eq instI .fqmul
@[simp] theorem opReduce_eq : opReduce instI = decide (decode instI = some .reduce) :=
  op_eq instI .reduce
@[simp] theorem opSetTwiddle_eq : opSetTwiddle instI = decide (decode instI = some .setTwiddle) :=
  op_eq instI .setTwiddle
@[simp] theorem opNtt_eq : opNtt instI = decide (decode instI = some .ntt) := op_eq instI .ntt
@[simp] theorem opIntt_eq : opIntt instI = decide (decode instI = some .intt) := op_eq instI .intt

theorem opSupported_eq : opSupported instI = (decode instI).isSome := by
  simp only [opSupported, opFqmul_eq, opReduce_eq, opSetTwiddle_eq, opNtt_eq, opIntt_eq,
    decode_isSome_eq]

end

/-- The two sign-extended results: `{{16{x[15]}}, x}`. -/
theorem fill_getLsbD (x : BitVec 16) : BitVec.fill 16 (x.getLsbD 15) ++ x = x.signExtend 32 :=
  Words.fill_append x 16

/-- **The datapath, operation by operation.** -/
theorem resultO_eq (instI rs1I rs2I : BitVec 32) (twiddleQ : BitVec 16) :
    resultO instI rs1I rs2I twiddleQ =
      let a := operandA rs1I
      let b := operandB rs2I
      match decode instI with
      | none | some .setTwiddle => 0
      | some .fqmul => (fqResult a b).signExtend 32
      | some .reduce => (barrettResult a).signExtend 32
      | some .ntt => (a - fqResult b twiddleQ) ++ (a + fqResult b twiddleQ)
      | some .intt => fqResult (b - a) twiddleQ ++ barrettResult (a + b) := by
  unfold resultO fqmulScalarResult reduceScalarResult butterflyResult butterflySecond
    butterflyFirst barrettOut barrettInput addResult diffAf addOperand fqOut fqA fqB diffBa
  simp only [opFqmul_eq, opReduce_eq, opNtt_eq, opIntt_eq, fill_getLsbD]
  rcases decode instI with _ | op
  · rfl
  · cases op <;> rfl

end KyberNeorv32.Verilog
