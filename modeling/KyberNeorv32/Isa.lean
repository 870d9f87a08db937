import KyberNeorv32.Lib.Clocked

/-!
# The Kyber instruction set extension and the ports of the PQ-ALU

What the two hardware versions and the firmware share: the ports of `pq_alu` sampled in one
cycle, the R-type CUSTOM-0 encoding that `neorv32_custom_ise.h` emits, and the operations it
names. `decode` is the encoding read backwards, from the table at the head of `pq_alu.v`; each
hardware version has its own decoder, proved equal to it.

| here | there |
| --- | --- |
| `Inputs` | the input ports of `pq_alu` (`pq_alu.v:25-31`, `pq_alu.vhd:20-25`) in one clock cycle |
| `rType` | `RISCV_INSTR_R_TYPE`, the RISC-V R format |
| `pqFqmul` … `pqIntt` | `pq_fqmul` … `pq_intt` (`neorv32_custom_ise.h:7-21`) |
-/

namespace KyberNeorv32

structure Inputs where
  rstnI : Bool
  startI : Bool
  instI : BitVec 32
  rs1I : BitVec 32
  rs2I : BitVec 32
deriving DecidableEq, Repr

/-- The five operations (`pq_alu.v:8-12`). -/
inductive Op
  | fqmul
  | reduce
  | setTwiddle
  | ntt
  | intt
deriving DecidableEq, Repr

def Op.funct7 : Op → BitVec 7
  | .fqmul => 0
  | .reduce => 1
  | .setTwiddle => 2
  | .ntt => 3
  | .intt => 4

/-- The register fields, which the compiler chooses. -/
structure Regs where
  rd : BitVec 5
  rs1 : BitVec 5
  rs2 : BitVec 5
deriving DecidableEq, Repr

/-- R format: `funct7 | rs2 | rs1 | funct3 | rd | opcode`. -/
def rType (opcode : BitVec 7) (funct3 : BitVec 3) (funct7 : BitVec 7) (r : Regs) : BitVec 32 :=
  funct7 ++ r.rs2 ++ r.rs1 ++ funct3 ++ r.rd ++ opcode

/-- `RISCV_OPCODE_CUSTOM0`. -/
def opcodeCustom0 : BitVec 7 := 0b0001011

def kyberInst (op : Op) (r : Regs) : BitVec 32 := rType opcodeCustom0 0 op.funct7 r

/-! ## The intrinsics (`neorv32_custom_ise.h`)

Each issues its instruction in one cycle out of reset, with the operand values on the ports. -/

def issue (op : Op) (r : Regs) (a b : BitVec 32) : Inputs := ⟨true, true, kyberInst op r, a, b⟩

def pqFqmul (r : Regs) (a b : BitVec 32) : Inputs := issue .fqmul r a b
def pqReduce (r : Regs) (a : BitVec 32) : Inputs := issue .reduce r a 0
def pqSetTwiddle (r : Regs) (index : BitVec 32) : Inputs := issue .setTwiddle r index 0
def pqNtt (r : Regs) (a b : BitVec 32) : Inputs := issue .ntt r a b
def pqIntt (r : Regs) (a b : BitVec 32) : Inputs := issue .intt r a b

/-- A cycle without an instruction. -/
def idle (rstnI : Bool) : Inputs := ⟨rstnI, false, 0, 0, 0⟩

/-- The register fields of `kyber_inst` in `pq_alu_tb.v`: `x3`, `x1`, `x2`. -/
def tbRegs : Regs := ⟨3, 1, 2⟩

/-! ## Decoding -/

/-- The operation an instruction word names, `none` if it is no Kyber instruction. -/
def decode (inst : BitVec 32) : Option Op :=
  if inst.extractLsb' 0 7 = opcodeCustom0 ∧ inst.extractLsb' 12 3 = 0 then
    match (inst.extractLsb' 25 7).toNat with
    | 0 => some .fqmul
    | 1 => some .reduce
    | 2 => some .setTwiddle
    | 3 => some .ntt
    | 4 => some .intt
    | _ => none
  else none

section
variable (opcode funct7 : BitVec 7) (funct3 : BitVec 3) (r : Regs)

@[simp] theorem rType_opcode : (rType opcode funct3 funct7 r).extractLsb' 0 7 = opcode := by
  exact BitVec.extractLsb'_append_eq_right

@[simp] theorem rType_funct3 : (rType opcode funct3 funct7 r).extractLsb' 12 3 = funct3 := by
  ext i hi
  simp [rType]
  grind

@[simp] theorem rType_funct7 : (rType opcode funct3 funct7 r).extractLsb' 25 7 = funct7 := by
  ext i hi
  simp [rType]
  grind

end

theorem decode_kyberInst (op : Op) (r : Regs) : decode (kyberInst op r) = some op := by
  unfold decode kyberInst
  cases op <;> simp [Op.funct7]

/-- The words that name an operation: opcode, `funct3`, and `funct7` in `0..4`. -/
theorem decode_isSome_iff (inst : BitVec 32) :
    (decode inst).isSome = true ↔ inst.extractLsb' 0 7 = 0b0001011 ∧ inst.extractLsb' 12 3 = 0 ∧
      (inst.extractLsb' 25 7).toNat ≤ 4 := by
  unfold decode opcodeCustom0
  split
  · rename_i h
    simp only [h, true_and]
    split
    all_goals simp_all
    omega
  · rename_i h
    simp only [Option.isSome_none, Bool.false_eq_true, false_iff]
    exact fun h' => h ⟨h'.1, h'.2.1⟩

/-- Supported means one of the five. -/
theorem decode_isSome_eq (inst : BitVec 32) : (decode inst).isSome =
    (decide (decode inst = some .fqmul) || decide (decode inst = some .reduce) ||
      decide (decode inst = some .setTwiddle) || decide (decode inst = some .ntt) ||
      decide (decode inst = some .intt)) := by
  rcases decode inst with _ | op
  · rfl
  · cases op <;> rfl

theorem decode_eq_some_iff (inst : BitVec 32) (op : Op) :
    decode inst = some op ↔ inst.extractLsb' 0 7 = opcodeCustom0 ∧ inst.extractLsb' 12 3 = 0 ∧
      inst.extractLsb' 25 7 = op.funct7 := by
  unfold decode
  split
  · rename_i h
    simp only [h, true_and]
    generalize inst.extractLsb' 25 7 = f
    split <;> cases op <;> simp_all [Op.funct7, BitVec.toNat_eq]
  · rename_i h
    simp only [reduceCtorEq, false_iff]
    exact fun h' => h ⟨h'.1, h'.2.1⟩

end KyberNeorv32
