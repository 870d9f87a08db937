import Mathlib

/-!
# Straight-line RV32IM code

The register instructions a compiler emits for integer arithmetic: each writes one register from
registers and immediates, modulo `2^32`, and goes on to the next. A listing without branches is a
fold over the register file; `run_append` cuts it, and `run_of_not_writes` is its frame rule.
-/

namespace Rv32

/-- The integer registers, by their ABI names. -/
inductive Reg
  | zero | ra | sp | gp | tp | t0 | t1 | t2 | s0 | s1
  | a0 | a1 | a2 | a3 | a4 | a5 | a6 | a7
  | s2 | s3 | s4 | s5 | s6 | s7 | s8 | s9 | s10 | s11
  | t3 | t4 | t5 | t6
deriving DecidableEq, Repr

inductive Instr
  | lui (rd : Reg) (imm : BitVec 20)
  | addi (rd rs : Reg) (imm : BitVec 12)
  | slli (rd rs : Reg) (shamt : ℕ)
  | srai (rd rs : Reg) (shamt : ℕ)
  | mul (rd rs1 rs2 : Reg)
  | sub (rd rs1 rs2 : Reg)
deriving DecidableEq, Repr

abbrev RegFile := Reg → BitVec 32

/-- Writes to `zero` are lost. -/
def RegFile.set (s : RegFile) (rd : Reg) (v : BitVec 32) : RegFile :=
  fun r => if r = rd ∧ rd ≠ .zero then v else s r

def Instr.rd : Instr → Reg
  | .lui rd _ | .addi rd _ _ | .slli rd _ _ | .srai rd _ _ | .mul rd _ _ | .sub rd _ _ => rd

/-- The 20-bit immediate of `lui`, in the upper bits. -/
def upper (imm : BitVec 20) : BitVec 32 := imm ++ (0 : BitVec 12)

/-- The value an instruction computes. -/
def Instr.value (s : RegFile) : Instr → BitVec 32
  | .lui _ imm => upper imm
  | .addi _ rs imm => s rs + imm.signExtend 32
  | .slli _ rs shamt => s rs <<< shamt
  | .srai _ rs shamt => (s rs).sshiftRight shamt
  | .mul _ rs1 rs2 => s rs1 * s rs2
  | .sub _ rs1 rs2 => s rs1 - s rs2

def step (s : RegFile) (i : Instr) : RegFile := s.set i.rd (i.value s)

def run (code : List Instr) (s : RegFile) : RegFile := code.foldl step s

@[simp] theorem run_nil (s : RegFile) : run [] s = s := rfl

@[simp] theorem run_cons (i : Instr) (code : List Instr) (s : RegFile) :
    run (i :: code) s = run code (step s i) := rfl

theorem run_append (as bs : List Instr) (s : RegFile) : run (as ++ bs) s = run bs (run as s) :=
  List.foldl_append ..

@[simp] theorem set_self (s : RegFile) {rd : Reg} (h : rd ≠ .zero) (v : BitVec 32) :
    s.set rd v rd = v := if_pos ⟨rfl, h⟩

@[simp] theorem set_of_ne (s : RegFile) {rd r : Reg} (h : r ≠ rd) (v : BitVec 32) : s.set rd v r = s r :=
  if_neg fun e => h e.1

/-- A register that no instruction writes keeps its value. -/
theorem run_of_not_writes {code : List Instr} {r : Reg} (h : ∀ i ∈ code, r ≠ i.rd) (s : RegFile) :
    run code s r = s r := by
  induction code generalizing s with
  | nil => rfl
  | cons i code ih =>
    have hi : r ≠ i.rd := h i (by simp)
    rw [run_cons, ih fun j hj => h j (by simp [hj])]
    exact set_of_ne s hi _

end Rv32
