import KyberNeorv32.Versions

/-!
# `pq_alu_tb`: the two testbenches of the PQ-ALU

`pq_alu_tb.v` and its translation `pq_alu_tb.vhd` are one list of checks, each a task that drives
the ports for one clock edge, looks at the outputs (and, after a load, at `twiddle_q` itself) and
counts errors. `simulate` runs any such list on any implementation. `wrong` counts the checks whose
expectation is not what the instruction machine answers, the twiddle carried from check to check.

`tb_verdicts`: the VHDL testbench on the VHDL version reports exactly those; the Verilog testbench
on `pq_alu.v` reports what it would if every ROM entry were 0, because the register is cleared at
every edge out of reset.

| here | there |
| --- | --- |
| `Command` | the tasks `check_invalid_instruction`, `check_operation`, `set_twiddle` |
| `kyberInst` | `kyber_inst` (`pq_alu_tb.v:36-42`) |
| `Command.ports`, `Command.observe` | what a task drives, and when it looks (`:44-157`) |
| `errors`, `errorsVhdl` | the conditions of the `FAIL` branches |
| `checks` | the calls of the `initial` block (`:173-237`) |
-/

namespace KyberNeorv32.PqAluTb

open Clocked

inductive Command
  | checkInvalidInstruction
  | checkOperation (funct7 : BitVec 7) (operandA operandB expected : BitVec 32)
  | setTwiddle (index : BitVec 7) (expectedZeta : BitVec 16)
deriving DecidableEq, Repr

def kyberInst (funct7 : BitVec 7) : BitVec 32 := rType opcodeCustom0 0 funct7 tbRegs

/-- The ports from the falling edge at which the task sets them. -/
def Command.ports : Command → Inputs
  | .checkInvalidInstruction => ⟨true, true, 0, 0, 0⟩
  | .checkOperation funct7 operandA operandB _ => ⟨true, true, kyberInst funct7, operandA, operandB⟩
  | .setTwiddle index _ => ⟨true, true, kyberInst Op.setTwiddle.funct7, index.setWidth 32, 0⟩

/-- What a task looks at. -/
structure Seen where
  twiddleQ : BitVec 16
  resultO : BitVec 32
  validO : Bool
deriving DecidableEq, Repr

def seen (m : Machine Inputs (BitVec 16) (BitVec 32 × Bool)) (q : BitVec 16) (i : Inputs) : Seen :=
  ⟨q, (m.out q i).1, (m.out q i).2⟩

/-- `set_twiddle` looks after the rising edge, the others before it. -/
def Command.observe (m : Machine Inputs (BitVec 16) (BitVec 32 × Bool)) (q : BitVec 16)
    (c : Command) : Seen :=
  match c with
  | .setTwiddle _ _ => seen m (m.next q c.ports) c.ports
  | _ => seen m q c.ports

/-- What a task of `pq_alu_tb.v` adds to `errors`. -/
def Command.errors : Command → Seen → ℕ
  | .checkInvalidInstruction, x => if x.validO ≠ false ∨ x.resultO ≠ 0 then 1 else 0
  | .checkOperation _ _ _ expected, x => if x.validO ≠ true ∨ x.resultO ≠ expected then 1 else 0
  | .setTwiddle _ expectedZeta, x =>
    if x.validO ≠ true ∨ x.resultO ≠ 0 ∨ x.twiddleQ ≠ expectedZeta then 1 else 0

/-- `check_outputs` of `pq_alu_tb.vhd`. -/
def checkOutputs (expected : BitVec 32) (expectedValid : Bool) (x : Seen) : ℕ :=
  if x.validO ≠ expectedValid ∨ x.resultO ≠ expected then 1 else 0

/-- What a procedure of `pq_alu_tb.vhd` adds to `errors`. -/
def Command.errorsVhdl : Command → Seen → ℕ
  | .checkInvalidInstruction, x => checkOutputs 0 false x
  | .checkOperation _ _ _ expected, x => checkOutputs expected true x
  | .setTwiddle _ expectedZeta, x =>
    if x.twiddleQ ≠ expectedZeta then 1 else checkOutputs 0 true x

theorem errorsVhdl_eq : Command.errorsVhdl = Command.errors := by
  funext c x
  cases c with
  | checkInvalidInstruction => rfl
  | checkOperation _ _ _ _ => rfl
  | setTwiddle index expectedZeta =>
    simp only [Command.errorsVhdl, Command.errors, checkOutputs]
    by_cases h : x.twiddleQ = expectedZeta
    · simp [h]
    · simp [h]

structure Bench where
  twiddleQ : BitVec 16
  tests : ℕ
  errors : ℕ
deriving DecidableEq, Repr

section Simulation
variable (m : Machine Inputs (BitVec 16) (BitVec 32 × Bool)) (fails : Command → Seen → ℕ)

/-- One task: a rising edge with `start_i`, and one without before the next task sets the ports. -/
def step (b : Bench) (c : Command) : Bench where
  twiddleQ := m.next (m.next b.twiddleQ c.ports) { c.ports with startI := false }
  tests := b.tests + 1
  errors := b.errors + fails c (c.observe m b.twiddleQ)

def simulate (q : BitVec 16) (cs : List Command) : Bench := cs.foldl (step m fails) ⟨q, 0, 0⟩

end Simulation

/-! ## What the checks expect -/

section Spec
variable (rom : BitVec 7 → BitVec 16) (F : Funs)

/-- The expectation is the answer of the instruction machine with twiddle `z`. -/
def Command.right (z : BitVec 16) : Command → Bool
  | .checkInvalidInstruction => true
  | .checkOperation funct7 operandA operandB expected =>
    (decode (kyberInst funct7)).isSome && F.result (decode (kyberInst funct7))
      (operandA.extractLsb' 0 16) (operandB.extractLsb' 0 16) z == expected
  | .setTwiddle index expectedZeta => rom index == expectedZeta

/-- The twiddle for the next check. -/
def Command.carry (z : BitVec 16) : Command → BitVec 16
  | .checkInvalidInstruction => z
  | .checkOperation funct7 operandA _ _ =>
    if decode (kyberInst funct7) = some .setTwiddle then rom (operandA.extractLsb' 0 7) else z
  | .setTwiddle index _ => rom index

def wrong (z : BitVec 16) : List Command → ℕ
  | [] => 0
  | c :: cs => (if c.right rom F z then 0 else 1) + wrong (c.carry rom z) cs

end Spec

/-! ## The verdicts -/

theorem decode_zero : decode 0#32 = none := by decide

theorem extractLsb'_index (k : BitVec 7) : (k.setWidth 32).extractLsb' 0 7 = k := by
  rw [Words.extractLsb'_zero, BitVec.setWidth_setWidth_of_le _ (by norm_num), BitVec.setWidth_eq]

/-- A task on an implementation that answers as the instruction machine does and holds `z`, and
whose register holds the twiddle to be carried after the edge. -/
theorem errors_observe {m : Machine Inputs (BitVec 16) (BitVec 32 × Bool)}
    {rom : BitVec 7 → BitVec 16} {F : Funs} {z : BitVec 16} (c : Command)
    (hout : ∀ q i, m.out q i = (F.result (decode i.instI) (i.rs1I.extractLsb' 0 16)
      (i.rs2I.extractLsb' 0 16) q, i.startI && (decode i.instI).isSome))
    (hnext : m.next z c.ports = c.carry rom z) :
    c.errors (c.observe m z) = if c.right rom F z then 0 else 1 := by
  cases c with
  | checkInvalidInstruction =>
    simp [Command.errors, Command.observe, seen, hout, Command.ports, decode_zero, Funs.result,
      Command.right]
  | checkOperation funct7 a b expected =>
    simp only [Command.errors, Command.observe, seen, hout, Command.ports, Command.right,
      Bool.true_and]
    by_cases hs : (decode (kyberInst funct7)).isSome
    · simp [hs]
    · simp [hs]
  | setTwiddle index expectedZeta =>
    have hdec : decode (kyberInst Op.setTwiddle.funct7) = some .setTwiddle :=
      decode_kyberInst .setTwiddle tbRegs
    simp only [Command.errors, Command.observe, hnext, seen, hout, Command.right, Command.carry]
    simp only [Command.ports, hdec, Funs.result, Option.isSome_some, Bool.and_self, ne_eq,
      not_true_eq_false, false_or]
    by_cases h : rom index = expectedZeta
    · simp [h]
    · simp [h]

/-- A whole list of tasks, from any point on. -/
theorem simulate_errors {m : Machine Inputs (BitVec 16) (BitVec 32 × Bool)}
    {rom : BitVec 7 → BitVec 16} {F : Funs}
    (hout : ∀ q i, m.out q i = (F.result (decode i.instI) (i.rs1I.extractLsb' 0 16)
      (i.rs2I.extractLsb' 0 16) q, i.startI && (decode i.instI).isSome))
    {z : BitVec 16} {P : BitVec 16 → Prop} (hz : P z)
    (hcarry : ∀ z, P z → ∀ c : Command, P (c.carry rom z) ∧
      m.next z c.ports = c.carry rom z ∧
      m.next (c.carry rom z) { c.ports with startI := false } = c.carry rom z)
    (cs : List Command) (n e : ℕ) :
    (cs.foldl (step m Command.errors) ⟨z, n, e⟩).tests = n + cs.length ∧
      (cs.foldl (step m Command.errors) ⟨z, n, e⟩).errors = e + wrong rom F z cs := by
  induction cs generalizing z n e with
  | nil => exact ⟨rfl, rfl⟩
  | cons c cs ih =>
    obtain ⟨hP, hnext, hidle⟩ := hcarry z hz c
    have hstep : step m Command.errors ⟨z, n, e⟩ c =
        ⟨c.carry rom z, n + 1, e + if c.right rom F z then 0 else 1⟩ := by
      simp only [step, hnext, hidle, errors_observe c hout hnext]
    rw [List.foldl_cons, hstep]
    obtain ⟨htests, herrors⟩ := ih hP (n + 1) (e + if c.right rom F z then 0 else 1)
    refine ⟨?_, ?_⟩
    · rw [htests, List.length_cons]
      omega
    · rw [herrors, wrong]
      omega

/-- Both versions answer as the instruction machine does. -/
theorem out_vhdl (q : BitVec 16) (i : Inputs) : (Vhdl.pqAlu Vhdl.fqMul Vhdl.barretReduce).out q i =
    (Verilog.funs.result (decode i.instI) (i.rs1I.extractLsb' 0 16) (i.rs2I.extractLsb' 0 16) q,
      i.startI && (decode i.instI).isSome) := by
  rw [(Vhdl.pqAlu_refines _ _).out, funs_eq]
  rfl

theorem out_verilog (q : BitVec 16) (i : Inputs) : Verilog.pqAlu.out q i =
    (Verilog.funs.result (decode i.instI) (i.rs1I.extractLsb' 0 16) (i.rs2I.extractLsb' 0 16) q,
      i.startI && (decode i.instI).isSome) := Verilog.pqAlu_refines.out q i

theorem carry_vhdl (z : BitVec 16) (c : Command) :
    Vhdl.twiddleNext z c.ports = c.carry Verilog.zetaLut z := by
  cases c with
  | checkInvalidInstruction =>
    simp [Vhdl.twiddleNext, Command.ports, Command.carry, decode_zero]
  | checkOperation funct7 a b expected =>
    simp [Vhdl.twiddleNext, Command.ports, Command.carry, zetaLut_eq]
  | setTwiddle index expectedZeta =>
    have hdec : decode (kyberInst Op.setTwiddle.funct7) = some .setTwiddle :=
      decode_kyberInst .setTwiddle tbRegs
    simp only [Vhdl.twiddleNext, Command.ports, Command.carry, Vhdl.opSetTwiddle_eq, hdec,
      extractLsb'_index, zetaLut_eq]
    simp

theorem carry_zero (c : Command) : c.carry (fun _ => 0) 0 = 0 := by
  cases c <;> simp [Command.carry]

theorem rstn_ports (c : Command) : c.ports.rstnI = true := by
  cases c <;> rfl

/-- The edges before the first task. In Verilog the second rising edge and the assignment that ends
the reset race with each other. -/
def resetEdges (rstnI : Bool) : List Inputs := [idle false, idle rstnI]

/-- **The verdicts of the two testbenches**, for every list of checks after the first and every
initial register: each counts exactly the checks whose expectation is not what the instruction
machine answers in its turn, on `pq_alu.v` with an all-zero ROM. -/
theorem tb_verdicts (q : BitVec 16) (race : Bool) (cs : List Command) :
    let vhdl := Vhdl.pqAlu Vhdl.fqMul Vhdl.barretReduce
    let v := simulate vhdl Command.errorsVhdl (vhdl.run q (resetEdges false))
      (.checkInvalidInstruction :: cs)
    let w := simulate Verilog.pqAlu Command.errors (Verilog.pqAlu.run q (resetEdges race))
      (.checkInvalidInstruction :: cs)
    (v.tests = cs.length + 1 ∧ v.errors = wrong Verilog.zetaLut Verilog.funs 0 cs) ∧
      (w.tests = cs.length + 1 ∧ w.errors = wrong (fun _ => 0) Verilog.funs 0 cs) := by
  intro vhdl v w
  constructor
  · have hcarry : ∀ z, True → ∀ c : Command, True ∧ vhdl.next z c.ports = c.carry Verilog.zetaLut z ∧
        vhdl.next (c.carry Verilog.zetaLut z) { c.ports with startI := false } =
          c.carry Verilog.zetaLut z := by
      intro z _ c
      refine ⟨trivial, carry_vhdl z c, ?_⟩
      change Vhdl.twiddleNext _ _ = _
      simp [Vhdl.twiddleNext, rstn_ports]
    have hreset : vhdl.run q (resetEdges false) = 0 := rfl
    have h := simulate_errors out_vhdl (z := 0) trivial hcarry (.checkInvalidInstruction :: cs) 0 0
    simp only [List.length_cons, wrong, Command.right, if_true, Command.carry, zero_add] at h
    rw [← errorsVhdl_eq, ← hreset] at h
    exact h
  · have hcarry : ∀ z, z = 0 → ∀ c : Command, c.carry (fun _ => 0) z = 0 ∧
        Verilog.pqAlu.next z c.ports = c.carry (fun _ => 0) z ∧
        Verilog.pqAlu.next (c.carry (fun _ => 0) z) { c.ports with startI := false } =
          c.carry (fun _ => 0) z := by
      rintro z rfl c
      rw [carry_zero]
      exact ⟨rfl, if_pos (rstn_ports c), if_pos (rstn_ports c)⟩
    -- the first check does not look at the register, and its edge clears it
    have herrors : Command.checkInvalidInstruction.errors (Command.checkInvalidInstruction.observe
        Verilog.pqAlu (Verilog.pqAlu.run q (resetEdges race))) = 0 := by
      simp [Command.errors, Command.observe, seen, out_verilog, Command.ports, decode_zero,
        Funs.result]
    have hfirst : step Verilog.pqAlu Command.errors ⟨Verilog.pqAlu.run q (resetEdges race), 0, 0⟩
        .checkInvalidInstruction = ⟨0, 1, 0⟩ := by
      simp only [step, herrors, zero_add]
      rfl
    have h := simulate_errors (P := fun z => z = 0) out_verilog rfl hcarry cs 1 0
    rw [← hfirst, zero_add, add_comm 1] at h
    exact h

/-- The checks after the first, the same in both testbenches (`pq_alu_tb.v:177-237`). -/
def checks : List Command := [
  .checkOperation Op.fqmul.funct7 0x00000a0b 0x000000be 0xfffffbdb,
  .checkOperation Op.fqmul.funct7 0x00000a0b 0x00000080 0x0000063e,
  .checkOperation Op.fqmul.funct7 0x00000b9a 0xfffffd04 0xfffffea0,
  .checkOperation Op.fqmul.funct7 0x00000a0b 0x00000081 0xfffffffe,
  .checkOperation Op.fqmul.funct7 0x00000626 0xfffffbf2 0xfffffeca,
  .checkOperation Op.fqmul.funct7 0x000009f8 0x000011b2 0x0000046d,
  .checkOperation Op.fqmul.funct7 0x000000ca 0xfffff7fe 0xfffffd6a,
  .checkOperation Op.fqmul.funct7 0x0000017f 0x00000252 0x000004c1,
  .checkOperation Op.fqmul.funct7 0x00000bcd 0xfffff87c 0xfffff9cc,
  .checkOperation Op.fqmul.funct7 0x000002dc 0x000005f0 0x0000039c,
  .checkOperation Op.reduce.funct7 0x00002528 0x00000000 0x00000b26,
  .checkOperation Op.reduce.funct7 0xfffff436 0x00000000 0x00000137,
  .checkOperation Op.reduce.funct7 0x000030bc 0x00000000 0x000009b9,
  .checkOperation Op.reduce.funct7 0xfffff86a 0x00000000 0x0000056b,
  .checkOperation Op.reduce.funct7 0x00001458 0x00000000 0x00000757,
  .checkOperation Op.reduce.funct7 0x00000600 0x00000000 0x00000600,
  .checkOperation Op.reduce.funct7 0x00001d64 0x00000000 0x00000362,
  .checkOperation Op.reduce.funct7 0x00001798 0x00000000 0x00000a97,
  .checkOperation Op.reduce.funct7 0x0000184e 0x00000000 0x00000b4d,
  .checkOperation Op.reduce.funct7 0xfffffee0 0x00000000 0x00000be1,
  .setTwiddle 1 2571,
  .checkOperation Op.ntt.funct7 0x00000000 0x00000080 0xf9c2063e,
  .checkOperation Op.ntt.funct7 0x00000001 0x00000081 0x0003ffff,
  .checkOperation Op.ntt.funct7 0x00000002 0x00000082 0x0644f9c0,
  .checkOperation Op.ntt.funct7 0x00000003 0x00000083 0xff840082,
  .checkOperation Op.ntt.funct7 0x00000004 0x00000084 0x05c5fa43,
  .checkOperation Op.ntt.funct7 0x00000005 0x00000085 0xff050105,
  .checkOperation Op.ntt.funct7 0x00000006 0x00000086 0x0546fac6,
  .checkOperation Op.ntt.funct7 0x00000007 0x00000087 0xfe860188,
  .checkOperation Op.ntt.funct7 0x00000008 0x00000088 0x04c7fb49,
  .setTwiddle 2 2970,
  .checkOperation Op.ntt.funct7 0x0000063e 0xfffffc9c 0x026d0a0f,
  .setTwiddle 127 1628,
  .checkOperation Op.intt.funct7 0x0000167e 0x00000eaa 0x04490b26,
  .checkOperation Op.intt.funct7 0xfffffe1c 0xfffff61a 0xfa5a0137,
  .setTwiddle 126 1522,
  .checkOperation Op.intt.funct7 0x0000144a 0x00001c72 0x011d09b9,
  .checkOperation Op.intt.funct7 0xfffff84b 0x0000001f 0xfccf056b,
  .setTwiddle 125 1869,
  .checkOperation Op.intt.funct7 0x000009b3 0x00000aa5 0x04a90757,
  .checkOperation Op.intt.funct7 0x00000895 0xfffffd6b 0x03520600,
  .setTwiddle 124 958,
  .checkOperation Op.intt.funct7 0x00000a93 0x000012d1 0x04cb0362,
  .checkOperation Op.intt.funct7 0x00000f06 0x00000892 0xfeff0a97,
  .setTwiddle 123 991,
  .checkOperation Op.intt.funct7 0x000007b3 0x0000109b 0xfcc70b4d,
  .checkOperation Op.intt.funct7 0x00001024 0x00000de8 0x0285040a]

/-- The VHDL testbench passes; the Verilog testbench reports 27 errors on `pq_alu.v`. -/
example : wrong Verilog.zetaLut Verilog.funs 0 checks = 0 ∧
    wrong (fun _ => 0) Verilog.funs 0 checks = 27 := by decide +kernel

end KyberNeorv32.PqAluTb
