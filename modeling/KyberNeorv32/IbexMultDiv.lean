import Mathlib

/-!
# Ibex: the multiplier and divider `ibex_multdiv_fast`

The unit, the adder of `ibex_alu.v` that it borrows for division, and the two intermediate-value
registers that `ibex_id_stage.v` keeps for it. `edge` is one clock edge of all of them, `Operands`
what the ID stage drives for as long as the instruction is in it. The register widths are the
source's.

The multiplier has two versions, chosen by `RV32M`; everything else is generic in it (`Multiplier`).

| here | there |
| --- | --- |
| `genMultFast`, `genMultSingleCycle` | the `generate` blocks of the same names |
| `aluOperandA` … `adder` | `alu_operand_a_o`, `alu_operand_b_o`; `ibex_alu.v:74-98` |
| `nextRemainder`, `nextQuotient`, `isGreaterEqual` | the wires of the same names |
| `divComb` | the `always` block over `md_state_q` |
| `edge` | the two `always @(posedge clk_i)` blocks; `ibex_id_stage.v:404-416` |
| `Instr.operator`, `Instr.signedMode` | `ibex_decoder.v:338-377` |
| `done` | `instr_done` and `ready_wb_i` (`ibex_id_stage.v:659-706`, `:734`) |
-/

namespace KyberNeorv32.Ibex

/-- `operator_i`. -/
inductive MdOp
  | mull
  | mulh
  | div
  | rem
deriving DecidableEq, Repr

/-- The states of the fast multiplier, for the halves of the operands it multiplies. -/
inductive MultState
  | albl
  | albh
  | ahbl
  | ahbh
deriving DecidableEq, Repr

/-- `md_state_q`, in the order of its codes; the code 7 is not used. -/
inductive MdState
  | idle
  | absA
  | absB
  | comp
  | last
  | changeSign
  | finish
  | other
deriving DecidableEq, Repr

structure Operands where
  operator : MdOp
  signedMode : BitVec 2
  opA : BitVec 32
  opB : BitVec 32
  dataIndTiming : Bool
deriving DecidableEq, Repr

/-- `mult_sel_i` (`ibex_decoder.v:828-840`); `div_sel_i` is set for the other operators. -/
def Operands.multSel (o : Operands) : Bool := o.operator = .mull || o.operator = .mulh

def Operands.divSel (o : Operands) : Bool := !o.multSel

/-! ## Multiplication -/

/-- What a multiplier computes in one cycle. -/
structure MultComb (σ : Type) where
  macResD : BitVec 34
  multStateD : σ
  multValid : Bool
  multHold : Bool

/-- A version of the multiplier: from the operands, `mult_en_i`, `multdiv_ready_id_i`, its state and
the first intermediate value. -/
structure Multiplier (σ : Type) where
  reset : σ
  comb : Operands → Bool → Bool → σ → BitVec 34 → MultComb σ

section Mult
variable (o : Operands)

/-- `$signed({sign, op})`. -/
def signed17 (sign : Bool) (op : BitVec 16) : BitVec 17 := BitVec.ofBool sign ++ op

def aLow : BitVec 16 := o.opA.extractLsb' 0 16
def aHigh : BitVec 16 := o.opA.extractLsb' 16 16
def bLow : BitVec 16 := o.opB.extractLsb' 0 16
def bHigh : BitVec 16 := o.opB.extractLsb' 16 16
def signA : Bool := o.signedMode.getLsbD 0 && o.opA.getLsbD 31
def signB : Bool := o.signedMode.getLsbD 1 && o.opB.getLsbD 31

/-- `accum` of the last multiplication: `imd_val_q_i[67-:18]`, extended if any operand is signed. -/
def accumHigh (imd : BitVec 34) : BitVec 34 :=
  BitVec.fill 16 (decide (o.signedMode ≠ 0) && imd.getLsbD 33) ++ imd.extractLsb' 16 18

/-- `mac_res` of the fast multiplier, the low 34 bits of a 35-bit sum. -/
def macRes (x y : BitVec 17) (accum : BitVec 34) : BitVec 34 :=
  (x.signExtend 35 * y.signExtend 35 + accum.signExtend 35).extractLsb' 0 34

def genMultFast (_en ready : Bool) (q : MultState) (imd : BitVec 34) : MultComb MultState :=
  match q with
  | .albl =>
    let res := macRes (signed17 false (aLow o)) (signed17 false (bLow o)) 0
    ⟨res, .albh, false, false⟩
  | .albh =>
    let accum : BitVec 34 := (imd.extractLsb' 16 16).setWidth 34
    let res := macRes (signed17 false (aLow o)) (signed17 (signB o) (bHigh o)) accum
    ⟨if o.operator = .mull then 0#2 ++ res.extractLsb' 0 16 ++ imd.extractLsb' 0 16 else res, .ahbl,
      false, false⟩
  | .ahbl =>
    if o.operator = .mull then
      let accum : BitVec 34 := (imd.extractLsb' 16 16).setWidth 34
      let res := macRes (signed17 (signA o) (aHigh o)) (signed17 false (bLow o)) accum
      ⟨0#2 ++ res.extractLsb' 0 16 ++ imd.extractLsb' 0 16, .albl, true, !ready⟩
    else
      ⟨macRes (signed17 (signA o) (aHigh o)) (signed17 false (bLow o)) imd, .ahbh, false, false⟩
  | .ahbh =>
    ⟨macRes (signed17 (signA o) (aHigh o)) (signed17 (signB o) (bHigh o)) (accumHigh o imd), .albl,
      true, !ready⟩

def multFast : Multiplier MultState := ⟨.albl, genMultFast⟩

/-- `mult1_res` … `mult3_res`. -/
def multRes (x y : BitVec 17) : BitVec 34 := x.signExtend 34 * y.signExtend 34

/-- `mac_res` of the single-cycle multiplier. -/
def sumRes (summand1 summand2 summand3 : BitVec 34) : BitVec 34 :=
  (summand1.signExtend 35 + summand2.signExtend 35 + summand3.signExtend 35).extractLsb' 0 34

def genMultSingleCycle (en ready : Bool) (q : Bool) (imd : BitVec 34) : MultComb Bool :=
  let mult1 := multRes (signed17 false (aLow o)) (signed17 false (bLow o))
  let mult2 := multRes (signed17 false (aLow o)) (signed17 (signB o) (bHigh o))
  match q with
  | false =>
    let mult3 := multRes (signed17 (signA o) (aHigh o)) (signed17 false (bLow o))
    let res := sumRes ((mult1.extractLsb' 16 16).setWidth 34) mult2 mult3
    if o.operator ≠ .mull then ⟨res, true, false, false⟩
    else ⟨0#2 ++ res.extractLsb' 0 16 ++ mult1.extractLsb' 0 16, false, en, !ready⟩
  | true =>
    let mult3 := multRes (signed17 (signA o) (aHigh o)) (signed17 (signB o) (bHigh o))
    ⟨sumRes 0 (accumHigh o imd) mult3, false, true, !ready⟩

def multSingleCycle : Multiplier Bool := ⟨false, genMultSingleCycle⟩

end Mult

/-! ## The registers -/

structure State (σ : Type) where
  divCounterQ : BitVec 5
  opNumeratorQ : BitVec 32
  opQuotientQ : BitVec 32
  mdStateQ : MdState
  divByZeroQ : Bool
  multStateQ : σ
  /-- `imd_val_q[67:34]`. -/
  imdVal0 : BitVec 34
  /-- `imd_val_q[33:0]`. -/
  imdVal1 : BitVec 34

variable {σ : Type}

/-- After `rst_ni`. -/
def State.reset (m : Multiplier σ) : State σ := ⟨0, 0, 0, .idle, false, m.reset, 0, 0⟩

/-- `imd_val_q_i[65-:32]`. -/
def State.remainder (s : State σ) : BitVec 32 := s.imdVal0.extractLsb' 0 32

def State.opDenominatorQ (s : State σ) : BitVec 32 := s.imdVal1.extractLsb' 0 32

/-! ## Division -/

section Div
variable (s : State σ) (o : Operands)

def aluOperandA : BitVec 33 :=
  match s.mdStateQ with
  | .comp | .last => s.remainder ++ 1#1
  | _ => 1

def aluOperandB : BitVec 33 :=
  match s.mdStateQ with
  | .absA => ~~~o.opA ++ 1#1
  | .comp | .last => ~~~s.opDenominatorQ ++ 1#1
  | .changeSign => ~~~s.remainder ++ 1#1
  | _ => ~~~o.opB ++ 1#1

/-- `alu_adder_i`, which is also `res_adder_h`. -/
def adder : BitVec 32 :=
  ((aluOperandA s).setWidth 34 + (aluOperandB s o).setWidth 34).extractLsb' 1 32

def equalToZero : Bool := adder s o = 0

def isGreaterEqual : Bool :=
  if (s.remainder.getLsbD 31 ^^ s.opDenominatorQ.getLsbD 31) = false then
    (adder s o).getLsbD 31 = false
  else s.remainder.getLsbD 31

def nextRemainder : BitVec 32 := if isGreaterEqual s o then adder s o else s.remainder

def oneShift : BitVec 32 := 1#32 <<< s.divCounterQ.toNat

def nextQuotient : BitVec 33 :=
  if isGreaterEqual s o then s.opQuotientQ.setWidth 33 ||| (oneShift s).setWidth 33
  else s.opQuotientQ.setWidth 33

def divSignA : Bool := o.opA.getLsbD 31 && o.signedMode.getLsbD 0
def divSignB : Bool := o.opB.getLsbD 31 && o.signedMode.getLsbD 1
def divChangeSign : Bool := (divSignA o ^^ divSignB o) && !s.divByZeroQ
def remChangeSign : Bool := divSignA o

structure DivComb where
  divCounterD : BitVec 5
  opRemainderD : BitVec 34
  opQuotientD : BitVec 32
  mdStateD : MdState
  opNumeratorD : BitVec 32
  opDenominatorD : BitVec 32
  divByZeroD : Bool
  divValid : Bool
  divHold : Bool

/-- The assignments before the `case`. -/
def divDefault : DivComb where
  divCounterD := s.divCounterQ - 1
  opRemainderD := s.imdVal0
  opQuotientD := s.opQuotientQ
  mdStateD := s.mdStateQ
  opNumeratorD := s.opNumeratorQ
  opDenominatorD := s.opDenominatorQ
  divByZeroD := s.divByZeroQ
  divValid := false
  divHold := false

def divComb (ready : Bool) : DivComb :=
  let d := divDefault s
  match s.mdStateQ with
  | .idle =>
    let mdStateD := if !o.dataIndTiming && equalToZero s o then .finish else .absA
    if o.operator = .div then
      { d with
        opRemainderD := -1
        mdStateD := mdStateD
        divByZeroD := equalToZero s o
        divCounterD := 31 }
    else
      { d with
        opRemainderD := 0#2 ++ o.opA
        mdStateD := mdStateD
        divCounterD := 31 }
  | .absA =>
    { d with
      opQuotientD := 0
      opNumeratorD := if divSignA o then adder s o else o.opA
      mdStateD := .absB
      divCounterD := 31 }
  | .absB =>
    { d with
      opRemainderD := 0#33 ++ BitVec.ofBool (s.opNumeratorQ.getLsbD 31)
      opDenominatorD := if divSignB o then adder s o else o.opB
      mdStateD := .comp
      divCounterD := 31 }
  | .comp =>
    { d with
      opRemainderD :=
        0#1 ++ nextRemainder s o ++ BitVec.ofBool (s.opNumeratorQ.getLsbD d.divCounterD.toNat)
      opQuotientD := (nextQuotient s o).extractLsb' 0 32
      mdStateD := if s.divCounterQ = 1 then .last else .comp }
  | .last =>
    { d with
      opRemainderD :=
        if o.operator = .div then 0#1 ++ nextQuotient s o else 0#2 ++ nextRemainder s o
      mdStateD := .changeSign }
  | .changeSign =>
    { d with
      opRemainderD :=
        if o.operator = .div then if divChangeSign s o then 0#2 ++ adder s o else s.imdVal0
        else if remChangeSign o then 0#2 ++ adder s o else s.imdVal0
      mdStateD := .finish }
  | .finish => { d with mdStateD := .idle, divHold := !ready, divValid := true }
  | .other => { d with mdStateD := .idle }

end Div

/-! ## The whole unit -/

/-- What the rest of the core adds in one cycle: the instruction in ID executes (`instr_executing`),
and the next stage takes its result (`multdiv_ready_id_i`, which is `ready_wb_i`). -/
structure Cycle where
  executing : Bool
  ready : Bool
deriving DecidableEq, Repr

section Unit
variable (m : Multiplier σ) (o : Operands) (s : State σ) (c : Cycle)

def multEn : Bool := c.executing && o.multSel
def divEn : Bool := c.executing && o.divSel

def multComb : MultComb σ := m.comb o (multEn o c) c.ready s.multStateQ s.imdVal0

def multEnInternal : Bool := multEn o c && !(multComb m o s c).multHold
def divEnInternal : Bool := divEn o c && !(divComb s o c.ready).divHold

def validO : Bool := (multComb m o s c).multValid || (divComb s o c.ready).divValid

def multdivResultO : BitVec 32 :=
  if o.divSel then s.remainder else (multComb m o s c).macResD.extractLsb' 0 32

def edge : State σ :=
  let d := divComb s o c.ready
  let e := divEnInternal o s c
  let en := multEnInternal m o s c
  { divCounterQ := if e then d.divCounterD else s.divCounterQ
    opNumeratorQ := if e then d.opNumeratorD else s.opNumeratorQ
    opQuotientQ := if e then d.opQuotientD else s.opQuotientQ
    mdStateQ := if e then d.mdStateD else s.mdStateQ
    divByZeroQ := if e then d.divByZeroD else s.divByZeroQ
    multStateQ := if en then (multComb m o s c).multStateD else s.multStateQ
    imdVal0 :=
      if en || e then if o.divSel then d.opRemainderD else (multComb m o s c).macResD else s.imdVal0
    imdVal1 := if e then 0#2 ++ d.opDenominatorD else s.imdVal1 }

/-- The instruction leaves ID with this edge. -/
def done : Bool := c.executing && validO m o s c && c.ready

end Unit

/-- Run an instruction to its last cycle: the result, the registers after it, and the cycles
left. -/
def complete (m : Multiplier σ) (o : Operands) : State σ → List Cycle →
    Option (BitVec 32 × State σ × List Cycle)
  | _, [] => none
  | s, c :: cs =>
    if done m o s c then some (multdivResultO m o s c, edge m o s c, cs)
    else complete m o (edge m o s c) cs

/-! ## The instructions -/

inductive Instr
  | mul
  | mulh
  | mulhsu
  | mulhu
  | div
  | divu
  | rem
  | remu
deriving DecidableEq, Repr

def Instr.operator : Instr → MdOp
  | .mul => .mull
  | .mulh | .mulhsu | .mulhu => .mulh
  | .div | .divu => .div
  | .rem | .remu => .rem

def Instr.signedMode : Instr → BitVec 2
  | .mul => 0b00
  | .mulh => 0b11
  | .mulhsu => 0b01
  | .mulhu => 0b00
  | .div => 0b11
  | .divu => 0b00
  | .rem => 0b11
  | .remu => 0b00

def Instr.operands (i : Instr) (a b : BitVec 32) (dataIndTiming : Bool) : Operands :=
  ⟨i.operator, i.signedMode, a, b, dataIndTiming⟩

/-- What the RISC-V M extension says that the instruction computes. -/
def Instr.value (i : Instr) (a b : BitVec 32) : BitVec 32 :=
  match i with
  | .mul => a * b
  | .mulh => BitVec.ofInt 32 (a.toInt * b.toInt / 2 ^ 32)
  | .mulhsu => BitVec.ofInt 32 (a.toInt * b.toNat / 2 ^ 32)
  | .mulhu => BitVec.ofInt 32 (a.toNat * b.toNat / 2 ^ 32)
  | .div => if b = 0 then -1 else BitVec.ofInt 32 (a.toInt.tdiv b.toInt)
  | .divu => if b = 0 then -1 else a / b
  | .rem => if b = 0 then a else BitVec.ofInt 32 (a.toInt.tmod b.toInt)
  | .remu => if b = 0 then a else a % b

end KyberNeorv32.Ibex
