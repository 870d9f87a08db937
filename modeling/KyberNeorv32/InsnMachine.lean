import KyberNeorv32.Isa

/-!
# What the PQ-ALU is for: an instruction machine with one register

The purpose of the component, independent of how either hardware version computes: in every cycle
it answers the instruction on its ports, and its only memory is the twiddle last loaded by
`set_twiddle_k` since the last reset. `Request` is all that a cycle may depend on: the reset, the
start pulse, the decoded operation, the low halves of the operands and the seven index bits.

`insnMachine` is parametric in the twiddle ROM and in the arithmetic (`Funs`). `insnMachine_run`
says what its register holds after any trace, and `outs_of_padded` that idle cycles, other
instructions and arithmetic can be inserted anywhere in a program.
-/

namespace KyberNeorv32

open Clocked

/-- What the ports ask for in one cycle, decoded. -/
structure Request where
  reset : Bool
  start : Bool
  op : Option Op
  a : BitVec 16
  b : BitVec 16
  index : BitVec 7
deriving DecidableEq, Repr

/-- With `rstn_i` the active-low reset that its name says. -/
def Inputs.request (i : Inputs) : Request where
  reset := !i.rstnI
  start := i.startI
  op := decode i.instI
  a := i.rs1I.extractLsb' 0 16
  b := i.rs2I.extractLsb' 0 16
  index := i.rs1I.extractLsb' 0 7

/-- A cycle that loads the twiddle register. -/
def Request.loads (r : Request) : Bool := r.start && decide (r.op = some .setTwiddle)

/-- The arithmetic: what `result_o` is for each operation, from the operands' low halves and, for
the butterflies, the twiddle. -/
@[ext]
structure Funs where
  fqmul : BitVec 16 → BitVec 16 → BitVec 32
  reduce : BitVec 16 → BitVec 32
  ntt : BitVec 16 → BitVec 16 → BitVec 16 → BitVec 32
  intt : BitVec 16 → BitVec 16 → BitVec 16 → BitVec 32

def Funs.result (F : Funs) (op : Option Op) (a b twiddle : BitVec 16) : BitVec 32 :=
  match op with
  | none | some .setTwiddle => 0
  | some .fqmul => F.fqmul a b
  | some .reduce => F.reduce a
  | some .ntt => F.ntt a b twiddle
  | some .intt => F.intt a b twiddle

section
variable (rom : BitVec 7 → BitVec 16) (F : Funs)

def insnMachine : Machine Request (BitVec 16) (BitVec 32 × Bool) where
  next := latch Request.reset Request.loads 0 fun r => rom r.index
  out twiddle r := (F.result r.op r.a r.b twiddle, r.start && r.op.isSome)

/-- The ROM entry that the newest load since the last reset asked for, 0 if there is none. -/
def lastTwiddle (tr : List Request) : BitVec 16 :=
  (lastLoad Request.reset Request.loads (fun r => rom r.index) tr).getD 0

/-- **The register after any trace.** -/
theorem insnMachine_run (s : BitVec 16) {tr : List Request} (h : ∃ r ∈ tr, r.reset = true) :
    (insnMachine rom F).run s tr = lastTwiddle rom tr :=
  foldl_latch_of_reset s h

theorem lastTwiddle_of_load (tr post : List Request) {r : Request} (hr : r.reset = false)
    (hl : r.loads = true) (hpost : ∀ p ∈ post, p.reset = false ∧ p.loads = false) :
    lastTwiddle rom (tr ++ r :: post) = rom r.index := by
  rw [lastTwiddle, lastLoad_append_load tr post ⟨hr, hl⟩ hpost, Option.getD_some]

theorem lastTwiddle_of_reset (tr post : List Request) {r : Request} (hr : r.reset = true)
    (hpost : ∀ p ∈ post, p.reset = false ∧ p.loads = false) :
    lastTwiddle rom (tr ++ r :: post) = 0 := by
  rw [lastTwiddle, lastLoad_append_reset tr post hr hpost, Option.getD_none]

/-- A cycle that keeps the register: out of reset, and no load. -/
def Quiet (i : Inputs) : Prop := i.rstnI = true ∧ i.request.loads = false

theorem quiet_of_idle {i : Inputs} (hr : i.rstnI = true) (hs : i.startI = false) : Quiet i := by
  simp [Quiet, Request.loads, Inputs.request, hr, hs]

/-- Everything but `set_twiddle_k` is quiet: the four arithmetic instructions and every word that
is no Kyber instruction. -/
theorem quiet_of_op {i : Inputs} (hr : i.rstnI = true) (hop : decode i.instI ≠ some .setTwiddle) :
    Quiet i := by
  simp [Quiet, Request.loads, Inputs.request, hr, hop]

theorem insnMachine_next_quiet {i : Inputs} (h : Quiet i) (s : BitVec 16) :
    (insnMachine rom F).next s i.request = s := by
  obtain ⟨hr, hl⟩ := h
  have hreset : i.request.reset = false := by simp [Inputs.request, hr]
  simp [insnMachine, latch, hreset, hl]

end

/-- **Quiet cycles change no result** of any machine that implements the instruction machine. -/
theorem outs_of_padded {rom : BitVec 7 → BitVec 16} {F : Funs}
    {m : Machine Inputs (BitVec 16) (BitVec 32 × Bool)}
    (hm : Refines m (insnMachine rom F) id Inputs.request) {prog : List Inputs}
    {tr : List (Inputs × Bool)} (h : Padded Quiet prog tr) (s : BitVec 16) :
    m.outsAt s tr = m.outs s prog := by
  refine outsAt_padded (fun i hi t => ?_) h s
  have hnext := hm.next t i
  rw [id, id, insnMachine_next_quiet rom F hi] at hnext
  exact hnext

end KyberNeorv32
