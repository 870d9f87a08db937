import KyberNeorv32.InsnMachine
import KyberNeorv32.Butterfly

/-!
# The twiddle register of `pq_alu.v` over whole runs

`pq_alu.v` takes its reset branch when `rstn_i` is *high* (`pq_alu.v:159`); the port's name, its
testbench and `pq_alu.vhd:154` make it active-low. The module is therefore the instruction machine
with the reset inverted (`pqAlu_refines`): out of reset it clears the register at every edge
(`run_of_rstn_high`), and during reset it loads.

`twiddle_ok_iff` says exactly which runs end with the right twiddle all the same.
-/

namespace KyberNeorv32.Verilog

open Clocked

def funs : Funs where
  fqmul a b := (fqResult a b).signExtend 32
  reduce a := (barrettResult a).signExtend 32
  ntt a b twiddle := (a - fqResult b twiddle) ++ (a + fqResult b twiddle)
  intt a b twiddle := fqResult (b - a) twiddle ++ barrettResult (a + b)

theorem resultO_eq_result (instI rs1I rs2I : BitVec 32) (twiddleQ : BitVec 16) :
    resultO instI rs1I rs2I twiddleQ =
      funs.result (decode instI) (operandA rs1I) (operandB rs2I) twiddleQ := by
  rw [resultO_eq]
  rcases decode instI with _ | op
  · rfl
  · cases op <;> rfl

/-- The request as `pq_alu.v` takes it. -/
def invertedRequest (i : Inputs) : Request := { i.request with reset := i.rstnI }

/-- **`pq_alu.v` is the instruction machine with its reset inverted.** -/
theorem pqAlu_refines : Refines pqAlu (insnMachine zetaLut funs) id invertedRequest where
  next s i := by
    simp only [id, pqAlu, insnMachine, latch, twiddleNext, invertedRequest, Request.loads,
      Inputs.request, opSetTwiddle_eq]
    rfl
  out s i := by
    simp only [pqAlu, insnMachine, resultO_eq_result, validO, opSupported_eq]
    rfl

/-- What an active-low reset makes of a run: the register holds the twiddle last
loaded, and both butterflies multiply by it. -/
def TwiddleOk (q : BitVec 16) (tr : List Inputs) : Prop :=
  pqAlu.run q tr = lastTwiddle zetaLut (tr.map Inputs.request) ∧
    ∀ instI rs2I, decode instI = some .ntt ∨ decode instI = some .intt →
      fqB instI rs2I (pqAlu.run q tr) = lastTwiddle zetaLut (tr.map Inputs.request)

/-- The newest inputs, as long as `rstn_i` has not changed. -/
def finalBlock (tr : List Inputs) : List Inputs :=
  tr.reverse.takeWhile fun i => some i.rstnI == tr.getLast?.map (·.rstnI)

theorem fqB_of_butterfly {instI : BitVec 32} (rs2I : BitVec 32) (twiddleQ : BitVec 16)
    (h : decode instI = some .ntt ∨ decode instI = some .intt) :
    fqB instI rs2I twiddleQ = twiddleQ := by
  rcases h with h | h
  · simp [fqB, h]
  · simp [fqB, h]

/-- The second half of `TwiddleOk` follows from the first. -/
theorem twiddleOk_iff_run (q : BitVec 16) (tr : List Inputs) :
    TwiddleOk q tr ↔ pqAlu.run q tr = lastTwiddle zetaLut (tr.map Inputs.request) := by
  constructor
  · intro h
    exact h.1
  · intro h
    refine ⟨h, ?_⟩
    intro instI rs2I hop
    rw [fqB_of_butterfly rs2I _ hop, h]

/-! ## What the register holds -/

theorem pqAlu_run (q : BitVec 16) (tr : List Inputs) : pqAlu.run q tr =
    (lastLoad (fun i : Inputs => i.rstnI) (fun i => i.request.loads)
      (fun i => zetaLut i.request.index) tr).getD
        (if tr.any fun i => i.rstnI then 0 else q) := by
  have h := pqAlu_refines.run q tr
  change pqAlu.run q tr = _ at h
  rw [h]
  change List.foldl (latch _ _ _ _) q _ = _
  rw [foldl_latch, lastLoad_map, List.any_map]
  rfl

theorem lastTwiddle_inputs (tr : List Inputs) : lastTwiddle zetaLut (tr.map Inputs.request) =
    (lastLoad (fun i : Inputs => !i.rstnI) (fun i => i.request.loads)
      (fun i => zetaLut i.request.index) tr).getD 0 := by
  rw [lastTwiddle, lastLoad_map]
  rfl

/-- Out of reset, the register is cleared at every edge, whatever is loaded. -/
theorem run_of_rstn_high (q : BitVec 16) (tr : List Inputs) {i : Inputs} (hi : i.rstnI = true) :
    pqAlu.run q (tr ++ [i]) = 0 := by
  rw [pqAlu_run, lastLoad_concat]
  simp [hi]

theorem fqResult_zero (b : BitVec 16) : fqResult b 0 = 0 := by
  simp [fqResult, montShifted, montDifference, montUq, montU, qinvProduct, fqProduct]

/-- So every `ntt_k` out of reset returns its first operand twice. -/
theorem ntt_out_of_reset (q : BitVec 16) (tr : List Inputs) {i : Inputs} (hi : i.rstnI = true)
    {instI : BitVec 32} (hop : decode instI = some .ntt) (rs1I rs2I : BitVec 32) :
    resultO instI rs1I rs2I (pqAlu.run q (tr ++ [i])) = operandA rs1I ++ operandA rs1I := by
  rw [run_of_rstn_high q tr hi, resultO_eq, hop]
  simp only [fqResult_zero]
  simp

/-- No ROM entry is 0, so a load is always visible. -/
theorem getD_load_eq_zero {rst ld : Inputs → Bool} (tr : List Inputs) (d : BitVec 16) :
    (lastLoad rst ld (fun i => zetaLut i.request.index) tr).getD d = 0 ↔
      (∀ i ∈ tr.reverse.takeWhile fun i => !rst i, ld i = false) ∧ d = 0 := by
  cases h : lastLoad rst ld (fun i => zetaLut i.request.index) tr with
  | none =>
    have hno := lastLoad_eq_none.1 h
    constructor
    · intro h0
      exact ⟨hno, h0⟩
    · intro h0
      exact h0.2
  | some v =>
    obtain ⟨i, hi, hl, hv⟩ := lastLoad_eq_some h
    constructor
    · intro h0
      have hpos := (zetaLut_bounds i.request.index).1
      rw [hv, show v = 0 from h0] at hpos
      exact absurd hpos (by decide)
    · rintro ⟨hno, _⟩
      rw [hno i hi] at hl
      cases hl

/-! ## Which runs are right -/

theorem finalBlock_concat (tr : List Inputs) (i : Inputs) :
    finalBlock (tr ++ [i]) = (tr ++ [i]).reverse.takeWhile fun j => j.rstnI == i.rstnI := by
  simp [finalBlock]

/-- **Exactly when the register is right.** After a run with a reset edge, `twiddle_q` is the
twiddle last loaded if and only if no cycle since `rstn_i` last changed asks for a load, and some
cycle had `rstn_i` high unless the register was 0 to begin with. -/
theorem twiddle_ok_iff (q : BitVec 16) (tr : List Inputs) (h : ∃ i ∈ tr, i.rstnI = false) :
    TwiddleOk q tr ↔ (∀ i ∈ finalBlock tr, i.request.loads = false) ∧
      (q = 0 ∨ ∃ i ∈ tr, i.rstnI = true) := by
  rw [twiddleOk_iff_run, lastTwiddle_inputs]
  rcases List.eq_nil_or_concat' tr with rfl | ⟨tr, i, rfl⟩
  · simp at h
  · rw [finalBlock_concat]
    cases hi : i.rstnI with
    | true =>
      -- the code clears the register at the last edge; the newest load is in the final block
      have hhigh : ∃ j ∈ tr ++ [i], j.rstnI = true := ⟨i, by simp, hi⟩
      rw [run_of_rstn_high q tr hi, eq_comm, getD_load_eq_zero]
      simp only [Bool.not_not, beq_true, hhigh, or_true, and_true]
    | false =>
      -- the last edge is a reset; the code goes on loading through the final block
      have hreset : lastLoad (fun j : Inputs => !j.rstnI) (fun j => j.request.loads)
          (fun j => zetaLut j.request.index) (tr ++ [i]) = none := by
        rw [lastLoad_concat, hi]
        rfl
      have hinit : (if (tr ++ [i]).any fun j => j.rstnI then 0 else q) = 0 ↔
          q = 0 ∨ ∃ j ∈ tr ++ [i], j.rstnI = true := by
        rw [← List.any_eq_true]
        cases (tr ++ [i]).any fun j => j.rstnI <;> simp
      rw [hreset, pqAlu_run, Option.getD_none, getD_load_eq_zero, hinit]
      simp only [beq_false]

/-- A run that the code gets right although it loads: reset, `set_twiddle_k` out of reset, reset
again. -/
theorem twiddle_ok_reset : TwiddleOk 1812 [idle false, pqSetTwiddle tbRegs 1, idle false] :=
  (twiddle_ok_iff 1812 [idle false, pqSetTwiddle tbRegs 1, idle false] (by decide)).2 (by decide)

/-- The testbench's start, less its scalar instructions: two reset edges, then `set_twiddle_k` with
index 1, which it expects to load 2571 (`pq_alu_tb.v:161-202`). -/
def tbTrace : List Inputs := [idle false, idle false, pqSetTwiddle tbRegs 1]

theorem tb_twiddle_lost : lastTwiddle zetaLut (tbTrace.map Inputs.request) = 2571 ∧
    pqAlu.run 0 tbTrace = 0 ∧ ¬ TwiddleOk 0 tbTrace := by
  have hlast : lastTwiddle zetaLut (tbTrace.map Inputs.request) = 2571 := by decide
  have hrun : pqAlu.run 0 tbTrace = 0 := by decide
  refine ⟨hlast, hrun, ?_⟩
  intro h
  have h' := h.1
  rw [hlast, hrun] at h'
  exact absurd h' (by decide)

end KyberNeorv32.Verilog
