import KyberNeorv32.Twiddle
import KyberNeorv32.Vhdl

/-!
# The two hardware versions

Both versions implement one instruction machine: `pq_alu.vhd` as it is, `pq_alu.v` with its reset
inverted. So what the VHDL version does over a run follows from the machine
(`vhdl_instruction_machine`); and since the ROMs and the arithmetic of the two are equal
(`zetaLut_eq`, `funs_eq`), so are their combinational outputs (`vhdl_eq_verilog`) and, up to the
polarity of the reset, their whole runs (`outs_eq`).
-/

namespace KyberNeorv32

open Clocked Words

/-- **The VHDL version is a sequential instruction machine** whose only state is the last loaded
twiddle, for any arithmetic units. There are functions of the operands' low halves and, for the
butterflies, of the twiddle, such that after every run with a reset edge each cycle's `valid_o` and
`result_o` are as stated, and quiet cycles inserted into any program change no result. -/
theorem vhdl_instruction_machine (fqMulInst : BitVec 16 → BitVec 16 → BitVec 16)
    (barrettInst : BitVec 16 → BitVec 16) :
    ∃ F : Funs, ∀ (q : BitVec 16) (tr : List Inputs), (∃ i ∈ tr, i.rstnI = false) →
      let alu := Vhdl.pqAlu fqMulInst barrettInst
      let twiddle := lastTwiddle Vhdl.zetaLut (tr.map Inputs.request)
      alu.run q tr = twiddle ∧
      (∀ c : Inputs,
        ((alu.out (alu.run q tr) c).2 = true ↔ c.startI = true ∧
          c.instI.extractLsb' 0 7 = 0b0001011 ∧ c.instI.extractLsb' 12 3 = 0 ∧
          (c.instI.extractLsb' 25 7).toNat ≤ 4) ∧
        (alu.out (alu.run q tr) c).1 = match decode c.instI with
          | none | some .setTwiddle => 0
          | some .fqmul => F.fqmul (c.rs1I.extractLsb' 0 16) (c.rs2I.extractLsb' 0 16)
          | some .reduce => F.reduce (c.rs1I.extractLsb' 0 16)
          | some .ntt => F.ntt (c.rs1I.extractLsb' 0 16) (c.rs2I.extractLsb' 0 16) twiddle
          | some .intt => F.intt (c.rs1I.extractLsb' 0 16) (c.rs2I.extractLsb' 0 16) twiddle) ∧
      (∀ (prog : List Inputs) (tr' : List (Inputs × Bool)), Padded Quiet prog tr' →
        alu.outsAt (alu.run q tr) tr' = alu.outs (alu.run q tr) prog) := by
  have href := Vhdl.pqAlu_refines fqMulInst barrettInst
  refine ⟨Vhdl.funs fqMulInst barrettInst, ?_⟩
  intro q tr h alu twiddle
  have hreset : ∃ r ∈ tr.map Inputs.request, r.reset = true := by
    obtain ⟨i, hi, hr⟩ := h
    exact ⟨i.request, List.mem_map_of_mem hi, by simp [Inputs.request, hr]⟩
  have hrun : alu.run q tr = twiddle := by
    have h1 := href.run q tr
    rw [insnMachine_run _ _ _ hreset] at h1
    exact h1
  refine ⟨hrun, ?_, ?_⟩
  · intro c
    rw [hrun, show alu.out twiddle c = _ from href.out twiddle c]
    constructor
    · change (c.startI && (decode c.instI).isSome) = true ↔ _
      rw [Bool.and_eq_true, decode_isSome_iff]
    · rfl
  · intro prog tr' hpad
    exact outs_of_padded href hpad _

/-- Two edges, one of them a reset, then `ntt_k`; and `fqmul_k` after an idle cycle. -/
theorem vhdl_instruction_machine_ntt : ∃ F : Funs,
    let alu := Vhdl.pqAlu Vhdl.fqMul Vhdl.barretReduce
    let s := alu.run 7 [idle false, pqSetTwiddle tbRegs 1]
    (alu.out s (pqNtt tbRegs 5 6)).1 = F.ntt 5 6 2571 ∧
      alu.outsAt s [(idle true, false), (pqFqmul tbRegs 5 6, true)] =
        alu.outs s [pqFqmul tbRegs 5 6] := by
  obtain ⟨F, hF⟩ := vhdl_instruction_machine Vhdl.fqMul Vhdl.barretReduce
  obtain ⟨_, hout, hpad⟩ := hF 7 [idle false, pqSetTwiddle tbRegs 1] (by decide)
  refine ⟨F, ?_, hpad _ _ (.insert (quiet_of_idle rfl rfl) (.instr .nil))⟩
  have h := (hout (pqNtt tbRegs 5 6)).2
  rw [show decode (pqNtt tbRegs 5 6).instI = some .ntt from decode_kyberInst .ntt tbRegs,
    show lastTwiddle Vhdl.zetaLut ([idle false, pqSetTwiddle tbRegs 1].map Inputs.request) = 2571
      by decide] at h
  exact h

/-! ## Equal outputs -/

/-- The two hand-copied ROMs agree in every entry. -/
theorem zetaLut_eq : ∀ k, Vhdl.zetaLut k = Verilog.zetaLut k := by decide +kernel

theorem fqMul_eq (a b : BitVec 16) : Vhdl.fqMul a b = Verilog.fqResult a b := rfl

/-- The VHDL unit has no 16-bit quotient; the low half of the product does not depend on it. -/
theorem barretReduce_eq (x : BitVec 16) : Vhdl.barretReduce x = Verilog.barrettResult x := by
  rw [Verilog.barrettResult, Verilog.barrettMultiple, extractLsb'_zero, Verilog.barrettMultipleWide,
    BitVec.setWidth_mul _ _ (by norm_num), setWidth_signExtend_self _ (by norm_num),
    setWidth_signExtend_self _ (by norm_num), Verilog.barrettQuotient, extractLsb'_zero]
  simp only [Vhdl.barretReduce, extractLsb'_zero]
  rw [BitVec.setWidth_setWidth_of_le _ (by norm_num), BitVec.setWidth_mul _ _ (by norm_num),
    setWidth_signExtend _ (by norm_num) (by norm_num), setWidth_signExtend_self _ (by norm_num)]
  rfl

theorem funs_eq : Vhdl.funs Vhdl.fqMul Vhdl.barretReduce = Verilog.funs := by
  apply Funs.ext
  · funext a b
    exact Verilog.fill_getLsbD (Vhdl.fqMul a b)
  · funext a
    simp only [Vhdl.funs, Verilog.funs, barretReduce_eq, Verilog.fill_getLsbD]
  · funext a b twiddle
    simp only [Vhdl.funs, Verilog.funs, fqMul_eq, Verilog.fqResult_comm twiddle]
  · funext a b twiddle
    simp only [Vhdl.funs, Verilog.funs, fqMul_eq, barretReduce_eq, Verilog.fqResult_comm twiddle]

/-- **The VHDL translation computes what the Verilog original computes**: for every instruction
word, every pair of operands, every start pulse and every ROM index loaded in both, `valid_o` and
`result_o` are equal. -/
theorem vhdl_eq_verilog (instI rs1I rs2I : BitVec 32) (startI : Bool) (k : BitVec 7) :
    Vhdl.validO instI startI = Verilog.validO instI startI ∧
      Vhdl.resultO Vhdl.fqMul Vhdl.barretReduce instI rs1I rs2I (Vhdl.zetaLut k) =
        Verilog.resultO instI rs1I rs2I (Verilog.zetaLut k) := by
  constructor
  · rw [Vhdl.validO, Verilog.validO, Vhdl.opSupported_eq, Verilog.opSupported_eq]
  · rw [Vhdl.resultO_eq_result, Verilog.resultO_eq_result, funs_eq, zetaLut_eq]
    rfl

/-- The inputs with `rstn_i` inverted. -/
def Inputs.invertRstn (i : Inputs) : Inputs := { i with rstnI := !i.rstnI }

/-- Whole runs of the two versions, on all traces: equal outputs in every cycle when the reset of
one of them is inverted. -/
theorem outs_eq (q : BitVec 16) (tr : List Inputs) :
    Verilog.pqAlu.outs q tr =
      (Vhdl.pqAlu Vhdl.fqMul Vhdl.barretReduce).outs q (tr.map Inputs.invertRstn) := by
  have hrom : Vhdl.zetaLut = Verilog.zetaLut := funext zetaLut_eq
  have hreq : Verilog.invertedRequest = fun i => (Inputs.invertRstn i).request := by
    funext i
    simp [Verilog.invertedRequest, Inputs.request, Inputs.invertRstn]
  rw [Verilog.pqAlu_refines.outs, (Vhdl.pqAlu_refines _ _).outs, funs_eq, hrom, hreq, List.map_map]
  rfl

end KyberNeorv32
