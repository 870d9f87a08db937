import KyberNeorv32.SelfTest
import KyberNeorv32.Versions

/-!
# `pq_alu_neorv32_test`: a whole run of `main`

`main` goes through four tables. Every sample is computed in C and with the custom instructions,
both results are stored and compared with each other and with the table, and both are timed by
readings of the cycle counter. `Platform` is what the processor contributes: the PQ-ALU behind the
custom instructions, the cycles that pass on its ports between them, the registers the compiler has
chosen, and the readings of the counter.

`pass_iff` says what the verdict is worth, whatever the hardware. On the VHDL version the shipped
tables pass (`main_vhdl`); on `pq_alu.v`, which clears its twiddle register out of reset, both
butterfly tables fail in every sample (`main_verilog`). `latency_exact` is about the reported
averages.

| here | there |
| --- | --- |
| `Tables`, `tables` | the static tables (`main.c:15-120`) |
| `correctedCycles` | `corrected_cycles` (`:137-140`) |
| `fqmulRow` … `inttRow` | the operands, both computations and the expectation of one sample |
| `sampleStep`, `sampleLoop` | the four `while` loops (`:162-275`) |
| `main`, `Report.print` | `main` (`:142-303`), without the setup of GPIO and UART |
-/

namespace KyberNeorv32.SelfTest

open Clocked

structure Tables where
  aFqmulI : Vector (BitVec 32) 16
  bFqmulI : Vector (BitVec 32) 16
  rFqmulO : Vector (BitVec 32) 16
  aReduceI : Vector (BitVec 32) 16
  rReduceO : Vector (BitVec 32) 16
  aNttI : Vector (BitVec 32) 16
  bNttI : Vector (BitVec 32) 16
  zetaNttI : Vector (BitVec 32) 16
  twiddleNttI : Vector (BitVec 32) 16
  rNttO : Vector (BitVec 32) 16
  aInttI : Vector (BitVec 32) 16
  bInttI : Vector (BitVec 32) 16
  zetaInttI : Vector (BitVec 32) 16
  twiddleInttI : Vector (BitVec 32) 16
  rInttO : Vector (BitVec 32) 16

def tables : Tables where
  aFqmulI := #v[
    0x0a0b, 0x0b9a, 0x05d5, 0x026e, 0x09c4, 0x0bc1, 0x0284, 0x025b,
    0x05bd, 0x06bf, 0x0629, 0x058e, 0x0b9a, 0x0a0b, 0x06fc, 0xfd76]
  bFqmulI := #v[
    0x0080, 0xfea8, 0x0471, 0x0fc9, 0x007b, 0xf71c, 0x00df, 0x05e6,
    0xf700, 0xf985, 0x0831, 0x08ca, 0xf510, 0xfcce, 0x05a1, 0x05a1]
  rFqmulO := #v[
    0x0000063e, 0x0000052b, 0x000004ac, 0x0000059e, 0xfffffa11, 0xfffffe92, 0xfffffae1, 0xffffff82,
    0xfffffb2d, 0xfffffc1c, 0xfffffa77, 0xfffffd72, 0xffffffba, 0x000001f7, 0xffffffed, 0x00000064]
  aReduceI := #v[
    0x2528, 0x007e, 0x0704, 0xfef6, 0xf6ed, 0x0a6d, 0x00d0, 0x1623,
    0xfe23, 0x0b86, 0xfd32, 0x0b4e, 0x082e, 0x1081, 0x077e, 0xfe7b]
  rReduceO := #v[
    0x0b26, 0x007e, 0x0704, 0x0bf7, 0x03ee, 0x0a6d, 0x00d0, 0x0922,
    0x0b24, 0x0b86, 0x0a33, 0x0b4e, 0x082e, 0x0380, 0x077e, 0x0b7c]
  aNttI := #v[
    0x0000, 0x003b, 0x0077, 0xffc9, 0xfb5a, 0xfccb, 0x0a57, 0xfef2,
    0xfd72, 0xfef6, 0x0d5e, 0x0147, 0xfcc4, 0x0bcc, 0x0e67, 0x022a]
  bNttI := #v[
    0x0080, 0x00bb, 0x00f7, 0x0328, 0x057c, 0xff93, 0xfcff, 0x052b,
    0x045a, 0x0252, 0xff9f, 0x0486, 0x024f, 0xf8ff, 0xfd9c, 0xff1c]
  zetaNttI := #v[
    0x0a0b, 0x0a0b, 0x0a0b, 0x0b9a, 0x0714, 0x058e, 0x00ca, 0x0629,
    0x084f, 0x017f, 0x02dc, 0x07f4, 0x033e, 0x034b, 0x0449, 0x065c]
  twiddleNttI := #v[
    0x0001, 0x0001, 0x0001, 0x0002, 0x0003, 0x0005, 0x0007, 0x000a,
    0x000d, 0x0013, 0x001a, 0x0024, 0x0033, 0x0043, 0x0061, 0x007f]
  rNttO := #v[
    0xf9c2063e, 0xfea101d5, 0xfcc0042e, 0xfd1b0277, 0xf9a9fd0b, 0xf7f401a2, 0x08e30bcb, 0x02d4fb10,
    0xfe9dfc47, 0xfa3503b7, 0x080512b7, 0xfc590635, 0xf998fff0, 0x08920f06, 0x14690865, 0xfbfe0856]
  aInttI := #v[
    0x167e, 0xfd4c, 0x091a, 0xfdcf, 0xfb9d, 0x02be, 0x0010, 0x0c84,
    0xfc3a, 0x0609, 0x02bb, 0x0637, 0x0471, 0x06f9, 0x012d, 0xfb61]
  bInttI := #v[
    0x0eaa, 0x0332, 0xfdea, 0x0127, 0xfb50, 0x07af, 0x00c0, 0x099f,
    0x01e9, 0x057d, 0xfa77, 0x0517, 0x03bd, 0x0988, 0x0651, 0x031a]
  zetaInttI := #v[
    0x065c, 0x025b, 0x081e, 0x033e, 0x07f4, 0x02dc, 0x017f, 0x084f,
    0x0629, 0x00ca, 0x058e, 0x0714, 0x0b9a, 0x0a0b, 0x0a0b, 0x0a0b]
  twiddleInttI := #v[
    0x007f, 0x0062, 0x0044, 0x0033, 0x0024, 0x001a, 0x0013, 0x000d,
    0x000a, 0x0007, 0x0005, 0x0003, 0x0002, 0x0001, 0x0001, 0x0001]
  rInttO := #v[
    0x04490b26, 0xff82007e, 0xfb900704, 0x02ec0bf7, 0x041303ee, 0x03dc0a6d, 0x007200d0, 0x04aa0922,
    0x049b0b24, 0x04640b86, 0xfa380a33, 0x05fd0b4e, 0xf97b082e, 0x027b0380, 0x0679077e, 0xfd760b7c]

/-! ## The processor -/

structure Platform (σ : Type) where
  alu : Machine Inputs σ (BitVec 32 × Bool)
  /-- The cycles on the ports of the PQ-ALU before the custom instruction of that number. -/
  gap : ℕ → List Inputs
  regs : ℕ → Regs
  /-- What the call of `neorv32_cpu_get_cycle` of that number returns. -/
  cycle : ℕ → BitVec 64

structure Cpu (σ : Type) where
  alu : σ
  issued : ℕ
  reads : ℕ

section Main
variable {σ : Type} (p : Platform σ)

/-- `(uint32_t)neorv32_cpu_get_cycle()`. -/
def getCycle (s : Cpu σ) : BitVec 32 × Cpu σ :=
  ((p.cycle s.reads).setWidth 32, { s with reads := s.reads + 1 })

/-- One intrinsic of `neorv32_custom_ise.h`. -/
def exec (s : Cpu σ) (intrinsic : Regs → Inputs) : BitVec 32 × Cpu σ :=
  let i := intrinsic (p.regs s.issued)
  let q := p.alu.run s.alu (p.gap s.issued)
  ((p.alu.out q i).1, { s with alu := p.alu.next q i, issued := s.issued + 1 })

def correctedCycles (start stop overhead : BitVec 32) : BitVec 32 :=
  let elapsed := stop - start
  if elapsed > overhead then elapsed - overhead else 0

/-! ## The samples -/

structure SampleResult where
  base : BitVec 32
  ise : BitVec 32
deriving DecidableEq, Repr

/-- One sample of a table: the C result, the index loaded first (butterflies only), the instruction
under test and the expected output. -/
structure Row where
  base : BitVec 32
  twiddle : Option (BitVec 32)
  intrinsic : Regs → Inputs
  expected : BitVec 32

def fqmulRow (t : Tables) (idx : Fin 16) : Row where
  base := fqmulBase (t.aFqmulI.get idx) (t.bFqmulI.get idx)
  twiddle := none
  intrinsic r := pqFqmul r (int16 (t.aFqmulI.get idx)) (int16 (t.bFqmulI.get idx))
  expected := t.rFqmulO.get idx

def reduceRow (t : Tables) (idx : Fin 16) : Row where
  base := reduceBase (t.aReduceI.get idx)
  twiddle := none
  intrinsic r := pqReduce r (int16 (t.aReduceI.get idx))
  expected := t.rReduceO.get idx

def nttRow (t : Tables) (idx : Fin 16) : Row where
  base := nttBase ((t.zetaNttI.get idx).setWidth 16) (t.aNttI.get idx) (t.bNttI.get idx)
  twiddle := some (t.twiddleNttI.get idx)
  intrinsic r := pqNtt r (int16 (t.aNttI.get idx)) (int16 (t.bNttI.get idx))
  expected := t.rNttO.get idx

def inttRow (t : Tables) (idx : Fin 16) : Row where
  base := inttBase ((t.zetaInttI.get idx).setWidth 16) (t.aInttI.get idx) (t.bInttI.get idx)
  twiddle := some (t.twiddleInttI.get idx)
  intrinsic r := pqIntt r (int16 (t.aInttI.get idx)) (int16 (t.bInttI.get idx))
  expected := t.rInttO.get idx

/-- The custom instructions of a sample. -/
def iseResult (s : Cpu σ) (row : Row) : BitVec 32 × Cpu σ :=
  match row.twiddle with
  | none => exec p s row.intrinsic
  | some k => exec p (exec p s fun r => pqSetTwiddle r k).2 row.intrinsic

/-! ## The loops -/

structure Tally where
  results : List SampleResult
  errors : BitVec 32
  latency : BitVec 32
  iseLatency : BitVec 32
deriving DecidableEq, Repr

/-- The `if` of the loops. -/
def Mismatch (x : Row × SampleResult) : Prop :=
  x.2.base ≠ x.2.ise ∨ x.2.base ≠ x.1.expected ∨ x.2.ise ≠ x.1.expected

instance (x : Row × SampleResult) : Decidable (Mismatch x) := instDecidableOr

def sampleStep (cycleOverhead : BitVec 32) (x : Cpu σ × Tally) (row : Row) : Cpu σ × Tally :=
  let (s, t) := x
  let (c2, s) := getCycle p s
  let (c3, s) := getCycle p s
  let (ise, s) := iseResult p s row
  let (c4, s) := getCycle p s
  let result : SampleResult := ⟨row.base, ise⟩
  (s, {
    results := t.results ++ [result]
    errors := if Mismatch (row, result) then t.errors + 1 else t.errors
    latency := t.latency + correctedCycles c2 c3 cycleOverhead
    iseLatency := t.iseLatency + correctedCycles c3 c4 cycleOverhead })

/-- The loop, with both latencies still sums. -/
def sampleSums (cycleOverhead : BitVec 32) (s : Cpu σ) (rows : List Row) : Cpu σ × Tally :=
  rows.foldl (sampleStep p cycleOverhead) (s, ⟨[], 0, 0, 0⟩)

def sampleLoop (cycleOverhead : BitVec 32) (s : Cpu σ) (rows : List Row) : Cpu σ × Tally :=
  let (s, t) := sampleSums p cycleOverhead s rows
  (s, { t with latency := t.latency / 16, iseLatency := t.iseLatency / 16 })

structure Report where
  fqmul : Tally
  reduce : Tally
  ntt : Tally
  intt : Tally
  cycleOverhead : BitVec 32
  totalErrors : BitVec 16
  pass : BitVec 8
deriving DecidableEq, Repr

/-- The end of `main`, from the local variables of the four loops. -/
def summary (cycleOverhead : BitVec 32) (fqmul reduce ntt intt : Tally) : Report :=
  let totalErrors : BitVec 16 :=
    (fqmul.errors + reduce.errors + ntt.errors + intt.errors).setWidth 16
  let pass : BitVec 8 := if totalErrors ≠ 0 then 0 else 1
  ⟨fqmul, reduce, ntt, intt, cycleOverhead, totalErrors, pass⟩

def main (t : Tables) (alu : σ) : Report :=
  let s : Cpu σ := ⟨alu, 0, 0⟩
  let (c0, s) := getCycle p s
  let (c1, s) := getCycle p s
  let cycleOverhead := c1 - c0
  let fqmul := sampleLoop p cycleOverhead s (List.ofFn (fqmulRow t))
  let reduce := sampleLoop p cycleOverhead fqmul.1 (List.ofFn (reduceRow t))
  let ntt := sampleLoop p cycleOverhead reduce.1 (List.ofFn (nttRow t))
  let intt := sampleLoop p cycleOverhead ntt.1 (List.ofFn (inttRow t))
  summary cycleOverhead fqmul.2 reduce.2 ntt.2 intt.2

/-- `%d` of an unsigned word. -/
def printD {w : ℕ} (x : BitVec w) : String := toString ((x.setWidth 32).toInt)

/-- What `main` prints at the end, a string for each call. -/
def Report.print (r : Report) : List String := [
  "========= Resumo Teste com implementacao base NEORV32 ==============\r\n",
  "Número medio de ciclos sem ISE p/ FQMUL: " ++ printD r.fqmul.latency ++ "\n",
  "Número medio de ciclos sem ISE p/ REDUCE: " ++ printD r.reduce.latency ++ "\n",
  "Número medio de ciclos sem ISE p/ Butt. CT: " ++ printD r.ntt.latency ++ "\n",
  "Número medio de ciclos sem ISE p/ Butt. GS: " ++ printD r.intt.latency ++ "\n",
  "\r\n========= Resumo Teste com implementacao de ISE NEORV32 ==============\r\n",
  "Número medio de ciclos com ISE p/ FQMUL: " ++ printD r.fqmul.iseLatency ++ "\n",
  "Número medio de ciclos com ISE p/ REDUCE: " ++ printD r.reduce.iseLatency ++ "\n",
  "Número medio de ciclos com ISE p/ Butt. CT: " ++ printD r.ntt.iseLatency ++ "\n",
  "Número medio de ciclos com ISE p/ Butt. GS: " ++ printD r.intt.iseLatency ++ "\n",
  "Overhead da medicao: ciclos=" ++ printD r.cycleOverhead ++ "\n",
  "\r\n========= RESUMO ==============\r\n",
  "Erros: " ++ printD r.totalErrors ++ "\n",
  if r.pass ≠ 0 then "===============  [PASS] SUCESSO! ===========\n"
  else "===============  [FAIL] FALHA! ==============\n"]

/-! ## The loops on any hardware -/

section Loop
variable (cycleOverhead : BitVec 32) (s : Cpu σ) (rows : List Row)

theorem sampleSums_concat (row : Row) : sampleSums p cycleOverhead s (rows ++ [row]) =
    sampleStep p cycleOverhead (sampleSums p cycleOverhead s rows) row := List.foldl_concat ..

@[simp] theorem exec_reads (intrinsic : Regs → Inputs) :
    (exec p s intrinsic).2.reads = s.reads := rfl

@[simp] theorem iseResult_reads (row : Row) : (iseResult p s row).2.reads = s.reads := by
  unfold iseResult
  cases row.twiddle <;> rfl

theorem sampleSums_length : (sampleSums p cycleOverhead s rows).2.results.length = rows.length := by
  induction rows using List.reverseRecOn with
  | nil => rfl
  | append_singleton rows row ih =>
    rw [sampleSums_concat]
    simp [sampleStep, ih]

/-- The counter counts the mismatches. -/
theorem sampleSums_errors : (sampleSums p cycleOverhead s rows).2.errors = BitVec.ofNat 32
    ((rows.zip (sampleSums p cycleOverhead s rows).2.results).countP (Mismatch ·)) := by
  induction rows using List.reverseRecOn with
  | nil => rfl
  | append_singleton rows row ih =>
    rw [sampleSums_concat]
    simp only [sampleStep]
    rw [List.zip_append (sampleSums_length p cycleOverhead s rows).symm, List.countP_append, ih]
    simp only [List.zip_cons_cons, List.zip_nil_right, List.countP_singleton, decide_eq_true_eq]
    split_ifs
    · rw [BitVec.ofNat_add]
      rfl
    · rfl

theorem sampleSums_reads :
    (sampleSums p cycleOverhead s rows).1.reads = s.reads + 3 * rows.length := by
  induction rows using List.reverseRecOn with
  | nil => rfl
  | append_singleton rows row ih =>
    rw [sampleSums_concat]
    simp [sampleStep, getCycle, ih]
    omega

/-- Each instruction is timed between two readings that follow each other. -/
theorem sampleSums_latency :
    (sampleSums p cycleOverhead s rows).2.latency =
      ((List.range rows.length).map fun k => correctedCycles
        ((p.cycle (s.reads + 3 * k)).setWidth 32)
        ((p.cycle (s.reads + 3 * k + 1)).setWidth 32) cycleOverhead).sum ∧
    (sampleSums p cycleOverhead s rows).2.iseLatency =
      ((List.range rows.length).map fun k => correctedCycles
        ((p.cycle (s.reads + 3 * k + 1)).setWidth 32)
        ((p.cycle (s.reads + 3 * k + 2)).setWidth 32) cycleOverhead).sum := by
  induction rows using List.reverseRecOn with
  | nil => exact ⟨rfl, rfl⟩
  | append_singleton rows row ih =>
    have hreads := sampleSums_reads p cycleOverhead s rows
    rw [sampleSums_concat]
    simp [sampleStep, getCycle, ih, hreads, List.range_succ]

end Loop

/-! ## What the verdict says -/

theorem not_mismatch_iff (row : Row) (r : SampleResult) :
    ¬ Mismatch (row, r) ↔ r = ⟨row.expected, row.expected⟩ := by
  obtain ⟨base, ise⟩ := r
  simp only [Mismatch, not_or, not_not, SampleResult.mk.injEq]
  constructor
  · rintro ⟨-, hbase, hise⟩
    exact ⟨hbase, hise⟩
  · rintro ⟨rfl, rfl⟩
    exact ⟨rfl, rfl, rfl⟩

/-- No mismatch means that both results of every sample are the expected output. -/
theorem countP_mismatch_eq_zero {rows : List Row} {results : List SampleResult}
    (h : results.length = rows.length) : (rows.zip results).countP (Mismatch ·) = 0 ↔
      results = rows.map fun row => ⟨row.expected, row.expected⟩ := by
  induction rows generalizing results with
  | nil =>
    cases results with
    | nil => simp
    | cons r results => simp at h
  | cons row rows ih =>
    cases results with
    | nil => simp at h
    | cons r results =>
      have ih := ih (Nat.succ_injective h)
      simp only [List.countP_eq_zero, decide_eq_true_eq] at ih ⊢
      rw [List.zip_cons_cons, List.forall_mem_cons, not_mismatch_iff, ih, List.map_cons,
        List.cons.injEq]

/-- All samples in the order of the loops. -/
def allRows (t : Tables) : List Row :=
  List.ofFn (fqmulRow t) ++ List.ofFn (reduceRow t) ++ List.ofFn (nttRow t) ++ List.ofFn (inttRow t)

def Report.results (r : Report) : List SampleResult :=
  r.fqmul.results ++ r.reduce.results ++ r.ntt.results ++ r.intt.results

/-- The four loops and the number of readings before each. -/
theorem main_loops (t : Tables) (q : σ) : ∃ s₁ s₂ s₃ s₄ : Cpu σ,
    (s₁.reads = 2 ∧ s₂.reads = 50 ∧ s₃.reads = 98 ∧ s₄.reads = 146) ∧
      let c := (p.cycle 1).setWidth 32 - (p.cycle 0).setWidth 32
      main p t q = summary c (sampleLoop p c s₁ (List.ofFn (fqmulRow t))).2
        (sampleLoop p c s₂ (List.ofFn (reduceRow t))).2
        (sampleLoop p c s₃ (List.ofFn (nttRow t))).2
        (sampleLoop p c s₄ (List.ofFn (inttRow t))).2 := by
  have hreads : ∀ (c : BitVec 32) (s : Cpu σ) (row : Fin 16 → Row),
      (sampleLoop p c s (List.ofFn row)).1.reads = s.reads + 48 := by
    intro c s row
    simp [sampleLoop, sampleSums_reads]
  let c := (p.cycle 1).setWidth 32 - (p.cycle 0).setWidth 32
  let s₁ : Cpu σ := ⟨q, 0, 2⟩
  let s₂ := (sampleLoop p c s₁ (List.ofFn (fqmulRow t))).1
  let s₃ := (sampleLoop p c s₂ (List.ofFn (reduceRow t))).1
  let s₄ := (sampleLoop p c s₃ (List.ofFn (nttRow t))).1
  have h₂ : s₂.reads = 50 := hreads c s₁ _
  have h₃ : s₃.reads = 98 := (hreads c s₂ _).trans (by rw [h₂])
  have h₄ : s₄.reads = 146 := (hreads c s₃ _).trans (by rw [h₃])
  exact ⟨s₁, s₂, s₃, s₄, ⟨rfl, h₂, h₃, h₄⟩, rfl⟩

theorem length_allRows (t : Tables) : (allRows t).length = 64 := by simp [allRows]

theorem length_results (t : Tables) (q : σ) :
    (main p t q).results.length = (allRows t).length := by
  obtain ⟨s₁, s₂, s₃, s₄, -, hmain⟩ := main_loops p t q
  rw [hmain]
  simp [Report.results, allRows, summary, sampleLoop, sampleSums_length]

/-- The four counters and the sum that `main` cuts to 16 bits do not overflow. -/
theorem main_totalErrors (t : Tables) (q : σ) : (main p t q).totalErrors.toNat =
    ((allRows t).zip (main p t q).results).countP (Mismatch ·) := by
  have hle : ((allRows t).zip (main p t q).results).countP (Mismatch ·) ≤ 64 := by
    calc _ ≤ ((allRows t).zip (main p t q).results).length := List.countP_le_length
      _ = 64 := by rw [List.length_zip, length_results, length_allRows, Nat.min_self]
  have hsum : (main p t q).totalErrors = (BitVec.ofNat 32
      (((allRows t).zip (main p t q).results).countP (Mismatch ·))).setWidth 16 := by
    obtain ⟨s₁, s₂, s₃, s₄, -, hmain⟩ := main_loops p t q
    rw [hmain]
    unfold allRows Report.results
    simp only [summary, sampleLoop]
    rw [List.zip_append (by simp [sampleSums_length]), List.zip_append (by simp [sampleSums_length]),
      List.zip_append (by simp [sampleSums_length])]
    simp only [List.countP_append, BitVec.ofNat_add, sampleSums_errors]
  rw [hsum, BitVec.toNat_setWidth, BitVec.toNat_ofNat]
  omega

theorem summary_pass (c : BitVec 32) (fqmul reduce ntt intt : Tally) :
    let r := summary c fqmul reduce ntt intt
    r.pass = if r.totalErrors ≠ 0 then 0 else 1 := rfl

theorem main_pass_eq (t : Tables) (q : σ) :
    (main p t q).pass = if (main p t q).totalErrors ≠ 0 then 0 else 1 := by
  obtain ⟨s₁, s₂, s₃, s₄, -, hmain⟩ := main_loops p t q
  rw [hmain, summary_pass]

theorem main_pass (t : Tables) (q : σ) :
    (main p t q).pass = 1 ↔ (main p t q).totalErrors.toNat = 0 := by
  have hzero : (main p t q).totalErrors.toNat = 0 ↔ (main p t q).totalErrors = 0 := by
    rw [← BitVec.toNat_inj]
    rfl
  rw [hzero, main_pass_eq]
  by_cases h : (main p t q).totalErrors = 0
  · rw [if_neg (not_not.2 h)]
    exact iff_of_true rfl h
  · rw [if_pos h]
    exact iff_of_false (by decide) h

/-- **What the verdict is worth**, on any hardware: `main` reports as many errors as there are
samples whose two results are not both the expected output, and PASS if and only if every stored
result, of the C code and of the PQ-ALU, is the expected output. -/
theorem pass_iff (t : Tables) (q : σ) :
    (main p t q).totalErrors.toNat =
        ((allRows t).zip (main p t q).results).countP (Mismatch ·) ∧
      ((main p t q).pass = 1 ↔
        (main p t q).results = (allRows t).map fun row => ⟨row.expected, row.expected⟩) := by
  refine ⟨main_totalErrors p t q, ?_⟩
  rw [main_pass, main_totalErrors]
  exact countP_mismatch_eq_zero (length_results p t q)

/-! ## The two versions of the hardware -/

theorem sampleSums_of_determined {rows : List Row} {ise : Row → BitVec 32} (c : BitVec 32)
    (s : Cpu σ) (h : ∀ row ∈ rows, ∀ s, (iseResult p s row).1 = ise row) :
    (sampleSums p c s rows).2.results = rows.map fun row => ⟨row.base, ise row⟩ := by
  induction rows using List.reverseRecOn with
  | nil => rfl
  | append_singleton rows row ih =>
    rw [sampleSums_concat, List.map_append]
    simp only [sampleStep]
    rw [ih (fun r hr => h r (by simp [hr])), h row (by simp)]
    rfl

/-- Where the instructions' results depend on nothing but the sample, `main` stores them. -/
theorem results_of_determined (t : Tables) (q : σ) {ise : Row → BitVec 32}
    (h : ∀ row ∈ allRows t, ∀ s, (iseResult p s row).1 = ise row) :
    (main p t q).results = (allRows t).map fun row => ⟨row.base, ise row⟩ := by
  obtain ⟨s₁, s₂, s₃, s₄, -, hmain⟩ := main_loops p t q
  unfold allRows at h ⊢
  simp only [List.forall_mem_append] at h
  rw [hmain]
  simp only [Report.results, summary, sampleLoop, List.map_append]
  rw [sampleSums_of_determined p _ s₁ h.1.1.1, sampleSums_of_determined p _ s₂ h.1.1.2,
    sampleSums_of_determined p _ s₃ h.1.2, sampleSums_of_determined p _ s₄ h.2]

theorem operandA_int16 (x : BitVec 32) : Verilog.operandA (int16 x) = Verilog.operandA x := by
  rw [int16_eq, Verilog.operandA, Words.extractLsb'_zero, Words.setWidth_signExtend_self _ (by norm_num)]
  rfl

theorem operandB_int16 (x : BitVec 32) : Verilog.operandB (int16 x) = Verilog.operandB x :=
  operandA_int16 x

end Main

section Base
variable (z : BitVec 16) (x y : BitVec 32)

/-- The four C expressions are the functions of the instruction machine. -/
theorem fqmulBase_eq : fqmulBase x y =
    Verilog.funs.fqmul (Verilog.operandA x) (Verilog.operandB y) := by
  rw [fqmulBase, int16_eq, int16_eq, montgomeryReduce_eq]
  rfl

theorem reduceBase_eq : reduceBase x = Verilog.funs.reduce (Verilog.operandA x) := by
  rw [reduceBase, int16_eq, Words.setWidth_signExtend_self _ (by norm_num),
    barrettReduce_eq_barrettResult]
  rfl

theorem nttBase_eq : nttBase z x y =
    Verilog.funs.ntt (Verilog.operandA x) (Verilog.operandB y) z := by
  simp only [nttBase, int16_eq, montgomeryReduce_eq, setWidth_add_signExtend,
    setWidth_sub_signExtend, packCoefficients_eq, Verilog.fqResult_comm z]
  rfl

theorem inttBase_eq : inttBase z x y =
    Verilog.funs.intt (Verilog.operandA x) (Verilog.operandB y) z := by
  simp only [inttBase, int16_eq, montgomeryReduce_eq, setWidth_add_signExtend,
    setWidth_sub_signExtend, packCoefficients_eq, barrettReduce_eq_barrettResult,
    Verilog.fqResult_comm z]
  rfl

end Base

/-- A PQ-ALU that computes what the instruction machine computes, and whose register holds `z k`
when the instruction after `set_twiddle_k` with index `k` arrives. -/
structure Answers (p : Platform (BitVec 16)) (z : BitVec 32 → BitVec 16) : Prop where
  out : ∀ q i, (p.alu.out q i).1 = Verilog.funs.result (decode i.instI) (Verilog.operandA i.rs1I)
    (Verilog.operandB i.rs2I) q
  load : ∀ q r k n, p.alu.run (p.alu.next q (pqSetTwiddle r k)) (p.gap n) = z k

/-- The instructions' result for one sample. -/
def answer (z : BitVec 32 → BitVec 16) (row : Row) : BitVec 32 :=
  let i := row.intrinsic tbRegs
  Verilog.funs.result (decode i.instI) (Verilog.operandA i.rs1I) (Verilog.operandB i.rs2I)
    (match row.twiddle with
      | none => 0
      | some k => z k)

theorem Answers.iseResult {p : Platform (BitVec 16)} {z : BitVec 32 → BitVec 16} (h : Answers p z)
    {t : Tables} {row : Row} (hrow : row ∈ allRows t) (s : Cpu (BitVec 16)) :
    (iseResult p s row).1 = answer z row := by
  simp only [allRows, List.mem_append, List.mem_ofFn] at hrow
  rcases hrow with ((⟨i, rfl⟩ | ⟨i, rfl⟩) | ⟨i, rfl⟩) | ⟨i, rfl⟩
  all_goals
    simp only [SelfTest.iseResult, exec, fqmulRow, reduceRow, nttRow, inttRow, h.out, h.load, answer,
      pqFqmul, pqReduce, pqNtt, pqIntt, issue, decode_kyberInst, Funs.result]

/-- The errors of a whole run. -/
theorem Answers.totalErrors {p : Platform (BitVec 16)} {z : BitVec 32 → BitVec 16}
    (h : Answers p z) (t : Tables) (q : BitVec 16) : (main p t q).totalErrors.toNat =
      (allRows t).countP fun row => Mismatch (row, ⟨row.base, answer z row⟩) := by
  rw [main_totalErrors, results_of_determined p t q fun row hrow s => h.iseResult hrow s,
    ← List.map_prod_left_eq_zip, List.countP_map]
  rfl

/-- The VHDL version keeps the ROM entry through quiet cycles. -/
theorem answers_vhdl {gap : ℕ → List Inputs} (regs : ℕ → Regs) (cycle : ℕ → BitVec 64)
    (hgap : ∀ n, ∀ i ∈ gap n, Quiet i) :
    Answers ⟨Vhdl.pqAlu Vhdl.fqMul Vhdl.barretReduce, gap, regs, cycle⟩
      fun k => Verilog.zetaLut (k.extractLsb' 0 7) where
  out q i := by
    change (Vhdl.resultO Vhdl.fqMul Vhdl.barretReduce i.instI i.rs1I i.rs2I q) = _
    rw [Vhdl.resultO_eq_result, funs_eq]
    rfl
  load q r k n := by
    have hstay : ∀ tr : List Inputs, (∀ i ∈ tr, Quiet i) → ∀ q,
        (Vhdl.pqAlu Vhdl.fqMul Vhdl.barretReduce).run q tr = q := by
      intro tr htr
      induction tr with
      | nil => exact fun q => rfl
      | cons i tr ih =>
        intro q
        have hnext := (Vhdl.pqAlu_refines Vhdl.fqMul Vhdl.barretReduce).next q i
        rw [id, id, insnMachine_next_quiet _ _ (htr i (by simp))] at hnext
        change Machine.run _ (Machine.next _ q i) tr = q
        rw [hnext]
        exact ih (fun j hj => htr j (by simp [hj])) q
    rw [hstay _ (hgap n)]
    change Vhdl.twiddleNext q (pqSetTwiddle r k) = _
    simp [Vhdl.twiddleNext, pqSetTwiddle, issue, decode_kyberInst, zetaLut_eq]

/-- The Verilog version clears it at every edge out of reset. -/
theorem answers_verilog {gap : ℕ → List Inputs} (regs : ℕ → Regs) (cycle : ℕ → BitVec 64)
    (hgap : ∀ n, ∀ i ∈ gap n, i.rstnI = true) :
    Answers ⟨Verilog.pqAlu, gap, regs, cycle⟩ fun _ => 0 where
  out q i := Verilog.resultO_eq_result i.instI i.rs1I i.rs2I q
  load q r k n := by
    change Verilog.pqAlu.run q (pqSetTwiddle r k :: gap n) = 0
    rcases List.eq_nil_or_concat' (gap n) with h | ⟨tr, i, h⟩
    · rw [h]
      exact Verilog.run_of_rstn_high q [] rfl
    · rw [h]
      exact Verilog.run_of_rstn_high q (pqSetTwiddle r k :: tr) (hgap n i (by simp [h]))

/-- The `zeta` columns hold the ROM entries that the `twiddle` columns name. -/
def TwiddlesMatch (t : Tables) : Prop := ∀ i,
  (t.zetaNttI.get i).setWidth 16 = Verilog.zetaLut ((t.twiddleNttI.get i).extractLsb' 0 7) ∧
    (t.zetaInttI.get i).setWidth 16 = Verilog.zetaLut ((t.twiddleInttI.get i).extractLsb' 0 7)

/-- With the right twiddles, hardware and software agree in every sample. -/
theorem answer_eq_base {t : Tables} (ht : TwiddlesMatch t) {row : Row} (hrow : row ∈ allRows t) :
    answer (fun k => Verilog.zetaLut (k.extractLsb' 0 7)) row = row.base := by
  simp only [allRows, List.mem_append, List.mem_ofFn] at hrow
  rcases hrow with ((⟨i, rfl⟩ | ⟨i, rfl⟩) | ⟨i, rfl⟩) | ⟨i, rfl⟩
  · simp only [fqmulRow, fqmulBase_eq, answer, pqFqmul, issue, decode_kyberInst, Funs.result,
      operandA_int16, operandB_int16]
  · simp only [reduceRow, reduceBase_eq, answer, pqReduce, issue, decode_kyberInst, Funs.result,
      operandA_int16]
  · simp only [nttRow, nttBase_eq, answer, pqNtt, issue, decode_kyberInst, Funs.result,
      operandA_int16, operandB_int16, (ht i).1]
  · simp only [inttRow, inttBase_eq, answer, pqIntt, issue, decode_kyberInst, Funs.result,
      operandA_int16, operandB_int16, (ht i).2]

theorem tables_twiddlesMatch : TwiddlesMatch tables := by
  unfold TwiddlesMatch
  decide +kernel

/-- The shipped expected outputs are what the C code computes. -/
theorem tables_base : ∀ row ∈ allRows tables, row.base = row.expected := by
  decide +kernel

/-- **On the VHDL version** `main` reports exactly the samples whose expected output is not what the
C code computes, for all tables with the right twiddles. The shipped ones pass. -/
theorem main_vhdl {gap : ℕ → List Inputs} (regs : ℕ → Regs) (cycle : ℕ → BitVec 64)
    (hgap : ∀ n, ∀ i ∈ gap n, Quiet i) (q : BitVec 16) :
    let r t := main ⟨Vhdl.pqAlu Vhdl.fqMul Vhdl.barretReduce, gap, regs, cycle⟩ t q
    (∀ t, TwiddlesMatch t →
      (r t).totalErrors.toNat = (allRows t).countP (fun row => row.base ≠ row.expected) ∧
        ((r t).pass = 1 ↔ ∀ row ∈ allRows t, row.base = row.expected)) ∧
      (r tables).totalErrors = 0 ∧ (r tables).pass = 1 := by
  intro r
  have hcount : ∀ t, TwiddlesMatch t →
      (r t).totalErrors.toNat = (allRows t).countP (fun row => row.base ≠ row.expected) := by
    intro t ht
    rw [(answers_vhdl regs cycle hgap).totalErrors t q]
    refine List.countP_congr fun row hrow => ?_
    rw [answer_eq_base ht hrow]
    simp [Mismatch]
  have hpass : ∀ t, TwiddlesMatch t →
      ((r t).pass = 1 ↔ ∀ row ∈ allRows t, row.base = row.expected) := by
    intro t ht
    rw [main_pass, hcount t ht, List.countP_eq_zero]
    simp
  refine ⟨fun t ht => ⟨hcount t ht, hpass t ht⟩, ?_, (hpass tables tables_twiddlesMatch).2 tables_base⟩
  apply BitVec.eq_of_toNat_eq
  rw [hcount tables tables_twiddlesMatch]
  exact List.countP_eq_zero.2 fun row hrow => by simp [tables_base row hrow]

/-- With `set_twiddle_k` and the butterfly back to back. -/
theorem main_vhdl_tables :
    (main ⟨Vhdl.pqAlu Vhdl.fqMul Vhdl.barretReduce, fun _ => [], fun _ => tbRegs,
      fun k => BitVec.ofNat 64 k⟩ tables 7).pass = 1 :=
  (main_vhdl (fun _ => tbRegs) (fun k => BitVec.ofNat 64 k) (by simp) 7).2.2

/-- **On the Verilog version** out of reset the butterflies are computed with twiddle 0, for all
tables. The shipped ones fail, with 32 errors. -/
theorem main_verilog {gap : ℕ → List Inputs} (regs : ℕ → Regs) (cycle : ℕ → BitVec 64)
    (hgap : ∀ n, ∀ i ∈ gap n, i.rstnI = true) (q : BitVec 16) :
    let r t := main ⟨Verilog.pqAlu, gap, regs, cycle⟩ t q
    (∀ t, (r t).results = (allRows t).map fun row => ⟨row.base, answer (fun _ => 0) row⟩) ∧
      (r tables).totalErrors = 32 ∧ (r tables).pass = 0 := by
  intro r
  have h := answers_verilog regs cycle hgap
  refine ⟨fun t => results_of_determined _ t q fun row hrow s => h.iseResult hrow s, ?_⟩
  have hcount : (r tables).totalErrors.toNat = 32 := by
    rw [h.totalErrors tables q]
    decide +kernel
  have herrors : (r tables).totalErrors = 32 := BitVec.eq_of_toNat_eq hcount
  refine ⟨herrors, ?_⟩
  rw [main_pass_eq, herrors]
  rfl

theorem main_verilog_idle :
    (main ⟨Verilog.pqAlu, fun _ => [idle true], fun _ => tbRegs, fun k => BitVec.ofNat 64 k⟩ tables
      7).pass = 0 :=
  (main_verilog (fun _ => tbRegs) (fun k => BitVec.ofNat 64 k) (by simp [idle]) 7).2.2

/-! ## The averages -/

/-- The cycles between the readings `k` and `k + 1`, less the overhead measured by the first two. -/
def correctedTime (T : ℕ → ℕ) (k : ℕ) : ℕ := T (k + 1) - T k - (T 1 - T 0)

/-- Differences of the cut counter are true differences, also when it wraps in between. -/
theorem toNat_sub_cycle {a b : ℕ} (hle : a ≤ b) (hlt : b - a < 2 ^ 32) :
    ((BitVec.ofNat 64 b).setWidth 32 - (BitVec.ofNat 64 a).setWidth 32).toNat = b - a := by
  simp only [BitVec.toNat_sub, BitVec.toNat_setWidth, BitVec.toNat_ofNat]
  omega

theorem toNat_correctedCycles {start stop overhead : BitVec 32} {d o : ℕ}
    (hd : (stop - start).toNat = d) (ho : overhead.toNat = o) :
    (correctedCycles start stop overhead).toNat = d - o := by
  unfold correctedCycles
  subst hd ho
  by_cases h : stop - start > overhead
  · rw [if_pos h, BitVec.toNat_sub_of_le (BitVec.le_def.2 (BitVec.lt_def.1 h).le)]
  · rw [if_neg h, Nat.sub_eq_zero_of_le (not_lt.1 (mt BitVec.lt_def.2 h))]
    rfl

theorem toNat_sum_map (f : ℕ → BitVec 32) (n b : ℕ) (hf : ∀ k, (f k).toNat ≤ b)
    (hn : n * b < 2 ^ 32) :
    ((List.range n).map f).sum.toNat = ∑ k ∈ Finset.range n, (f k).toNat := by
  induction n with
  | zero => rfl
  | succ n ih =>
    have hle : ∑ k ∈ Finset.range n, (f k).toNat ≤ n * b := by
      calc _ ≤ ∑ k ∈ Finset.range n, b := Finset.sum_le_sum fun k _ => hf k
        _ = n * b := by simp
    have hlast := hf n
    rw [Nat.succ_mul] at hn
    rw [List.range_succ, List.map_append, List.sum_append, Finset.sum_range_succ, BitVec.toNat_add,
      ih (by omega)]
    simp only [List.map_cons, List.map_nil, List.sum_cons, List.sum_nil, add_zero]
    exact Nat.mod_eq_of_lt (by omega)

section Latency
variable {σ : Type} {p : Platform σ} {T : ℕ → ℕ} (hT : Monotone T)
  (hcycle : ∀ k, p.cycle k = BitVec.ofNat 64 (T k)) (hshort : ∀ k, T (k + 1) - T k < 2 ^ 28)
include hT hcycle hshort

theorem toNat_correctedCycles_cycle (k : ℕ) {overhead : BitVec 32}
    (ho : overhead.toNat = T 1 - T 0) :
    (correctedCycles ((p.cycle k).setWidth 32) ((p.cycle (k + 1)).setWidth 32) overhead).toNat =
      correctedTime T k := by
  rw [hcycle, hcycle]
  refine toNat_correctedCycles (toNat_sub_cycle (hT (Nat.le_succ k)) ?_) ho
  exact (hshort k).trans (by norm_num)

theorem sampleLoop_latency (s : Cpu σ) {rows : List Row} (hrows : rows.length = 16)
    {overhead : BitVec 32} (ho : overhead.toNat = T 1 - T 0) :
    (sampleLoop p overhead s rows).2.latency.toNat =
        (∑ k ∈ Finset.range 16, correctedTime T (s.reads + 3 * k)) / 16 ∧
      (sampleLoop p overhead s rows).2.iseLatency.toNat =
        (∑ k ∈ Finset.range 16, correctedTime T (s.reads + 3 * k + 1)) / 16 := by
  have htime := fun k => toNat_correctedCycles_cycle hT hcycle hshort k ho
  have hbound : ∀ k, correctedTime T k ≤ 2 ^ 28 - 1 := by
    intro k
    have h := hshort k
    unfold correctedTime
    omega
  obtain ⟨hbase, hise⟩ := sampleSums_latency p overhead s rows
  rw [hrows] at hbase hise
  simp only [sampleLoop, hbase, hise, BitVec.toNat_udiv]
  rw [toNat_sum_map _ 16 (2 ^ 28 - 1) (fun k => by rw [htime]; exact hbound _) (by norm_num),
    toNat_sum_map _ 16 (2 ^ 28 - 1) (fun k => by rw [htime]; exact hbound _) (by norm_num)]
  simp only [htime]
  exact ⟨rfl, rfl⟩

/-- **The reported averages are exact** for every start of the counter, its 32-bit wrap included:
the floor of the mean over the 16 samples of the cycles each took beyond the overhead. -/
theorem latency_exact (t : Tables) (q : σ) :
    let r := main p t q
    let mean first := (∑ k ∈ Finset.range 16, correctedTime T (first + 3 * k)) / 16
    r.cycleOverhead.toNat = T 1 - T 0 ∧
      r.fqmul.latency.toNat = mean 2 ∧ r.fqmul.iseLatency.toNat = mean 3 ∧
      r.reduce.latency.toNat = mean 50 ∧ r.reduce.iseLatency.toNat = mean 51 ∧
      r.ntt.latency.toNat = mean 98 ∧ r.ntt.iseLatency.toNat = mean 99 ∧
      r.intt.latency.toNat = mean 146 ∧ r.intt.iseLatency.toNat = mean 147 := by
  intro r mean
  have ho : ((p.cycle 1).setWidth 32 - (p.cycle 0).setWidth 32 : BitVec 32).toNat = T 1 - T 0 := by
    rw [hcycle, hcycle]
    exact toNat_sub_cycle (hT zero_le_one) ((hshort 0).trans (by norm_num))
  obtain ⟨s₁, s₂, s₃, s₄, ⟨h₁, h₂, h₃, h₄⟩, hmain⟩ := main_loops p t q
  have hloop := fun (s : Cpu σ) (row : Tables → Fin 16 → Row) =>
    sampleLoop_latency hT hcycle hshort s (List.length_ofFn (f := row t)) ho
  have hshift : ∀ a k : ℕ, a + 3 * k + 1 = a + 1 + 3 * k := by
    intro a k
    omega
  simp only [hshift] at hloop
  simp only [r, hmain, summary]
  refine ⟨ho, ?_⟩
  rw [(hloop s₁ fqmulRow).1, (hloop s₁ fqmulRow).2,
    (hloop s₂ reduceRow).1, (hloop s₂ reduceRow).2, (hloop s₃ nttRow).1, (hloop s₃ nttRow).2,
    (hloop s₄ inttRow).1, (hloop s₄ inttRow).2, h₁, h₂, h₃, h₄]
  exact ⟨rfl, rfl, rfl, rfl, rfl, rfl, rfl, rfl⟩

end Latency

/-- A counter that wraps during the run, ten cycles from one reading to the next. -/
theorem latency_exact_wrap :
    (main ⟨Verilog.pqAlu, fun _ => [idle true], fun _ => tbRegs,
      fun k => BitVec.ofNat 64 (2 ^ 32 - 100 + 10 * k)⟩ tables 7).fqmul.latency.toNat =
      (∑ k ∈ Finset.range 16, correctedTime (fun k => 2 ^ 32 - 100 + 10 * k) (2 + 3 * k)) / 16 :=
  (latency_exact (T := fun k => 2 ^ 32 - 100 + 10 * k)
    (fun a b h => Nat.add_le_add_left (Nat.mul_le_mul_left 10 h) _) (fun _ => rfl)
    (fun k => by omega) tables 7).2.1

end KyberNeorv32.SelfTest
