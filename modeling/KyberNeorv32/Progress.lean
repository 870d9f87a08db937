import KyberNeorv32.KyberRun

/-!
# The firmware seen by the testbench: the progress protocol

The testbench times four stages by the codes `0x40` to `0x80` on the GPIO port. None of the
firmware's thirteen codes is one of them (`value_not_mem_stageCodes`), so the stage counters stay 0
in every run (`unstaged_run`) and four of the five CPI quotients divide by 0; and the first code
the firmware writes, `KYBER_GPIO_INIT`, is the testbench's `KYBER_SUCCESS`. The two tables disagree
in every successful run, in all three respects: `progress_never_ok`.
-/

namespace KyberNeorv32.KyberRun

open KyberTb KyberBasic

/-! ## The two tables -/

/-- The six codes of the testbench, by name. -/
inductive TbCode
  | keypairStart
  | keypairDone
  | encDone
  | decDone
  | compare
  | success
deriving DecidableEq, Repr

/-- What the testbench takes a value on `gpio_out(7 downto 0)` for. -/
def tbCode (gpio : BitVec 8) : Option TbCode :=
  if gpio = kyberKeypairStart then some .keypairStart
  else if gpio = kyberKeypairDone then some .keypairDone
  else if gpio = kyberEncDone then some .encDone
  else if gpio = kyberDecDone then some .decDone
  else if gpio = kyberCompare then some .compare
  else if gpio = kyberSuccess then some .success
  else none

/-- What the firmware means: the constant of the same name, if the testbench has it. -/
def meaning : GpioCode → Option TbCode
  | .keypairStart => some .keypairStart
  | .keypairDone => some .keypairDone
  | .encDone => some .encDone
  | .decDone => some .decDone
  | .compare => some .compare
  | .success => some .success
  | .init | .entropyReady | .rngReady | .errKeypair | .errEnc | .errDec | .errCompare => none

theorem value_not_mem_stageCodes (c : GpioCode) : c.value.extractLsb' 0 8 ∉ stageCodes := by
  cases c <;> decide

/-- `KYBER_GPIO_INIT` is the only value that the testbench takes for one of its codes. -/
theorem tbCode_value (c : GpioCode) : tbCode (c.value.extractLsb' 0 8) =
    if c = .init then some .success else none := by
  cases c <;> decide

/-! ## What a run shows -/

variable {n : ℕ}

/-- The GPIO port after the reset of the processor. -/
def gpioReset : BitVec 32 := 0

/-- Every sample shows the starting value or a value that was written. -/
theorem samples_gpioOut (stage : Stage → List Tick) (g : BitVec 32) (actions : List Action) :
    ∀ x ∈ samples stage g actions, x.gpioOut = g ∨ ∃ c : GpioCode, x.gpioOut = c.value := by
  induction actions generalizing g with
  | nil => simp [samples]
  | cons a actions ih =>
    cases a with
    | gpioSet code =>
      intro x hx
      rcases ih code.value x hx with h | h
      · exact Or.inr ⟨code, h⟩
      · exact Or.inr h
    | work s =>
      intro x hx
      rcases List.mem_append.1 hx with hx | hx
      · obtain ⟨t, -, rfl⟩ := List.mem_map.1 hx
        exact Or.inl rfl
      · exact ih g x hx

theorem gpioAfter_main_code (g : BitVec 32) (k : Kem n) :
    ∃ c : GpioCode, gpioAfter g (main k).actions = c.value := by
  rw [gpioAfter_main]
  split_ifs
  · exact ⟨_, rfl⟩
  · exact ⟨_, rfl⟩

/-- No sample out of reset shows a stage code. -/
theorem trace_not_mem_stageCodes (t : Timing) (k : Kem n) : ∀ x ∈ trace gpioReset t k,
    x.rstn = false ∨ x.gpioOut.extractLsb' 0 8 ∉ stageCodes := by
  have hcode : ∀ x : Sample, (x.gpioOut = gpioReset ∨ ∃ c : GpioCode, x.gpioOut = c.value) →
      x.gpioOut.extractLsb' 0 8 ∉ stageCodes := by
    rintro x (h | ⟨c, h⟩)
    · rw [h]; decide
    · rw [h]; exact value_not_mem_stageCodes c
  obtain ⟨c, hc⟩ := gpioAfter_main_code gpioReset k
  intro x hx
  simp only [trace, busySamples, List.mem_append, List.mem_map, List.mem_singleton] at hx
  rcases hx with hx | (hx | ⟨s, -, rfl⟩) | rfl
  · exact Or.inl (t.reset_low x hx)
  · exact Or.inr (hcode x (samples_gpioOut _ _ _ x hx))
  · exact Or.inr (hcode _ (Or.inr ⟨c, hc⟩))
  · exact Or.inr (hcode _ (Or.inr ⟨c, hc⟩))

/-- The variables of the testbench at the end of the simulation. -/
def finalVars (timeoutCycles : ℕ) (t : Timing) (k : Kem n) : State :=
  (simulate timeoutCycles initSim (trace gpioReset t k)).vars

/-- **No run starts a stage counter**, whatever its outcome and its timing. -/
theorem unstaged_run (timeoutCycles : ℕ) (t : Timing) (k : Kem n) :
    Unstaged (finalVars timeoutCycles t k) :=
  unstaged_simulate timeoutCycles (trace_not_mem_stageCodes t k) unstaged_init

/-! ## The protocol -/

/-- The firmware's work in a timed stage. -/
def workOf : KemStage → Stage
  | .keypair => .keypair
  | .enc => .enc
  | .dec => .dec
  | .compare => .compare

/-- Clock cycles and retired instructions of a stage in a run. -/
def stageLength (t : Timing) (st : KemStage) : ℕ := (t.stage (workOf st)).length
def stageRetired (t : Timing) (st : KemStage) : ℕ := (t.stage (workOf st)).countP (·.valid)

/-- The run reaches its halt before the testbench gives up. -/
def Halts (timeoutCycles : ℕ) (t : Timing) (k : Kem n) : Prop :=
  haltCycle t k ≤ deadline timeoutCycles

/-- Firmware and testbench agree on the progress of a run: at the halt on the counters and the
quotients of the summary, and whether it halts or not on the codes. -/
structure ProgressOk (timeoutCycles : ℕ) (t : Timing) (k : Kem n) : Prop where
  measures : Halts timeoutCycles t k →
    ∀ st, (finalVars timeoutCycles t k).stageCycles st = stageLength t st ∧
      (finalVars timeoutCycles t k).stageInstr st = stageRetired t st
  codes : ∀ c, .gpioSet c ∈ (main k).actions → ∀ e,
    tbCode (c.value.extractLsb' 0 8) = some e → meaning c = some e
  divisors : Halts timeoutCycles t k → ∀ d ∈ cpiDivisors (finalVars timeoutCycles t k), d ≠ 0

/-- The label that is left at the halt is the one of the success code. -/
theorem halt_label {timeoutCycles : ℕ} {t : Timing} {k : Kem n} (hhalt : Halts timeoutCycles t k)
    (hok : AllOk k) :
    (finalVars timeoutCycles t k).kyberStage = pad50 "Comparison Successful!" := by
  have hbefore := simulate_before_halt timeoutCycles gpioReset t k
  rw [if_pos (show haltCycle t k ≤ deadline timeoutCycles from hhalt)] at hbefore
  have hlabelled := labelled_run timeoutCycles (t.reset ++ busySamples gpioReset t k)
  unfold finalVars trace
  rw [← List.append_assoc, simulate_append]
  generalize simulate timeoutCycles initSim (t.reset ++ busySamples gpioReset t k) = m at *
  have hgpio : gpioAfter gpioReset (main k).actions = GpioCode.init.value := by
    rw [gpioAfter_main, if_neg fun hdec => hdec.2.2 hok.2.2.1]
  have hvars := (sample_halt timeoutCycles hbefore
    (x := haltSample (gpioAfter gpioReset (main k).actions)) rfl rfl).1
  obtain ⟨hlast, hlabel⟩ := track_label hlabelled (haltSample (gpioAfter gpioReset (main k).actions))
  change (sample timeoutCycles m _).vars.kyberStage = _
  rw [hvars, (onHalt_stage _).2]
  rw [hgpio] at hlast hlabel ⊢
  rw [hlabel (by rw [hlast]; decide), hlast]
  rfl

/-- **They never agree.** In every run of `main` that returns 0 and spends at least one cycle and
one instruction in each stage, every stage counter is wrong, `KYBER_GPIO_INIT` is taken for the
testbench's success code, and the CPI quotients of all four stages divide by 0. A run that reaches
its halt in time is labelled as compared and reported as a success for all that; the others end at
the deadline. -/
theorem progress_never_ok (timeoutCycles : ℕ) (t : Timing) (k : Kem n) (hk : (main k).rc = 0)
    (ht : ∀ st, 1 ≤ stageLength t st ∧ 1 ≤ stageRetired t st) :
    ¬ ProgressOk timeoutCycles t k ∧
    (∀ st, (finalVars timeoutCycles t k).stageCycles st ≠ stageLength t st ∧
      (finalVars timeoutCycles t k).stageInstr st ≠ stageRetired t st) ∧
    (∃ c, .gpioSet c ∈ (main k).actions ∧
      tbCode (c.value.extractLsb' 0 8) = some .success ∧ meaning c = none) ∧
    (∀ st, (finalVars timeoutCycles t k).stageInstr st = 0 ∧
      (finalVars timeoutCycles t k).stageInstr st ∈ cpiDivisors (finalVars timeoutCycles t k)) ∧
    (Halts timeoutCycles t k → verdict timeoutCycles gpioReset t k = some .success ∧
      (finalVars timeoutCycles t k).kyberStage = pad50 "Comparison Successful!") ∧
    (¬ Halts timeoutCycles t k →
      verdict timeoutCycles gpioReset t k = some (.timeout (deadline timeoutCycles))) := by
  have hun := unstaged_run timeoutCycles t k
  have hwrong : ∀ st, (finalVars timeoutCycles t k).stageCycles st ≠ stageLength t st ∧
      (finalVars timeoutCycles t k).stageInstr st ≠ stageRetired t st := by
    intro st
    rw [hun.stageCycles st, hun.stageInstr st]
    obtain ⟨h1, h2⟩ := ht st
    exact ⟨by omega, by omega⟩
  have hinit : Action.gpioSet .init ∈ (main k).actions := by
    rcases main_cases k with ⟨-, hm⟩ | ⟨-, -, hm⟩ | ⟨-, -, -, hm⟩ | ⟨-, -, -, -, hm, -⟩ | ⟨-, hm⟩
    all_goals simp [hm]
  have hcode : tbCode (GpioCode.init.value.extractLsb' 0 8) = some .success := by
    rw [tbCode_value, if_pos rfl]
  have hok := (main_rc_eq_zero k).1 hk
  refine ⟨?_, hwrong, ⟨.init, hinit, hcode, rfl⟩, ?_, ?_, ?_⟩
  · intro h
    exact absurd (h.codes .init hinit .success hcode) (by decide)
  · intro st
    refine ⟨hun.stageInstr st, ?_⟩
    cases st <;> simp [State.stageInstr, cpiDivisors]
  · intro hhalt
    refine ⟨?_, halt_label hhalt hok⟩
    rw [verdict_eq]
    exact (if_pos hhalt).trans (by rw [if_neg fun hdec => hdec.2.2 hok.2.2.1])
  · intro hhalt
    rw [verdict_eq]
    exact if_neg hhalt

/-- Everything succeeds, on shared secrets of 32 zero bytes. -/
def allGood : Kem 32 := ⟨0, 0, 0, Vector.replicate 32 0, Vector.replicate 32 0⟩

theorem allGood_rc : (main allGood).rc = 0 := (main_rc_eq_zero _).2 ⟨rfl, rfl, rfl, fun _ => rfl⟩

theorem progress_never_ok_brief : ¬ ProgressOk 100000000 briefTiming allGood :=
  (progress_never_ok 100000000 briefTiming allGood allGood_rc
    (fun st => by cases st <;> decide)).1

theorem allGood_halts : Halts 100000000 briefTiming allGood := by
  have hok := (main_rc_eq_zero allGood).1 allGood_rc
  rcases main_cases allGood with ⟨h, -⟩ | ⟨-, h, -⟩ | ⟨-, -, h, -⟩ | ⟨-, -, -, h, -⟩ | ⟨-, hm⟩
  · exact absurd hok.1 h
  · exact absurd hok.2.1 h
  · exact absurd hok.2.2.1 h
  · exact absurd hok.2.2.2 h
  · rw [Halts, haltCycle, hm]
    decide

/-- The shortest such run: one sample and one instruction in key generation, none counted. -/
theorem progress_brief_run : (main allGood).rc = 0 ∧ Halts 100000000 briefTiming allGood ∧
    stageLength briefTiming .keypair = 1 ∧
    (finalVars 100000000 briefTiming allGood).keypairCycles = 0 ∧
    (finalVars 100000000 briefTiming allGood).keypairInstr = 0 ∧
    tbCode (GpioCode.init.value.extractLsb' 0 8) = some .success ∧
    ¬ ProgressOk 100000000 briefTiming allGood := by
  have hun := unstaged_run 100000000 briefTiming allGood
  have hcycles : (finalVars 100000000 briefTiming allGood).keypairCycles = 0 :=
    hun.stageCycles .keypair
  refine ⟨allGood_rc, allGood_halts, rfl, hcycles, hun.stageInstr .keypair, by decide, ?_⟩
  intro h
  have hm := (h.measures allGood_halts .keypair).1
  rw [hun.stageCycles .keypair] at hm
  exact absurd hm (by decide)

end KyberNeorv32.KyberRun
