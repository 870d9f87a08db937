import Mathlib

/-!
# `neorv32_kyber_tb.vhd`: the process `track_progress`

The testbench watches the processor through three signals: the reset, the trace port's `valid` and
`halt`, and `gpio_out`. On every rising clock edge `track_progress` takes one `Sample` of them and
runs its body once. `State` holds the process variables; `simulate` folds the body over the samples
and stops at the first verdict (`stop`, or a failed assertion of severity `failure`).

VHDL `natural` variables are `ℕ` here. The subtractions never go below zero (`wellTimed_run`), and
`cycles` never passes `TIMEOUT_CYCLES`, itself a `natural`. Division of `real` by zero does not end
a GHDL simulation; the report is made all the same.

| here | there |
| --- | --- |
| `State` | the variables (`neorv32_kyber_tb.vhd:277-301`) |
| `takeSample`, `resetVars` | `:305-335` |
| `closeStage` | `case last_gpio` (`:339-358` and again `:408-427`) |
| `enterStage` | `:360-389` |
| `onHalt`, `summary` | `:404-447` |
| `sample` | the whole body |
-/

namespace KyberNeorv32.KyberTb

structure Sample where
  rstn : Bool
  valid : Bool
  halt : Bool
  gpioOut : BitVec 32
deriving DecidableEq, Repr

def kyberKeypairStart : BitVec 8 := 0x40
def kyberKeypairDone : BitVec 8 := 0x50
def kyberEncDone : BitVec 8 := 0x60
def kyberDecDone : BitVec 8 := 0x70
def kyberCompare : BitVec 8 := 0x80
def kyberSuccess : BitVec 8 := 0x01

def printPeriod : ℕ := 5000

structure State where
  done : Bool
  curGpio : BitVec 8
  lastGpio : BitVec 8
  cycles : ℕ
  startCycle : ℕ
  endCycle : ℕ
  durCycle : ℕ
  stageStartCycle : ℕ
  keypairCycles : ℕ
  encCycles : ℕ
  decCycles : ℕ
  compareCycles : ℕ
  totalCycles : ℕ
  instrCount : ℕ
  startInstr : ℕ
  endInstr : ℕ
  stageStartInstr : ℕ
  keypairInstr : ℕ
  encInstr : ℕ
  decInstr : ℕ
  compareInstr : ℕ
  totalInstr : ℕ
  kyberStage : String
deriving DecidableEq, Repr

/-- Fill a `string(1 to 50)` from the left. -/
def pad50 (text : String) : String := text.pushn ' ' (50 - text.length)

/-- The initial values of the variables. -/
def initVars : State :=
  ⟨false, 0, 0, 0, 0, 0, 0, 0, 0, 0, 0, 0, 0, 0, 0, 0, 0, 0, 0, 0, 0, 0, pad50 ""⟩

/-- What the reset branch leaves. -/
def resetVars : State := { initVars with kyberStage := pad50 "Idle/Unknown" }

/-- What the process prints on the way. A quotient of reals is kept as its two operands. -/
inductive Report
  | note (text : String)
  | cpi (label : String) (cycles instr : ℕ)
deriving DecidableEq, Repr

inductive Verdict
  | success
  | errorIndication
  | timeout (cycle : ℕ)
deriving DecidableEq, Repr

/-- The two verdicts that are failed assertions. -/
def Verdict.IsFailure : Verdict → Prop
  | .success => False
  | .errorIndication | .timeout _ => True

/-! ## The body, block by block -/

def takeSample (s : State) (x : Sample) : State :=
  { s with
    curGpio := x.gpioOut.extractLsb' 0 8
    cycles := s.cycles + 1
    done := x.valid && x.halt }

/-- Attribute the time since the last change to the stage that `last_gpio` names. -/
def closeStage (s : State) : State :=
  if s.lastGpio = kyberKeypairStart then
    { s with
      keypairCycles := s.cycles - s.stageStartCycle
      keypairInstr := s.instrCount - s.stageStartInstr }
  else if s.lastGpio = kyberKeypairDone then
    { s with
      encCycles := s.cycles - s.stageStartCycle
      encInstr := s.instrCount - s.stageStartInstr }
  else if s.lastGpio = kyberEncDone then
    { s with
      decCycles := s.cycles - s.stageStartCycle
      decInstr := s.instrCount - s.stageStartInstr }
  else if s.lastGpio = kyberDecDone ∨ s.lastGpio = kyberCompare then
    { s with
      compareCycles := s.compareCycles + (s.cycles - s.stageStartCycle)
      compareInstr := s.compareInstr + (s.instrCount - s.stageStartInstr) }
  else s

def stageText (gpio : BitVec 8) : String :=
  if gpio = kyberKeypairStart then "Kyber Keypair Gen. Started!"
  else if gpio = kyberKeypairDone then "Kyber Keypair Gen. Ended! Starting Encode"
  else if gpio = kyberEncDone then "Kyber Encode Ended! Starting Decode"
  else if gpio = kyberDecDone then "Kyber Decode Ended! Starting Compare"
  else if gpio = kyberCompare then "Kyber Decode Ended! Comparing Decoded to Original!"
  else if gpio = kyberSuccess then "Comparison Successful!"
  else "Idle/Unknown"

/-- Start timing the stage that `cur_gpio` names. -/
def enterStage (s : State) : State :=
  { s with
    startCycle := if s.curGpio = kyberKeypairStart then s.cycles else s.startCycle
    startInstr := if s.curGpio = kyberKeypairStart then s.instrCount else s.startInstr
    kyberStage := pad50 (stageText s.curGpio)
    stageStartCycle := s.cycles
    stageStartInstr := s.instrCount
    lastGpio := s.curGpio }

def onChange (s : State) : State :=
  if s.curGpio ≠ s.lastGpio then enterStage (closeStage s) else s

def countInstr (s : State) (x : Sample) : State :=
  { s with instrCount := if x.valid then s.instrCount + 1 else s.instrCount }

def progressVars (s : State) : State :=
  { s with durCycle := if s.cycles % printPeriod = 0 then s.cycles - s.startCycle else s.durCycle }

def progressReport (s : State) : List Report :=
  if s.cycles % printPeriod = 0 then
    [.note ("Total cycles from startup=" ++ toString s.cycles ++
      " Cycles since Kyber Started=" ++ toString s.durCycle ++ " Kyber Stage=" ++ s.kyberStage)]
  else []

/-- The counters at the halt. -/
def onHalt (s : State) : State :=
  let s := closeStage { s with endCycle := s.cycles, endInstr := s.instrCount }
  { s with
    totalCycles := s.endCycle - s.startCycle
    totalInstr := s.endInstr - s.startInstr }

/-- The divisors of the five CPI quotients. -/
def cpiDivisors (s : State) : List ℕ :=
  [s.keypairInstr, s.encInstr, s.decInstr, s.compareInstr, s.totalInstr]

def summary (s : State) : List Report :=
  [.note "Kyber execution summary:",
    .note ("  keypair_cycles=" ++ toString s.keypairCycles),
    .note ("  enc_cycles=" ++ toString s.encCycles),
    .note ("  dec_cycles=" ++ toString s.decCycles),
    .note ("  compare_cycles=" ++ toString s.compareCycles),
    .note ("  total_cycles=" ++ toString s.totalCycles),
    .note ("  keypair_instructions=" ++ toString s.keypairInstr),
    .note ("  enc_instructions=" ++ toString s.encInstr),
    .note ("  dec_instructions=" ++ toString s.decInstr),
    .note ("  compare_instructions=" ++ toString s.compareInstr),
    .note ("  total_instructions=" ++ toString s.totalInstr),
    .cpi "  keypair_cpi=" s.keypairCycles s.keypairInstr,
    .cpi "  enc_cpi=" s.encCycles s.encInstr,
    .cpi "  dec_cpi=" s.decCycles s.decInstr,
    .cpi "  compare_cpi=" s.compareCycles s.compareInstr,
    .cpi "  total_cpi=" s.totalCycles s.totalInstr]

/-- The variables, what was printed, and the verdict that ended the simulation. -/
structure Sim where
  vars : State
  log : List Report
  verdict : Option Verdict
deriving DecidableEq, Repr

def initSim : Sim := ⟨initVars, [], none⟩

/-- The variables after the part of the body that every sample out of reset runs. -/
def track (s : State) (x : Sample) : State :=
  progressVars (countInstr (onChange (takeSample s x)) x)

/-- One rising edge. -/
def sample (timeoutCycles : ℕ) (m : Sim) (x : Sample) : Sim :=
  if m.verdict.isSome then m
  else if x.rstn = false then { m with vars := resetVars }
  else
    let s := track m.vars x
    let log := m.log ++ progressReport s
    if s.done then
      let s := onHalt s
      ⟨s, log ++ summary s,
        some (if x.gpioOut.getLsbD 0 then .success else .errorIndication)⟩
    else if s.cycles ≥ timeoutCycles then ⟨s, log, some (.timeout s.cycles)⟩
    else ⟨s, log, none⟩

def simulate (timeoutCycles : ℕ) (m : Sim) (tr : List Sample) : Sim :=
  tr.foldl (sample timeoutCycles) m

/-- What every sample of `tr` keeps, the whole run keeps. -/
theorem simulate_invariant {P : Sim → Prop} {timeoutCycles : ℕ} {tr : List Sample} {m : Sim}
    (hm : P m) (hstep : ∀ m, ∀ x ∈ tr, P m → P (sample timeoutCycles m x)) :
    P (simulate timeoutCycles m tr) :=
  List.foldlRecOn tr _ hm fun m hm x hx => hstep m x hx hm

/-! ## One edge out of reset -/

section
variable (s : State) (x : Sample)

/-- `closeStage` only writes the eight stage counters. -/
theorem closeStage_frame : (closeStage s).cycles = s.cycles ∧
    (closeStage s).startCycle = s.startCycle ∧
    (closeStage s).stageStartCycle = s.stageStartCycle ∧
    (closeStage s).instrCount = s.instrCount ∧ (closeStage s).startInstr = s.startInstr ∧
    (closeStage s).stageStartInstr = s.stageStartInstr ∧ (closeStage s).done = s.done ∧
    (closeStage s).curGpio = s.curGpio ∧ (closeStage s).lastGpio = s.lastGpio := by
  unfold closeStage
  split_ifs <;> simp

@[simp] theorem track_cycles : (track s x).cycles = s.cycles + 1 := by
  have h := (closeStage_frame (takeSample s x)).1
  by_cases hc : (takeSample s x).curGpio ≠ (takeSample s x).lastGpio
  · simp [track, progressVars, countInstr, onChange, hc, enterStage, h]
    rfl
  · simp [track, progressVars, countInstr, onChange, hc]
    rfl

@[simp] theorem track_done : (track s x).done = (x.valid && x.halt) := by
  obtain ⟨-, -, -, -, -, -, h, -, -⟩ := closeStage_frame (takeSample s x)
  by_cases hc : (takeSample s x).curGpio ≠ (takeSample s x).lastGpio
  · simp [track, progressVars, countInstr, onChange, hc, enterStage, h]
    rfl
  · simp [track, progressVars, countInstr, onChange, hc]
    rfl

/-- The variables after one edge. -/
theorem sample_vars (timeoutCycles : ℕ) (m : Sim) : (sample timeoutCycles m x).vars =
    if m.verdict.isSome then m.vars
    else if x.rstn = false then resetVars
    else if x.valid && x.halt then onHalt (track m.vars x)
    else track m.vars x := by
  unfold sample
  simp only [track_done]
  split_ifs <;> rfl

end

/-! ## No subtraction goes below zero -/

/-- The marks are in the past. -/
structure WellTimed (s : State) : Prop where
  startCycle : s.startCycle ≤ s.cycles
  stageStartCycle : s.stageStartCycle ≤ s.cycles
  startInstr : s.startInstr ≤ s.instrCount
  stageStartInstr : s.stageStartInstr ≤ s.instrCount

theorem wellTimed_takeSample {s : State} (h : WellTimed s) (x : Sample) :
    WellTimed (takeSample s x) := by
  refine ⟨?_, ?_, h.startInstr, h.stageStartInstr⟩
  · exact Nat.le_succ_of_le h.startCycle
  · exact Nat.le_succ_of_le h.stageStartCycle

theorem wellTimed_closeStage {s : State} (h : WellTimed s) : WellTimed (closeStage s) := by
  obtain ⟨h1, h2, h3, h4, h5, h6, -, -, -⟩ := closeStage_frame s
  refine ⟨?_, ?_, ?_, ?_⟩
  · rw [h1, h2]; exact h.startCycle
  · rw [h1, h3]; exact h.stageStartCycle
  · rw [h4, h5]; exact h.startInstr
  · rw [h4, h6]; exact h.stageStartInstr

theorem wellTimed_enterStage {s : State} (h : WellTimed s) : WellTimed (enterStage s) := by
  refine ⟨?_, le_rfl, ?_, le_rfl⟩
  · by_cases hc : s.curGpio = kyberKeypairStart
    · simp [enterStage, hc]
    · simpa [enterStage, hc] using h.startCycle
  · by_cases hc : s.curGpio = kyberKeypairStart
    · simp [enterStage, hc]
    · simpa [enterStage, hc] using h.startInstr

theorem wellTimed_onChange {s : State} (h : WellTimed s) : WellTimed (onChange s) := by
  unfold onChange
  split_ifs
  · exact wellTimed_enterStage (wellTimed_closeStage h)
  · exact h

theorem wellTimed_countInstr {s : State} (h : WellTimed s) (x : Sample) :
    WellTimed (countInstr s x) := by
  refine ⟨h.startCycle, h.stageStartCycle, ?_, ?_⟩
  · cases hv : x.valid with
    | true => simpa [countInstr, hv] using Nat.le_succ_of_le h.startInstr
    | false => simpa [countInstr, hv] using h.startInstr
  · cases hv : x.valid with
    | true => simpa [countInstr, hv] using Nat.le_succ_of_le h.stageStartInstr
    | false => simpa [countInstr, hv] using h.stageStartInstr

theorem wellTimed_progressVars {s : State} (h : WellTimed s) : WellTimed (progressVars s) :=
  ⟨h.startCycle, h.stageStartCycle, h.startInstr, h.stageStartInstr⟩

theorem wellTimed_track {s : State} (h : WellTimed s) (x : Sample) : WellTimed (track s x) :=
  wellTimed_progressVars (wellTimed_countInstr (wellTimed_onChange (wellTimed_takeSample h x)) x)

theorem wellTimed_onHalt {s : State} (h : WellTimed s) : WellTimed (onHalt s) := by
  have h' : WellTimed { s with endCycle := s.cycles, endInstr := s.instrCount } :=
    ⟨h.startCycle, h.stageStartCycle, h.startInstr, h.stageStartInstr⟩
  have h'' := wellTimed_closeStage h'
  exact ⟨h''.startCycle, h''.stageStartCycle, h''.startInstr, h''.stageStartInstr⟩

theorem wellTimed_sample {timeoutCycles : ℕ} {m : Sim} (h : WellTimed m.vars) (x : Sample) :
    WellTimed (sample timeoutCycles m x).vars := by
  rw [sample_vars]
  split_ifs
  · exact h
  · exact ⟨le_rfl, le_rfl, le_rfl, le_rfl⟩
  · exact wellTimed_onHalt (wellTimed_track h x)
  · exact wellTimed_track h x

/-- In every state of every run. -/
theorem wellTimed_run (timeoutCycles : ℕ) (tr : List Sample) :
    WellTimed (simulate timeoutCycles initSim tr).vars := by
  apply simulate_invariant (P := fun m => WellTimed m.vars)
  · exact ⟨le_rfl, le_rfl, le_rfl, le_rfl⟩
  · intro m x _ hm
    exact wellTimed_sample hm x

/-! ## Stages and their codes -/

/-- Only `onChange` writes the stage and its label. -/
theorem track_stage (s : State) (x : Sample) :
    (track s x).lastGpio = (onChange (takeSample s x)).lastGpio ∧
      (track s x).kyberStage = (onChange (takeSample s x)).kyberStage := by
  generalize hs : onChange (takeSample s x) = s'
  simp only [track, hs]
  exact ⟨rfl, rfl⟩

/-- The label in the progress reports names the value on the port, once there was one. -/
def Labelled (s : State) : Prop := s.lastGpio ≠ 0 → s.kyberStage = pad50 (stageText s.lastGpio)

theorem track_label {s : State} (h : Labelled s) (x : Sample) :
    (track s x).lastGpio = x.gpioOut.extractLsb' 0 8 ∧ Labelled (track s x) := by
  obtain ⟨hlast, hstage⟩ := track_stage s x
  unfold Labelled
  rw [hlast, hstage]
  by_cases hc : (takeSample s x).curGpio = (takeSample s x).lastGpio
  · rw [show onChange (takeSample s x) = takeSample s x by simp [onChange, hc]]
    exact ⟨hc.symm, h⟩
  · obtain ⟨-, -, -, -, -, -, -, hcur, -⟩ := closeStage_frame (takeSample s x)
    rw [show onChange (takeSample s x) = enterStage (closeStage (takeSample s x)) by
      simp [onChange, hc]]
    exact ⟨hcur, fun _ => rfl⟩

theorem onHalt_stage (s : State) :
    (onHalt s).lastGpio = s.lastGpio ∧ (onHalt s).kyberStage = s.kyberStage := by
  unfold onHalt closeStage
  split_ifs <;> exact ⟨rfl, rfl⟩

theorem labelled_sample {timeoutCycles : ℕ} {m : Sim} (h : Labelled m.vars) (x : Sample) :
    Labelled (sample timeoutCycles m x).vars := by
  rw [sample_vars]
  split_ifs
  · exact h
  · exact fun hne => absurd rfl hne
  · unfold Labelled
    rw [(onHalt_stage _).1, (onHalt_stage _).2]
    exact (track_label h x).2
  · exact (track_label h x).2

theorem labelled_run (timeoutCycles : ℕ) (tr : List Sample) :
    Labelled (simulate timeoutCycles initSim tr).vars := by
  apply simulate_invariant (P := fun m => Labelled m.vars)
  · exact fun hne => absurd rfl hne
  · intro m x _ hm
    exact labelled_sample hm x

/-- The four stages that have counters. -/
inductive KemStage
  | keypair
  | enc
  | dec
  | compare
deriving DecidableEq, Repr

def State.stageCycles (s : State) : KemStage → ℕ
  | .keypair => s.keypairCycles
  | .enc => s.encCycles
  | .dec => s.decCycles
  | .compare => s.compareCycles

def State.stageInstr (s : State) : KemStage → ℕ
  | .keypair => s.keypairInstr
  | .enc => s.encInstr
  | .dec => s.decInstr
  | .compare => s.compareInstr

/-- The codes that start a timed stage. -/
def stageCodes : List (BitVec 8) :=
  [kyberKeypairStart, kyberKeypairDone, kyberEncDone, kyberDecDone, kyberCompare]

theorem closeStage_of_not_mem {s : State} (h : s.lastGpio ∉ stageCodes) : closeStage s = s := by
  simp only [stageCodes, List.mem_cons, List.not_mem_nil, or_false, not_or] at h
  obtain ⟨h1, h2, h3, h4, h5⟩ := h
  simp [closeStage, h1, h2, h3, h4, h5]

/-- No stage has been seen so far. -/
structure Unstaged (s : State) : Prop where
  lastGpio : s.lastGpio ∉ stageCodes
  stageCycles : ∀ st, s.stageCycles st = 0
  stageInstr : ∀ st, s.stageInstr st = 0

/-- Blocks that leave the stage counters alone, field by field. -/
theorem Unstaged.congr {s s' : State} (h : Unstaged s) (hl : s'.lastGpio ∉ stageCodes)
    (hf : ∀ st, s'.stageCycles st = s.stageCycles st ∧ s'.stageInstr st = s.stageInstr st := by
      intro st; cases st <;> exact ⟨rfl, rfl⟩) : Unstaged s' := by
  refine ⟨hl, ?_, ?_⟩
  · intro st
    rw [(hf st).1, h.stageCycles]
  · intro st
    rw [(hf st).2, h.stageInstr]

theorem unstaged_init : Unstaged initVars := by
  refine ⟨by decide, ?_, ?_⟩
  · intro st; cases st <;> rfl
  · intro st; cases st <;> rfl

theorem unstaged_reset : Unstaged resetVars := unstaged_init.congr unstaged_init.lastGpio

theorem unstaged_onChange {s : State} (h : Unstaged s) (hcur : s.curGpio ∉ stageCodes) :
    Unstaged (onChange s) := by
  unfold onChange
  rw [closeStage_of_not_mem h.lastGpio]
  split_ifs
  · exact h.congr hcur
  · exact h

theorem unstaged_countInstr {s : State} (h : Unstaged s) (x : Sample) :
    Unstaged (countInstr s x) := h.congr h.lastGpio

theorem unstaged_progressVars {s : State} (h : Unstaged s) : Unstaged (progressVars s) :=
  h.congr h.lastGpio

theorem unstaged_track {s : State} (h : Unstaged s) {x : Sample}
    (hx : x.gpioOut.extractLsb' 0 8 ∉ stageCodes) : Unstaged (track s x) := by
  have htake : Unstaged (takeSample s x) := h.congr h.lastGpio
  exact unstaged_progressVars (unstaged_countInstr (unstaged_onChange htake hx) x)

theorem unstaged_onHalt {s : State} (h : Unstaged s) : Unstaged (onHalt s) := by
  have hmarks : Unstaged { s with endCycle := s.cycles, endInstr := s.instrCount } :=
    h.congr h.lastGpio
  unfold onHalt
  rw [closeStage_of_not_mem hmarks.lastGpio]
  exact hmarks.congr h.lastGpio

theorem unstaged_sample {timeoutCycles : ℕ} {m : Sim} (h : Unstaged m.vars) {x : Sample}
    (hx : x.rstn = false ∨ x.gpioOut.extractLsb' 0 8 ∉ stageCodes) :
    Unstaged (sample timeoutCycles m x).vars := by
  rw [sample_vars]
  split_ifs with _ hr
  · exact h
  · exact unstaged_reset
  · exact unstaged_onHalt (unstaged_track h (hx.resolve_left hr))
  · exact unstaged_track h (hx.resolve_left hr)

/-- A run that never shows a stage code leaves all eight stage counters at 0. -/
theorem unstaged_simulate (timeoutCycles : ℕ) {tr : List Sample}
    (htr : ∀ x ∈ tr, x.rstn = false ∨ x.gpioOut.extractLsb' 0 8 ∉ stageCodes) {m : Sim}
    (h : Unstaged m.vars) : Unstaged (simulate timeoutCycles m tr).vars := by
  apply simulate_invariant (P := fun m => Unstaged m.vars) h
  intro m x hx hm
  exact unstaged_sample hm (htr x hx)

/-! ## The verdict -/

/-- A sample out of reset that is not the halt. -/
def Sample.Busy (x : Sample) : Prop := x.rstn = true ∧ (x.valid && x.halt) = false

theorem simulate_append (timeoutCycles : ℕ) (m : Sim) (as bs : List Sample) :
    simulate timeoutCycles m (as ++ bs) =
      simulate timeoutCycles (simulate timeoutCycles m as) bs := List.foldl_append ..

/-- After a verdict nothing happens any more. -/
theorem simulate_of_verdict (timeoutCycles : ℕ) {m : Sim} (h : m.verdict.isSome = true)
    (tr : List Sample) : simulate timeoutCycles m tr = m := by
  apply simulate_invariant (P := fun m' => m' = m) rfl
  rintro _ x _ rfl
  simp [sample, h]

theorem simulate_reset (timeoutCycles : ℕ) {tr : List Sample} (h : ∀ x ∈ tr, x.rstn = false)
    {m : Sim} (hm : m.verdict = none) :
    simulate timeoutCycles m tr = if tr = [] then m else { m with vars := resetVars } := by
  induction tr generalizing m with
  | nil => rfl
  | cons x tr ih =>
    have hx : sample timeoutCycles m x = { m with vars := resetVars } := by
      simp [sample, hm, h x (by simp)]
    change simulate timeoutCycles (sample timeoutCycles m x) tr = _
    rw [hx, ih (fun y hy => h y (by simp [hy])) (m := { m with vars := resetVars }) hm]
    simp

/-- A busy sample only tracks, and may run into the timeout. -/
theorem sample_busy (timeoutCycles : ℕ) {m : Sim} (hm : m.verdict = none) {x : Sample}
    (hx : x.Busy) :
    (sample timeoutCycles m x).vars = track m.vars x ∧
      (sample timeoutCycles m x).verdict =
        if timeoutCycles ≤ m.vars.cycles + 1 then some (.timeout (m.vars.cycles + 1)) else none := by
  obtain ⟨hr, hd⟩ := hx
  by_cases ht : timeoutCycles ≤ m.vars.cycles + 1
  · simp [sample, hm, hr, hd, ht]
  · simp [sample, hm, hr, hd, ht]

/-- The halt sample gives the verdict that bit 0 of the GPIO port names. -/
theorem sample_halt (timeoutCycles : ℕ) {m : Sim} (hm : m.verdict = none) {x : Sample}
    (hr : x.rstn = true) (hd : (x.valid && x.halt) = true) :
    (sample timeoutCycles m x).vars = onHalt (track m.vars x) ∧
      (sample timeoutCycles m x).verdict =
        some (if x.gpioOut.getLsbD 0 then .success else .errorIndication) := by
  simp [sample, hm, hr, hd]

/-- The first sample whose count reaches the timeout. Every sample counts at least 1. -/
def deadline (timeoutCycles : ℕ) : ℕ := max 1 timeoutCycles

/-- **The run lemma**: busy samples go on until the deadline, and not beyond. -/
theorem simulate_busy (timeoutCycles : ℕ) {tr : List Sample} (h : ∀ x ∈ tr, x.Busy) {m : Sim}
    (hm : m.verdict = none) (hc : m.vars.cycles < deadline timeoutCycles) :
    (m.vars.cycles + tr.length < deadline timeoutCycles →
      (simulate timeoutCycles m tr).verdict = none ∧
        (simulate timeoutCycles m tr).vars.cycles = m.vars.cycles + tr.length) ∧
    (deadline timeoutCycles ≤ m.vars.cycles + tr.length →
      (simulate timeoutCycles m tr).verdict = some (.timeout (deadline timeoutCycles))) := by
  induction tr generalizing m with
  | nil =>
    refine ⟨fun _ => ⟨hm, rfl⟩, fun hle => ?_⟩
    exact absurd hle (Nat.not_le_of_lt hc)
  | cons x tr ih =>
    obtain ⟨hvars, hverdict⟩ := sample_busy timeoutCycles hm (h x (by simp))
    have hcycles : (sample timeoutCycles m x).vars.cycles = m.vars.cycles + 1 := by
      rw [hvars, track_cycles]
    have hsim : simulate timeoutCycles m (x :: tr) =
        simulate timeoutCycles (sample timeoutCycles m x) tr := rfl
    have hlen : m.vars.cycles + (x :: tr).length = m.vars.cycles + 1 + tr.length := by
      simp [Nat.add_comm, Nat.add_left_comm]
    rw [hsim, hlen]
    by_cases ht : timeoutCycles ≤ m.vars.cycles + 1
    · -- this sample reaches the deadline
      have hd : deadline timeoutCycles = m.vars.cycles + 1 := by
        unfold deadline at hc ⊢
        omega
      rw [if_pos ht] at hverdict
      have hstop := simulate_of_verdict timeoutCycles (m := sample timeoutCycles m x)
        (by rw [hverdict]; rfl) tr
      rw [hstop, hverdict, hd]
      exact ⟨fun hlt => absurd hlt (by omega), fun _ => rfl⟩
    · rw [if_neg ht] at hverdict
      have hc' : (sample timeoutCycles m x).vars.cycles < deadline timeoutCycles := by
        rw [hcycles]
        unfold deadline
        omega
      have h' := ih (fun y hy => h y (by simp [hy])) hverdict hc'
      rw [hcycles] at h'
      exact h'

/-- Below the timeout, busy samples only track. -/
theorem simulate_busy_vars (timeoutCycles : ℕ) {tr : List Sample} (h : ∀ x ∈ tr, x.Busy) {m : Sim}
    (hm : m.verdict = none) (hc : m.vars.cycles + tr.length < timeoutCycles) :
    (simulate timeoutCycles m tr).verdict = none ∧
      (simulate timeoutCycles m tr).vars = tr.foldl track m.vars := by
  induction tr generalizing m with
  | nil => exact ⟨hm, rfl⟩
  | cons x tr ih =>
    rw [List.length_cons] at hc
    obtain ⟨hvars, hverdict⟩ := sample_busy timeoutCycles hm (h x (by simp))
    rw [if_neg (by omega)] at hverdict
    have hcycles : (sample timeoutCycles m x).vars.cycles = m.vars.cycles + 1 := by
      rw [hvars, track_cycles]
    have hrest := ih (fun y hy => h y (by simp [hy])) hverdict (by omega)
    rw [hvars] at hrest
    exact hrest

end KyberNeorv32.KyberTb
