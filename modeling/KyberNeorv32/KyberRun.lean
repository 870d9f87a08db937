import KyberNeorv32.KyberTb
import KyberNeorv32.KyberBasic

/-!
# The firmware seen by the testbench: the verdict

A simulation is the firmware's `main` at any speed. `Timing` gives the clock samples of every piece
of work, with an arbitrary trace port that does not yet halt; a write to the GPIO port holds from
the next sample on, also after `main` has returned; returning makes the trace port halt after any
number of further samples. `trace` is what `track_progress` then sees.

`simulate_verdict` gives the verdict of every simulation: the deadline's, or the one that bit 0 of
the last written value names. `KYBER_GPIO_INIT` has that bit set and only a failed decapsulation
clears it, so three kinds of failure are reported as success (`verdict_ok_iff`).
-/

namespace KyberNeorv32.KyberRun

open KyberTb KyberBasic

/-- One clock cycle in which the trace port reports no halt. -/
structure Tick where
  valid : Bool
  halt : Bool
  running : (valid && halt) = false
deriving DecidableEq

def Tick.sample (t : Tick) (g : BitVec 32) : Sample := ⟨true, t.valid, t.halt, g⟩

structure Timing where
  /-- The samples taken while `rstn` is low. -/
  reset : List Sample
  reset_low : ∀ x ∈ reset, x.rstn = false
  stage : Stage → List Tick
  /-- From the return of `main` up to the halt. -/
  exit : List Tick

variable {n : ℕ}

/-- The samples during a list of actions, from the port value `g` on. -/
def samples (stage : Stage → List Tick) : BitVec 32 → List Action → List Sample
  | _, [] => []
  | _, .gpioSet code :: actions => samples stage code.value actions
  | g, .work s :: actions => (stage s).map (·.sample g) ++ samples stage g actions

/-- The samples of a run up to the halt. -/
def busySamples (g : BitVec 32) (t : Timing) (k : Kem n) : List Sample :=
  samples t.stage g (main k).actions ++ t.exit.map (·.sample (gpioAfter g (main k).actions))

def haltSample (g : BitVec 32) : Sample := ⟨true, true, true, g⟩

/-- The whole simulation, with `g` on the port before the first write. -/
def trace (g : BitVec 32) (t : Timing) (k : Kem n) : List Sample :=
  t.reset ++ (busySamples g t k ++ [haltSample (gpioAfter g (main k).actions)])

/-- The number of the halt sample, counted from the reset. -/
def haltCycle (t : Timing) (k : Kem n) : ℕ :=
  ((main k).actions.map fun
    | .gpioSet _ => 0
    | .work s => (t.stage s).length).sum + t.exit.length + 1

def verdict (timeoutCycles : ℕ) (g : BitVec 32) (t : Timing) (k : Kem n) : Option Verdict :=
  (simulate timeoutCycles initSim (trace g t k)).verdict

/-! ## The samples of a run -/

theorem samples_busy (stage : Stage → List Tick) (g : BitVec 32) (actions : List Action) :
    ∀ x ∈ samples stage g actions, x.Busy := by
  induction actions generalizing g with
  | nil => simp [samples]
  | cons a actions ih =>
    cases a with
    | gpioSet code => exact ih code.value
    | work s =>
      intro x hx
      rcases List.mem_append.1 hx with hx | hx
      · obtain ⟨t, -, rfl⟩ := List.mem_map.1 hx
        exact ⟨rfl, t.running⟩
      · exact ih g x hx

theorem length_samples (stage : Stage → List Tick) (g : BitVec 32) (actions : List Action) :
    (samples stage g actions).length = (actions.map fun
      | .gpioSet _ => 0
      | .work s => (stage s).length).sum := by
  induction actions generalizing g with
  | nil => rfl
  | cons a actions ih =>
    cases a with
    | gpioSet code => simp [samples, ih]
    | work s => simp [samples, ih]

theorem busySamples_busy (g : BitVec 32) (t : Timing) (k : Kem n) :
    ∀ x ∈ busySamples g t k, x.Busy := by
  intro x hx
  rcases List.mem_append.1 hx with hx | hx
  · exact samples_busy t.stage g _ x hx
  · obtain ⟨s, -, rfl⟩ := List.mem_map.1 hx
    exact ⟨rfl, s.running⟩

theorem length_busySamples (g : BitVec 32) (t : Timing) (k : Kem n) :
    (busySamples g t k).length + 1 = haltCycle t k := by
  simp [busySamples, haltCycle, length_samples]

/-! ## The verdict -/

/-- Up to the halt only the deadline ends a simulation. -/
theorem simulate_before_halt (timeoutCycles : ℕ) (g : BitVec 32) (t : Timing) (k : Kem n) :
    (simulate timeoutCycles initSim (t.reset ++ busySamples g t k)).verdict =
      if haltCycle t k ≤ deadline timeoutCycles then none
      else some (.timeout (deadline timeoutCycles)) := by
  rw [simulate_append, simulate_reset timeoutCycles t.reset_low rfl]
  generalize hm : (if t.reset = [] then initSim else { initSim with vars := resetVars }) = m
  have hnone : m.verdict = none := by rw [← hm]; split_ifs <;> rfl
  have hzero : m.vars.cycles = 0 := by rw [← hm]; split_ifs <;> rfl
  have hlen := length_busySamples g t k
  obtain ⟨hgo, hstop⟩ := simulate_busy timeoutCycles (busySamples_busy g t k) hnone
    (by rw [hzero]; unfold deadline; omega)
  rw [hzero, Nat.zero_add] at hgo hstop
  by_cases hT : haltCycle t k ≤ deadline timeoutCycles
  · rw [if_pos hT]
    exact (hgo (by omega)).1
  · rw [if_neg hT]
    exact hstop (by omega)

/-- **The verdict of every simulation.** -/
theorem simulate_verdict (timeoutCycles : ℕ) (g : BitVec 32) (t : Timing) (k : Kem n) :
    verdict timeoutCycles g t k =
      if haltCycle t k ≤ deadline timeoutCycles then
        some (if (gpioAfter g (main k).actions).getLsbD 0 then .success else .errorIndication)
      else some (.timeout (deadline timeoutCycles)) := by
  have hbefore := simulate_before_halt timeoutCycles g t k
  unfold verdict trace
  rw [← List.append_assoc, simulate_append]
  by_cases hT : haltCycle t k ≤ deadline timeoutCycles
  · rw [if_pos hT] at hbefore ⊢
    exact (sample_halt timeoutCycles hbefore rfl rfl).2
  · rw [if_neg hT] at hbefore ⊢
    rw [simulate_of_verdict timeoutCycles (by rw [hbefore]; rfl), hbefore]

/-- In terms of the outcome: only a failed decapsulation clears bit 0. -/
theorem verdict_eq (timeoutCycles : ℕ) (g : BitVec 32) (t : Timing) (k : Kem n) :
    verdict timeoutCycles g t k =
      if haltCycle t k ≤ deadline timeoutCycles then
        some (if k.rcKeypair = 0 ∧ k.rcEnc = 0 ∧ k.rcDec ≠ 0 then .errorIndication else .success)
      else some (.timeout (deadline timeoutCycles)) := by
  rw [simulate_verdict, gpioAfter_main]
  by_cases h : k.rcKeypair = 0 ∧ k.rcEnc = 0 ∧ k.rcDec ≠ 0
  · rw [if_pos h, if_pos h]; rfl
  · rw [if_neg h, if_neg h]; rfl

/-- The testbench reports the firmware's outcome: success exactly when all went well, and a failed
assertion otherwise. -/
def VerdictOk (timeoutCycles : ℕ) (g : BitVec 32) (t : Timing) (k : Kem n) : Prop :=
  (verdict timeoutCycles g t k = some .success ↔ AllOk k) ∧
    (¬ AllOk k → ∃ v, verdict timeoutCycles g t k = some v ∧ v.IsFailure)

/-- **Exactly when the verdict is right.** A run that halts before the deadline is reported right
if and only if key generation and encapsulation succeed, and decapsulation fails or the shared
secrets agree; a run cut off by the deadline, if and only if something went wrong in it. -/
theorem verdict_ok_iff (timeoutCycles : ℕ) (g : BitVec 32) (t : Timing) (k : Kem n) :
    VerdictOk timeoutCycles g t k ↔
      (haltCycle t k ≤ deadline timeoutCycles → k.rcKeypair = 0 ∧ k.rcEnc = 0 ∧
        (k.rcDec ≠ 0 ∨ ∀ i : Fin n, k.ssEnc.get i = k.ssDec.get i)) ∧
      (deadline timeoutCycles < haltCycle t k → ¬ AllOk k) := by
  unfold VerdictOk
  rw [verdict_eq]
  by_cases hT : haltCycle t k ≤ deadline timeoutCycles
  · have hT' : ¬ deadline timeoutCycles < haltCycle t k := Nat.not_lt.2 hT
    by_cases hd : k.rcKeypair = 0 ∧ k.rcEnc = 0 ∧ k.rcDec ≠ 0
    · -- a failed decapsulation is reported as an error
      have hno : ¬ AllOk k := fun hok => hd.2.2 hok.2.2.1
      simp [hT, hd, hno, Verdict.IsFailure]
    · -- everything else is reported as success
      simp only [hT, hd, hT', if_true, if_false]
      constructor
      · intro h
        obtain ⟨h1, h2, h3, h4⟩ := h.1.1 trivial
        exact ⟨fun _ => ⟨h1, h2, Or.inr h4⟩, fun hlt => absurd hlt id⟩
      · intro h
        obtain ⟨h1, h2, h3⟩ := h.1 trivial
        have hdec : k.rcDec = 0 := by
          by_contra hne
          exact hd ⟨h1, h2, hne⟩
        have hok : AllOk k := ⟨h1, h2, hdec, h3.resolve_left fun hne => hne hdec⟩
        exact ⟨⟨fun _ => hok, fun _ => trivial⟩, fun hno => absurd hok hno⟩
  · have hT' : deadline timeoutCycles < haltCycle t k := Nat.lt_of_not_le hT
    simp only [hT, hT', if_false]
    constructor
    · intro h
      refine ⟨fun hle => absurd hle id, ?_⟩
      intro _ hok
      have hsuccess := h.1.2 hok
      simp at hsuccess
    · intro h
      have hno := h.2 trivial
      refine ⟨⟨?_, fun hok => absurd hok hno⟩, fun _ => ⟨_, rfl, trivial⟩⟩
      intro hsuccess
      simp at hsuccess

/-- A run with one sample in every stage, each retiring an instruction. -/
def briefTiming : Timing where
  reset := [⟨false, false, false, 0⟩]
  reset_low := by simp
  stage := fun _ => [⟨true, false, rfl⟩]
  exit := []

/-- `crypto_kem_keypair` returns 1, and `main` leaves with `KYBER_GPIO_INIT` on the port. -/
def keypairFails : Kem 32 := ⟨1, 0, 0, Vector.replicate 32 0, Vector.replicate 32 0⟩

theorem keypair_failure_reported_as_success :
    verdict 100000000 0 briefTiming keypairFails = some .success ∧
      ¬ VerdictOk 100000000 0 briefTiming keypairFails := by
  have hv : verdict 100000000 0 briefTiming keypairFails = some .success := by
    rw [verdict_eq]
    rfl
  refine ⟨hv, ?_⟩
  intro h
  have hrc : keypairFails.rcKeypair = 0 := (h.1.1 hv).1
  exact absurd hrc (by decide)

end KyberNeorv32.KyberRun
