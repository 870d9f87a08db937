import KyberNeorv32.KyberBasic
import KyberNeorv32.Lib.Words

/-!
# `kyber_neorv32_basic`: the cycle report

`main` reads the two 64-bit counters at six points (`main.c:29-43`, `:58-104`), keeps the low 32
bits of each reading, and at the end prints counts and cycles per instruction for five stages and
the whole run (`:105-136`). `Readings` holds the counters themselves; everything after them is done
in `uint32_t`.

Counts are exact as long as they fit (`cycles_toNat`), also when the low half of a counter wraps.
The CPI lines scale the count by 100 first, in 32 bits: `cpi_ok_iff` gives the exact condition.
-/

namespace KyberNeorv32.KyberBasic

structure Counters where
  cycle : BitVec 64
  instret : BitVec 64
deriving DecidableEq, Repr

/-- The counters where `main` reads `c0`, `i0` to `c5`, `i5`, and the four calibration readings. -/
structure Readings where
  at0 : Counters
  at1 : Counters
  at2 : Counters
  at3 : Counters
  at4 : Counters
  at5 : Counters
  cCal0 : BitVec 64
  cCal1 : BitVec 64
  iCal0 : BitVec 64
  iCal1 : BitVec 64
deriving DecidableEq, Repr

/-- The six lines of each section of the report. -/
inductive Period
  | entropy
  | keypair
  | encoding
  | decoding
  | comparison
  | total
deriving DecidableEq, Repr

def Period.label : Period → String
  | .entropy => "Entropy Initialization"
  | .keypair => "Keypair Generation"
  | .encoding => "Kyber Encoding"
  | .decoding => "Kyber Decoding"
  | .comparison => "Final Comparison"
  | .total => "Total Kyber Execution"

def periods : List Period := [.entropy, .keypair, .encoding, .decoding, .comparison, .total]

section
variable (r : Readings)

def Readings.start : Period → Counters
  | .entropy | .total => r.at0
  | .keypair => r.at1
  | .encoding => r.at2
  | .decoding => r.at3
  | .comparison => r.at4

def Readings.stop : Period → Counters
  | .entropy => r.at1
  | .keypair => r.at2
  | .encoding => r.at3
  | .decoding => r.at4
  | .comparison | .total => r.at5

/-- The difference of two readings kept in `uint32_t`. -/
def count (start stop : BitVec 64) : BitVec 32 := stop.setWidth 32 - start.setWidth 32

def Readings.cycles (p : Period) : BitVec 32 := count (r.start p).cycle (r.stop p).cycle
def Readings.instructions (p : Period) : BitVec 32 := count (r.start p).instret (r.stop p).instret

/-- `cpi_x100 = ((uint32_t)c * 100u) / (uint32_t)i`; dividing by 0 is undefined. -/
def cpiX100 (c i : BitVec 32) : Option (BitVec 32) := if i = 0 then none else some (c * 100 / i)

/-- The three arguments of `"%u.%u%u"`. -/
structure CpiFields where
  w : BitVec 32
  d1 : BitVec 32
  d2 : BitVec 32
deriving DecidableEq, Repr

def cpiFields (x : BitVec 32) : CpiFields := ⟨x / 100, x / 10 % 10, x % 10⟩

def Readings.cpi (p : Period) : Option CpiFields :=
  (cpiX100 (r.cycles p) (r.instructions p)).map cpiFields

def cpiLine (p : Period) (f : CpiFields) : String :=
  p.label ++ " CPI: " ++ toString f.w.toNat ++ "." ++ toString f.d1.toNat ++
    toString f.d2.toNat ++ "\n"

/-- `main.c:105-136`. -/
def cycleReport : Option (List String) := do
  let cpis ← periods.mapM fun p => (r.cpi p).map (cpiLine p)
  some (["<<<<<<<<<< Kyber Execution Results >>>>>>>>>>>\n\n",
      "========== Cycle Count Results ===========\n"] ++
    (periods.map fun p => p.label ++ " Cycle Count: " ++ toString (r.cycles p).toNat ++ "\n") ++
    ["\nCycle Count Access Overhead: " ++ toString (count r.cCal0 r.cCal1).toNat ++ "\n",
      "\n========== Retired Instruction Count Results ===========\n"] ++
    (periods.map fun p =>
      p.label ++ " Instruction Count: " ++ toString (r.instructions p).toNat ++ "\n") ++
    ["\nInstruction Count Access Overhead: " ++ toString (count r.iCal0 r.iCal1).toNat ++ "\n",
      "\n========== Cycles per Instruction Results ===========\n"] ++ cpis)

/-- What passed on the 64-bit counters. -/
def Readings.trueCycles (p : Period) : ℕ := ((r.stop p).cycle - (r.start p).cycle).toNat
def Readings.trueInstructions (p : Period) : ℕ := ((r.stop p).instret - (r.start p).instret).toNat

end

/-! ## Counts -/

/-- The low halves are enough for a difference that fits, wherever they wrap. -/
theorem count_toNat {start stop : BitVec 64} (h : (stop - start).toNat < 2 ^ 32) :
    (count start stop).toNat = (stop - start).toNat := by
  rw [count, ← Words.setWidth_sub _ _ (by norm_num), BitVec.toNat_setWidth, Nat.mod_eq_of_lt h]

variable (r : Readings) (p : Period)

theorem cycles_toNat (h : r.trueCycles p < 2 ^ 32) : (r.cycles p).toNat = r.trueCycles p :=
  count_toNat h

theorem instructions_toNat (h : r.trueInstructions p < 2 ^ 32) :
    (r.instructions p).toNat = r.trueInstructions p := count_toNat h

/-! ## Cycles per instruction -/

/-- The fields are the decimal digits of `cpi_x100`. -/
theorem cpiFields_digits (x : BitVec 32) :
    (cpiFields x).d1.toNat ≤ 9 ∧ (cpiFields x).d2.toNat ≤ 9 ∧
      100 * (cpiFields x).w.toNat + 10 * (cpiFields x).d1.toNat + (cpiFields x).d2.toNat =
        x.toNat := by
  change x.toNat / 10 % 10 ≤ 9 ∧ x.toNat % 10 ≤ 9 ∧
    100 * (x.toNat / 100) + 10 * (x.toNat / 10 % 10) + x.toNat % 10 = x.toNat
  omega

theorem cpiX100_toNat {c i : BitVec 32} (hi : 0 < i.toNat) :
    ∃ x, cpiX100 c i = some x ∧ x.toNat = 100 * c.toNat % 2 ^ 32 / i.toNat := by
  have hne : i ≠ 0 := by
    rintro rfl
    exact absurd hi (by decide)
  refine ⟨c * 100 / i, if_neg hne, ?_⟩
  rw [BitVec.toNat_udiv, BitVec.toNat_mul, Nat.mul_comm]
  rfl

/-- `mapM` keeps every result. -/
theorem mem_of_mapM {α β : Type} {f : α → Option β} {as : List α} {bs : List β}
    (h : as.mapM f = some bs) {a : α} (ha : a ∈ as) {b : β} (hab : f a = some b) : b ∈ bs := by
  induction as generalizing bs with
  | nil => simp at ha
  | cons x as ih =>
    rw [List.mapM_cons] at h
    cases hx : f x with
    | none => simp [hx] at h
    | some y =>
      cases hys : as.mapM f with
      | none => simp [hx, hys] at h
      | some ys =>
        have hbs : y :: ys = bs := by simpa [hx, hys] using h
        rw [← hbs]
        rcases List.mem_cons.1 ha with rfl | ha
        · have hby : y = b := by simpa [hx] using hab
          simp [hby]
        · simp [ih hys ha]

theorem mem_periods : p ∈ periods := by cases p <;> decide

/-- Every line that has fields is in the report. -/
theorem cpiLine_mem_cycleReport {lines : List String} (h : cycleReport r = some lines)
    {f : CpiFields} (hf : r.cpi p = some f) : cpiLine p f ∈ lines := by
  unfold cycleReport at h
  cases hcpis : periods.mapM fun p => (r.cpi p).map (cpiLine p) with
  | none => simp [hcpis] at h
  | some cpis =>
    simp only [hcpis, Option.bind_eq_bind, Option.bind_some, Option.some.injEq] at h
    have hmem : cpiLine p f ∈ cpis := mem_of_mapM hcpis (mem_periods p) (by rw [hf]; rfl)
    rw [← h]
    simp [hmem]

/-- The line for `p` is printed, and its fields are the digits of the CPI in hundredths. -/
def CpiOk : Prop :=
  ∃ f, r.cpi p = some f ∧ f.d1.toNat ≤ 9 ∧ f.d2.toNat ≤ 9 ∧
    100 * f.w.toNat + 10 * f.d1.toNat + f.d2.toNat = 100 * r.trueCycles p / r.trueInstructions p

/-- **When a printed CPI is right.** For counts that fit in 32 bits, the line of a period shows its
cycles per instruction, cut after two decimals, exactly when 100 times the cycles still fit. -/
theorem cpi_ok_iff (hC : r.trueCycles p < 2 ^ 32) (hI0 : 0 < r.trueInstructions p)
    (hI : r.trueInstructions p < 2 ^ 32) : CpiOk r p ↔ 100 * r.trueCycles p < 2 ^ 32 := by
  have hc := cycles_toNat r p hC
  have hi := instructions_toNat r p hI
  obtain ⟨x, hx, hval⟩ := cpiX100_toNat (c := r.cycles p) (i := r.instructions p) (by omega)
  rw [hc, hi] at hval
  obtain ⟨h1, h2, hdigits⟩ := cpiFields_digits x
  rw [← Words.mod_div_eq_div_iff hI0 hI.le, ← hval]
  constructor
  · intro ⟨f, hf, _, _, heq⟩
    have hfx : f = cpiFields x := by
      simpa [Readings.cpi, hx] using hf.symm
    rw [hfx, hdigits] at heq
    exact heq
  · intro h
    refine ⟨cpiFields x, by simp [Readings.cpi, hx], h1, h2, ?_⟩
    rw [hdigits, h]

/-- A run of 13608031 cycles and 3381084 instructions: CPI 4.02. -/
def shortRun : Readings where
  at0 := ⟨4294960000, 100⟩
  at1 := ⟨4294961000, 300⟩
  at2 := ⟨4298961000, 1000300⟩
  at3 := ⟨4303961000, 2000300⟩
  at4 := ⟨4308567031, 3380184⟩
  at5 := ⟨4308568031, 3381184⟩
  cCal0 := 0
  cCal1 := 9
  iCal0 := 0
  iCal1 := 3

/-- The low half of the cycle counter wraps in this run. -/
theorem cpi_ok_shortRun : CpiOk shortRun .total :=
  (cpi_ok_iff shortRun .total (by decide) (by decide) (by decide)).2 (by decide)

/-- Key generation takes 100000000 cycles and 25000000 instructions: CPI 4.00. -/
def longKeypair : Readings where
  at0 := ⟨1000, 100⟩
  at1 := ⟨2000, 300⟩
  at2 := ⟨100002000, 25000300⟩
  at3 := ⟨105002000, 26000300⟩
  at4 := ⟨109608031, 27380184⟩
  at5 := ⟨109609031, 27381184⟩
  cCal0 := 0
  cCal1 := 9
  iCal0 := 0
  iCal1 := 3

/-- It is printed as 0.56. -/
theorem cpi_wrong_longKeypair :
    longKeypair.trueCycles .keypair < 2 ^ 32 ∧ 0 < longKeypair.trueInstructions .keypair ∧
      longKeypair.trueInstructions .keypair < 2 ^ 32 ∧
      100 * longKeypair.trueCycles .keypair / longKeypair.trueInstructions .keypair = 400 ∧
      longKeypair.cpi .keypair = some ⟨0, 5, 6⟩ ∧ ¬ CpiOk longKeypair .keypair := by
  have hcpi : longKeypair.cpi .keypair = some ⟨0, 5, 6⟩ := by decide
  refine ⟨by decide, by decide, by decide, by decide, hcpi, ?_⟩
  intro ⟨f, hf, _, _, heq⟩
  rw [hcpi] at hf
  cases hf
  exact absurd heq (by decide)

end KyberNeorv32.KyberBasic
