import KyberNeorv32.KyberTb
import KyberNeorv32.Lib.Laps

/-!
# `neorv32_kyber_tb.vhd`: the cycle and instruction accounting

The marks and counters of `track_progress` are one lap timer over pairs of cycles and instructions
(`State.timer`): in each cycle the cycle count moves before the GPIO value is compared, the
instruction count after. `timer_track` and `timer_onHalt` say that the process is this timer.

`StagedTrace` is a run that shows the five stage codes one after the other. In every such run the
counters are the distances between the first samples of the codes and the instructions retired in
between (`accounting_exact`), wherever the halt falls.
-/

namespace KyberNeorv32.KyberTb

open Laps

/-- `gpio_out(7 downto 0)`. -/
def Sample.code (x : Sample) : BitVec 8 := x.gpioOut.extractLsb' 0 8

/-! ## The process is a lap timer -/

def stageOf (code : BitVec 8) : Option KemStage :=
  if code = kyberKeypairStart then some .keypair
  else if code = kyberKeypairDone then some .enc
  else if code = kyberEncDone then some .dec
  else if code = kyberDecDone ∨ code = kyberCompare then some .compare
  else none

/-- Two codes stand for the comparison, so its laps add up. -/
def stages : Stages (BitVec 8) KemStage where
  stageOf := stageOf
  adds st := st == .compare
  first := kyberKeypairStart

theorem stageOf_eq_none {code : BitVec 8} (h : code ∉ stageCodes) :
    stageOf code = none ∧ code ≠ kyberKeypairStart := by
  simp only [stageCodes, List.mem_cons, List.not_mem_nil, or_false, not_or] at h
  obtain ⟨h1, h2, h3, h4, h5⟩ := h
  simp [stageOf, h1, h2, h3, h4, h5]

/-- Cycles and retired instructions, the two counts that the process keeps of everything. -/
def State.timer (s : State) : Timer (BitVec 8) KemStage (ℕ × ℕ) where
  now := (s.cycles, s.instrCount)
  start := (s.startCycle, s.startInstr)
  mark := (s.stageStartCycle, s.stageStartInstr)
  last := s.lastGpio
  total st := (s.stageCycles st, s.stageInstr st)

/-- What a sample adds after its code has been looked at. -/
def Sample.entry (x : Sample) : BitVec 8 × (ℕ × ℕ) := (x.code, (0, if x.valid then 1 else 0))

/-- Every edge is one cycle. -/
def edge : ℕ × ℕ := (1, 0)

/-- The totals of the timer when the current lap belongs to `st`. -/
theorem credit_of_stage {s : State} {st : KemStage} (h : stageOf s.lastGpio = some st) :
    s.timer.credit stages = Function.update s.timer.total st (if st == .compare then
      s.timer.total st + (s.timer.now - s.timer.mark) else s.timer.now - s.timer.mark) := by
  have hlast : stages.stageOf s.timer.last = some st := h
  simp only [Timer.credit, hlast]
  rfl

/-- A state that differs from `s` only by what the lap of `st` adds. -/
theorem timer_close_of_stage {s s' : State} (st : KemStage) (h : stageOf s.lastGpio = some st)
    (hframe : s'.timer = { s.timer with total := s'.timer.total })
    (htotal : s'.timer.total = Function.update s.timer.total st (if st == .compare then
      s.timer.total st + (s.timer.now - s.timer.mark) else s.timer.now - s.timer.mark)) :
    s'.timer = s.timer.close stages := by
  rw [hframe, htotal, ← credit_of_stage h]
  rfl

/-- The attributing branches of `closeStage` are one credit. -/
theorem timer_closeStage (s : State) : (closeStage s).timer = s.timer.close stages := by
  unfold closeStage
  split_ifs with h1 h2 h3 h4
  · refine timer_close_of_stage .keypair ?_ rfl ?_
    · rw [stageOf, if_pos h1]
    · funext st
      cases st <;> rfl
  · refine timer_close_of_stage .enc ?_ rfl ?_
    · rw [stageOf, if_neg h1, if_pos h2]
    · funext st
      cases st <;> rfl
  · refine timer_close_of_stage .dec ?_ rfl ?_
    · rw [stageOf, if_neg h1, if_neg h2, if_pos h3]
    · funext st
      cases st <;> rfl
  · refine timer_close_of_stage .compare ?_ rfl ?_
    · rw [stageOf, if_neg h1, if_neg h2, if_neg h3, if_pos h4]
    · funext st
      cases st <;> rfl
  · have hlast : stages.stageOf s.timer.last = none := by
      change stageOf s.lastGpio = none
      rw [stageOf, if_neg h1, if_neg h2, if_neg h3, if_neg h4]
    simp only [Timer.close, Timer.credit, hlast]

theorem timer_enterStage (s : State) :
    (enterStage (closeStage s)).timer = s.timer.change stages s.curGpio := by
  have hclose := timer_closeStage s
  obtain ⟨h1, h2, h3, h4, h5, h6, -, h7, h8⟩ := closeStage_frame s
  have hnow : (closeStage s).timer.now = s.timer.now := by rw [hclose]; rfl
  have htotal : (closeStage s).timer.total = s.timer.credit stages := by rw [hclose]; rfl
  refine Timer.ext hnow ?_ hnow h7 htotal
  change (if (closeStage s).curGpio = kyberKeypairStart then (closeStage s).cycles
      else (closeStage s).startCycle,
    if (closeStage s).curGpio = kyberKeypairStart then (closeStage s).instrCount
      else (closeStage s).startInstr) = if s.curGpio = kyberKeypairStart then _ else _
  rw [h1, h2, h4, h5, h7]
  split_ifs <;> rfl

theorem timer_onChange (s : State) : (onChange s).timer =
    if s.curGpio = s.timer.last then s.timer else s.timer.change stages s.curGpio := by
  change _ = if s.curGpio = s.lastGpio then s.timer else s.timer.change stages s.curGpio
  unfold onChange
  by_cases h : s.curGpio = s.lastGpio
  · rw [if_neg (not_not.2 h), if_pos h]
  · rw [if_pos h, if_neg h, timer_enterStage]

/-- **One edge out of reset is one step of the timer.** -/
theorem timer_track (s : State) (x : Sample) :
    (track s x).timer = s.timer.step stages edge x.entry := by
  have hchange := timer_onChange (takeSample s x)
  have htick : (takeSample s x).timer = s.timer.tick edge := rfl
  have hcount : ∀ s' : State, (progressVars (countInstr s' x)).timer = s'.timer.tick x.entry.2 := by
    intro s'
    cases hv : x.valid with
    | true =>
      simp only [countInstr, Sample.entry, hv, if_true]
      rfl
    | false =>
      simp only [countInstr, Sample.entry, hv, Bool.false_eq_true, if_false]
      rfl
  rw [track, hcount, hchange, htick]
  rfl

theorem timer_foldl (s : State) (tr : List Sample) :
    (tr.foldl track s).timer = s.timer.run stages edge (tr.map Sample.entry) := by
  induction tr generalizing s with
  | nil => rfl
  | cons x tr ih =>
    rw [List.foldl_cons, ih, timer_track]
    rfl

theorem closeStage_end (s : State) :
    (closeStage s).endCycle = s.endCycle ∧ (closeStage s).endInstr = s.endInstr := by
  unfold closeStage
  split_ifs <;> simp

/-- The halt closes the current lap and takes the overall times. -/
theorem timer_onHalt (s : State) : (onHalt s).timer = s.timer.close stages ∧
    ((onHalt s).totalCycles, (onHalt s).totalInstr) = s.timer.now - s.timer.start := by
  have hclose := timer_closeStage { s with endCycle := s.cycles, endInstr := s.instrCount }
  obtain ⟨-, h2, -, -, h5, -⟩ :=
    closeStage_frame { s with endCycle := s.cycles, endInstr := s.instrCount }
  obtain ⟨h7, h8⟩ := closeStage_end { s with endCycle := s.cycles, endInstr := s.instrCount }
  refine ⟨hclose, ?_⟩
  simp only [onHalt, h2, h5, h7, h8]
  rfl

/-! ## Staged traces -/

/-- A run cut where the GPIO code changes. -/
structure Blocks where
  before : List Sample
  keypair : List Sample
  enc : List Sample
  dec : List Sample
  decDone : List Sample
  compare : List Sample
  after : List Sample

def Blocks.upToCompare (b : Blocks) : List Sample :=
  b.before ++ b.keypair ++ b.enc ++ b.dec ++ b.decDone ++ b.compare

def Blocks.samples (b : Blocks) : List Sample := b.upToCompare ++ b.after

/-- The five stage codes in order, each for at least one sample, between samples without a stage
code; the halt comes with the last sample, in the last block or after it. -/
structure StagedTrace extends Blocks where
  before_code : ∀ x ∈ before, x.code ∉ stageCodes
  keypair_code : ∀ x ∈ keypair, x.code = kyberKeypairStart
  enc_code : ∀ x ∈ enc, x.code = kyberKeypairDone
  dec_code : ∀ x ∈ dec, x.code = kyberEncDone
  decDone_code : ∀ x ∈ decDone, x.code = kyberDecDone
  compare_code : ∀ x ∈ compare, x.code = kyberCompare
  after_code : ∀ x ∈ after, x.code ∉ stageCodes
  keypair_ne : keypair ≠ []
  enc_ne : enc ≠ []
  dec_ne : dec ≠ []
  decDone_ne : decDone ≠ []
  compare_ne : compare ≠ []
  running : List Sample
  halt : Sample
  samples_eq : toBlocks.samples = running ++ [halt]
  running_busy : ∀ x ∈ running, x.Busy
  halt_rstn : halt.rstn = true
  halt_done : (halt.valid && halt.halt) = true

/-- The number of samples before the first one with the given code. -/
def firstSample (tr : List Sample) (code : BitVec 8) : ℕ := tr.findIdx fun x => x.code == code

namespace StagedTrace
variable (t : StagedTrace)

def first (code : BitVec 8) : ℕ := firstSample t.samples code

def haltIndex : ℕ := t.running.length

/-- The first sample after `KYBER_COMPARE`, or the halt if it comes first. -/
def compareEnd : ℕ := min t.upToCompare.length t.haltIndex

end StagedTrace

/-- Nothing is lost and nothing counted twice. -/
structure Accounted (s : State) (t : StagedTrace) : Prop where
  keypairCycles : t.first kyberKeypairStart + s.keypairCycles = t.first kyberKeypairDone
  encCycles : t.first kyberKeypairDone + s.encCycles = t.first kyberEncDone
  decCycles : t.first kyberEncDone + s.decCycles = t.first kyberDecDone
  compareCycles : t.first kyberDecDone + s.compareCycles = t.compareEnd
  totalCycles : t.first kyberKeypairStart + s.totalCycles = t.haltIndex
  sum_cycles : s.keypairCycles + s.encCycles + s.decCycles + s.compareCycles +
    (t.haltIndex - t.compareEnd) = s.totalCycles
  keypairInstr : s.keypairInstr = t.keypair.countP (·.valid)
  encInstr : s.encInstr = t.enc.countP (·.valid)
  decInstr : s.decInstr = t.dec.countP (·.valid)
  compareInstr : s.compareInstr = (t.decDone ++ t.compare).countP (·.valid)
  totalInstr : s.totalInstr = (t.samples.drop (t.first kyberKeypairStart)).countP (·.valid)
  sum_instr : s.keypairInstr + s.encInstr + s.decInstr + s.compareInstr +
    t.after.countP (·.valid) = s.totalInstr

/-! ## The timer over a staged trace -/

/-- Cycles and instructions of a list of samples. -/
def tally (tr : List Sample) : ℕ × ℕ := (tr.length, tr.countP (·.valid))

theorem tally_append (as bs : List Sample) : tally (as ++ bs) = tally as + tally bs := by
  simp [tally]

theorem weight_entry (tr : List Sample) : weight edge (tr.map Sample.entry) = tally tr := by
  induction tr with
  | nil => rfl
  | cons x tr ih =>
    rw [List.map_cons, weight_cons, ih]
    cases hv : x.valid with
    | true => simp [tally, edge, Sample.entry, hv, add_comm]
    | false => simp [tally, edge, Sample.entry, hv, add_comm]

theorem add_sub_cancel_pair (a b : ℕ × ℕ) : a + b - a = b := by
  ext
  · simp
  · simp

/-- Entries of a block with one code. -/
theorem entry_code {tr : List Sample} {c : BitVec 8} (h : ∀ x ∈ tr, x.code = c) :
    ∀ e ∈ tr.map Sample.entry, e.1 = c := by
  intro e he
  obtain ⟨x, hx, rfl⟩ := List.mem_map.1 he
  exact h x hx

/-- Entries of samples without a stage code. -/
theorem entry_quiet {tr : List Sample} (h : ∀ x ∈ tr, x.code ∉ stageCodes) :
    ∀ e ∈ tr.map Sample.entry, stages.stageOf e.1 = none ∧ e.1 ≠ stages.first := by
  intro e he
  obtain ⟨x, hx, rfl⟩ := List.mem_map.1 he
  exact stageOf_eq_none (h x hx)

theorem map_entry_ne_nil {tr : List Sample} (h : tr ≠ []) : tr.map Sample.entry ≠ [] := by
  simpa using h

/-- The timer when the last stage code has been shown: every earlier block is credited in full. -/
theorem timer_upToCompare (t : StagedTrace) :
    ∃ T, (t.upToCompare.foldl track resetVars).timer = T ∧
      T.InLap edge (tally (t.before ++ t.keypair ++ t.enc ++ t.dec ++ t.decDone))
        (tally t.compare) kyberCompare ∧
      T.start = tally t.before + edge ∧ T.total .keypair = tally t.keypair ∧
      T.total .enc = tally t.enc ∧ T.total .dec = tally t.dec ∧
      T.total .compare = tally t.decDone := by
  refine ⟨_, rfl, ?_⟩
  rw [timer_foldl, Blocks.upToCompare]
  simp only [List.map_append, Timer.run_append, tally_append]
  obtain ⟨now1, _, total1, last1⟩ := Timer.run_quiet (w := stages) (u := edge) (t := resetVars.timer)
    (by decide) (entry_quiet t.before_code)
  generalize resetVars.timer.run stages edge (t.before.map Sample.entry) = T1 at *
  obtain ⟨lap2, start2, total2⟩ := Timer.inLap_first (w := stages) (u := edge) last1
    (map_entry_ne_nil t.keypair_ne) (entry_code t.keypair_code) (by decide)
  generalize T1.run stages edge (t.keypair.map Sample.entry) = T2 at *
  obtain ⟨lap3, start3, total3⟩ := lap2.next add_sub_cancel_pair (w := stages) (s := .keypair) rfl
    (map_entry_ne_nil t.enc_ne) (entry_code t.enc_code) (by decide) (by decide)
  generalize T2.run stages edge (t.enc.map Sample.entry) = T3 at *
  obtain ⟨lap4, start4, total4⟩ := lap3.next add_sub_cancel_pair (w := stages) (s := .enc) rfl
    (map_entry_ne_nil t.dec_ne) (entry_code t.dec_code) (by decide) (by decide)
  generalize T3.run stages edge (t.dec.map Sample.entry) = T4 at *
  obtain ⟨lap5, start5, total5⟩ := lap4.next add_sub_cancel_pair (w := stages) (s := .dec) rfl
    (map_entry_ne_nil t.decDone_ne) (entry_code t.decDone_code) (by decide) (by decide)
  generalize T4.run stages edge (t.decDone.map Sample.entry) = T5 at *
  obtain ⟨lap6, start6, total6⟩ := lap5.next add_sub_cancel_pair (w := stages) (s := .compare) rfl
    (map_entry_ne_nil t.compare_ne) (entry_code t.compare_code) (by decide) (by decide)
  generalize T5.run stages edge (t.compare.map Sample.entry) = T6 at *
  have hnow : T1.now = tally t.before := by
    rw [now1, weight_entry]
    exact zero_add _
  simp only [weight_entry, hnow] at lap6 start2 total3 total4 total5 total6
  refine ⟨lap6, ?_, ?_, ?_, ?_, ?_⟩
  · rw [start6, start5, start4, start3, start2]
  · rw [total6, Function.update_of_ne (by decide), total5, Function.update_of_ne (by decide), total4,
      Function.update_of_ne (by decide), total3, Function.update_self]
    rfl
  · rw [total6, Function.update_of_ne (by decide), total5, Function.update_of_ne (by decide), total4,
      Function.update_self]
    rfl
  · rw [total6, Function.update_of_ne (by decide), total5, Function.update_self]
    rfl
  · have hzero : T5.total .compare = 0 := by
      rw [total5, Function.update_of_ne (by decide), total4, Function.update_of_ne (by decide), total3,
        Function.update_of_ne (by decide), total2, total1]
      rfl
    rw [total6, Function.update_self, hzero]
    exact zero_add _

/-- The totals when the timer is closed at the halt. The halt sample itself is no cycle of a lap,
but its instruction counts. -/
theorem timer_halted (t : StagedTrace) :
    ∃ T, (onHalt (t.samples.foldl track resetVars)).timer = T ∧
      T.now = tally t.samples ∧ T.start = tally t.before + edge ∧
      T.total .keypair = tally t.keypair ∧ T.total .enc = tally t.enc ∧
      T.total .dec = tally t.dec ∧
      T.total .compare = ((t.decDone ++ t.compare).length - (if t.after = [] then 1 else 0),
        (t.decDone ++ t.compare).countP (·.valid)) := by
  obtain ⟨T, hT, lap, start, keypair, enc, dec, compare⟩ := timer_upToCompare t
  have hrun : (t.samples.foldl track resetVars).timer =
      T.run stages edge (t.after.map Sample.entry) := by
    rw [Blocks.samples, List.foldl_append, timer_foldl, hT]
  have hnow : T.now = tally t.upToCompare := by
    rw [lap.now, ← tally_append]
    rfl
  -- the halt credits the comparison or nothing
  have hothers : ∀ v, Function.update T.total .compare v .keypair = tally t.keypair ∧
      Function.update T.total .compare v .enc = tally t.enc ∧
      Function.update T.total .compare v .dec = tally t.dec := by
    intro v
    refine ⟨?_, ?_, ?_⟩
    · rw [Function.update_of_ne (by decide), keypair]
    · rw [Function.update_of_ne (by decide), enc]
    · rw [Function.update_of_ne (by decide), dec]
  refine ⟨_, rfl, ?_⟩
  rw [(timer_onHalt _).1, hrun]
  by_cases hafter : t.after = []
  · -- the halt ends the last lap
    have hlast : stages.stageOf T.last = some .compare := by rw [lap.last]; rfl
    have hcredit : (T.close stages).total =
        Function.update T.total .compare (T.total .compare + (T.now - T.mark)) := by
      simp only [Timer.close, Timer.credit, hlast]
      rfl
    have hlap : T.now - T.mark = (t.compare.length - 1, t.compare.countP (·.valid)) := by
      rw [lap.now, lap.mark]
      ext
      · simp only [tally, edge, Prod.fst_sub, Prod.fst_add]
        omega
      · simp only [tally, edge, Prod.snd_sub, Prod.snd_add]
        omega
    have hpos := List.length_pos_iff.2 t.compare_ne
    have hend : T.run stages edge (t.after.map Sample.entry) = T := by rw [hafter]; rfl
    rw [hend, hcredit, hlap, compare, if_pos hafter]
    obtain ⟨hkeypair, henc, hdec⟩ := hothers (tally t.decDone + (t.compare.length - 1,
      t.compare.countP (·.valid)))
    refine ⟨?_, start, hkeypair, henc, hdec, ?_⟩
    · rw [Blocks.samples, hafter, List.append_nil]
      exact hnow
    · rw [Function.update_self]
      ext
      · simp [tally]
        omega
      · simp [tally]
  · -- the lap has ended before, and the halt credits nothing
    have hlast : stages.stageOf T.last ≠ none := by rw [lap.last]; decide
    obtain ⟨anow, astart, atotal, alast⟩ := Timer.run_tail (w := stages) (u := edge)
      (map_entry_ne_nil hafter) hlast (entry_quiet t.after_code)
    have hcredit := lap.credit add_sub_cancel_pair (w := stages) (s := .compare) rfl
    generalize T.run stages edge (t.after.map Sample.entry) = T' at *
    have hclose : T'.close stages = T' := by
      simp only [Timer.close, Timer.credit, alast]
    rw [hclose, atotal, hcredit]
    obtain ⟨hkeypair, henc, hdec⟩ := hothers (T.total .compare + tally t.compare)
    refine ⟨?_, astart.trans start, hkeypair, henc, hdec, ?_⟩
    · rw [anow, hnow, weight_entry, ← tally_append]
      rfl
    · rw [Function.update_self, compare, if_neg hafter]
      change tally t.decDone + tally t.compare = tally (t.decDone ++ t.compare)
      rw [tally_append]

/-! ## Where the blocks begin -/

theorem firstSample_append {pre block post : List Sample} {c : BitVec 8}
    (hpre : ∀ x ∈ pre, x.code ≠ c) (hne : block ≠ []) (hblock : ∀ x ∈ block, x.code = c) :
    firstSample (pre ++ (block ++ post)) c = pre.length := by
  unfold firstSample
  induction pre with
  | nil =>
    cases block with
    | nil => exact absurd rfl hne
    | cons x block => simp [List.findIdx_cons, hblock x (by simp)]
  | cons x pre ih =>
    have hx : (x.code == c) = false := by simpa using hpre x (by simp)
    rw [List.cons_append, List.findIdx_cons, hx, ih fun y hy => hpre y (by simp [hy])]
    rfl

/-- Appending a block of another code to what comes before the first sample with code `d`. -/
theorem code_ne_append {pre block : List Sample} {c d : BitVec 8} (hpre : ∀ x ∈ pre, x.code ≠ d)
    (hblock : ∀ x ∈ block, x.code = c) (hne : c ≠ d) : ∀ x ∈ pre ++ block, x.code ≠ d := by
  rw [List.forall_mem_append]
  refine ⟨hpre, ?_⟩
  intro x hx
  rwa [hblock x hx]

section
variable (t : StagedTrace)

theorem before_code_ne {c : BitVec 8} (hc : c ∈ stageCodes) : ∀ x ∈ t.before, x.code ≠ c := by
  intro x hx heq
  rw [← heq] at hc
  exact t.before_code x hx hc

theorem first_keypairStart : t.first kyberKeypairStart = t.before.length := by
  have hsplit : t.samples = t.before ++ (t.keypair ++
      (t.enc ++ t.dec ++ t.decDone ++ t.compare ++ t.after)) := by
    simp [Blocks.samples, Blocks.upToCompare]
  rw [StagedTrace.first, hsplit]
  exact firstSample_append (before_code_ne t (by decide)) t.keypair_ne t.keypair_code

theorem first_keypairDone :
    t.first kyberKeypairDone = (t.before ++ t.keypair).length := by
  have hsplit : t.samples = t.before ++ t.keypair ++ (t.enc ++
      (t.dec ++ t.decDone ++ t.compare ++ t.after)) := by
    simp [Blocks.samples, Blocks.upToCompare]
  have h1 := code_ne_append (before_code_ne t (c := kyberKeypairDone) (by decide)) t.keypair_code
    (by decide)
  rw [StagedTrace.first, hsplit]
  exact firstSample_append h1 t.enc_ne t.enc_code

theorem first_encDone :
    t.first kyberEncDone = (t.before ++ t.keypair ++ t.enc).length := by
  have hsplit : t.samples = t.before ++ t.keypair ++ t.enc ++ (t.dec ++
      (t.decDone ++ t.compare ++ t.after)) := by
    simp [Blocks.samples, Blocks.upToCompare]
  have h1 := code_ne_append (before_code_ne t (c := kyberEncDone) (by decide)) t.keypair_code
    (by decide)
  have h2 := code_ne_append h1 t.enc_code (by decide)
  rw [StagedTrace.first, hsplit]
  exact firstSample_append h2 t.dec_ne t.dec_code

theorem first_decDone :
    t.first kyberDecDone = (t.before ++ t.keypair ++ t.enc ++ t.dec).length := by
  have hsplit : t.samples = t.before ++ t.keypair ++ t.enc ++ t.dec ++ (t.decDone ++
      (t.compare ++ t.after)) := by
    simp [Blocks.samples, Blocks.upToCompare]
  have h1 := code_ne_append (before_code_ne t (c := kyberDecDone) (by decide)) t.keypair_code
    (by decide)
  have h2 := code_ne_append h1 t.enc_code (by decide)
  have h3 := code_ne_append h2 t.dec_code (by decide)
  rw [StagedTrace.first, hsplit]
  exact firstSample_append h3 t.decDone_ne t.decDone_code

theorem haltIndex_eq : t.haltIndex + 1 = t.samples.length := by
  rw [t.samples_eq]
  simp [StagedTrace.haltIndex]

/-- The last lap ends at the halt exactly when nothing comes after it. -/
theorem compareEnd_eq :
    t.compareEnd = t.upToCompare.length - (if t.after = [] then 1 else 0) := by
  have hlen := haltIndex_eq t
  rw [Blocks.samples, List.length_append] at hlen
  unfold StagedTrace.compareEnd
  by_cases hafter : t.after = []
  · rw [if_pos hafter]
    rw [hafter, List.length_nil] at hlen
    omega
  · have hpos := List.length_pos_iff.2 hafter
    rw [if_neg hafter]
    omega

end

/-! ## The accounting -/

/-- The variables when the run has halted. -/
theorem simulate_staged (timeoutCycles : ℕ) {m : Sim} (hm : m.verdict = none) {r : Sample}
    (hr : r.rstn = false) (t : StagedTrace) (ht : t.samples.length ≤ timeoutCycles) :
    (simulate timeoutCycles m (r :: t.samples)).vars =
        onHalt (t.samples.foldl track resetVars) ∧
      (simulate timeoutCycles m (r :: t.samples)).verdict =
        some (if t.halt.gpioOut.getLsbD 0 then .success else .errorIndication) := by
  have hlen := haltIndex_eq t
  have hreset : sample timeoutCycles m r = { m with vars := resetVars } := by
    simp [sample, hm, hr]
  have hcycles : resetVars.cycles + t.running.length < timeoutCycles := by
    change 0 + t.haltIndex < timeoutCycles
    omega
  obtain ⟨hnone, hvars⟩ := simulate_busy_vars timeoutCycles t.running_busy
    (m := { m with vars := resetVars }) hm hcycles
  obtain ⟨hend, hverdict⟩ := sample_halt timeoutCycles hnone t.halt_rstn t.halt_done
  have hsim : simulate timeoutCycles m (r :: t.samples) = sample timeoutCycles
      (simulate timeoutCycles { m with vars := resetVars } t.running) t.halt := by
    change simulate timeoutCycles (sample timeoutCycles m r) t.samples = _
    rw [hreset, t.samples_eq, simulate_append]
    rfl
  rw [hsim]
  refine ⟨?_, hverdict⟩
  rw [hend, hvars, t.samples_eq, List.foldl_append]
  rfl

/-- **The accounting is exact.** In every run after a reset that shows the five stage codes in
order and halts before the timeout, the stage cycles are the distances between the codes, the
stages and the samples after the last of them make up the total, and every retired instruction
is counted once. -/
theorem accounting_exact (timeoutCycles : ℕ) (m : Sim) (hm : m.verdict = none) (r : Sample)
    (hr : r.rstn = false) (t : StagedTrace) (ht : t.samples.length ≤ timeoutCycles) :
    Accounted (simulate timeoutCycles m (r :: t.samples)).vars t ∧
      (simulate timeoutCycles m (r :: t.samples)).verdict =
        some (if t.halt.gpioOut.getLsbD 0 then .success else .errorIndication) := by
  obtain ⟨hvars, hverdict⟩ := simulate_staged timeoutCycles hm hr t ht
  refine ⟨?_, hverdict⟩
  rw [hvars]
  obtain ⟨T, rfl, hnow, hstart, hkeypair, henc, hdec, hcompare⟩ := timer_halted t
  obtain ⟨hclose, htotal⟩ := timer_onHalt (t.samples.foldl track resetVars)
  have hsub : (t.samples.foldl track resetVars).timer.now -
      (t.samples.foldl track resetVars).timer.start = tally t.samples - (tally t.before + edge) := by
    rw [← hnow, ← hstart, hclose]
    rfl
  rw [hsub] at htotal
  generalize onHalt (t.samples.foldl track resetVars) = s at *
  obtain ⟨kc, ki⟩ := Prod.ext_iff.1 hkeypair
  obtain ⟨ec, ei⟩ := Prod.ext_iff.1 henc
  obtain ⟨dc, di⟩ := Prod.ext_iff.1 hdec
  obtain ⟨cc, ci⟩ := Prod.ext_iff.1 hcompare
  obtain ⟨tc, ti⟩ := Prod.ext_iff.1 htotal
  simp only [State.timer, State.stageCycles, State.stageInstr, tally, edge, Prod.fst_sub,
    Prod.snd_sub, Prod.fst_add, Prod.snd_add] at kc ki ec ei dc di cc ci tc ti
  have f1 := first_keypairStart t
  have f2 := first_keypairDone t
  have f3 := first_encDone t
  have f4 := first_decDone t
  have hend := compareEnd_eq t
  have hhalt := haltIndex_eq t
  have hlen : t.samples.length = t.upToCompare.length + t.after.length := List.length_append
  have hpos := List.length_pos_iff.2 t.compare_ne
  -- the halt sample belongs to the last lap or to what comes after it
  have htail : (if t.after = [] then 1 else 0) ≤ 1 ∧
      1 ≤ t.after.length + (if t.after = [] then 1 else 0) := by
    by_cases hafter : t.after = []
    · simp [hafter]
    · have hlast := List.length_pos_iff.2 hafter
      simp only [if_neg hafter]
      omega
  generalize (if t.after = [] then 1 else 0) = e at *
  simp only [Blocks.upToCompare, List.length_append, List.countP_append] at *
  have hcount : t.samples.countP (·.valid) = t.before.countP (·.valid) +
      (t.keypair.countP (·.valid) + t.enc.countP (·.valid) + t.dec.countP (·.valid) +
        (t.decDone.countP (·.valid) + t.compare.countP (·.valid)) + t.after.countP (·.valid)) := by
    simp only [Blocks.samples, Blocks.upToCompare, List.countP_append]
    omega
  have hdrop : (t.samples.drop t.before.length).countP (·.valid) + t.before.countP (·.valid) =
      t.samples.countP (·.valid) := by
    obtain ⟨rest, hrest⟩ : ∃ rest, t.samples = t.before ++ rest := by
      simp only [Blocks.samples, Blocks.upToCompare, List.append_assoc]
      exact ⟨_, rfl⟩
    rw [hrest, List.drop_left, List.countP_append, Nat.add_comm]
  constructor
  · omega
  · omega
  · omega
  · omega
  · omega
  · omega
  · exact ki
  · exact ei
  · exact di
  · rw [ci, List.countP_append]
  · rw [f1]
    omega
  · omega

/-- The code changes to `KYBER_COMPARE` on the very edge of the halt. -/
def haltOnChange : StagedTrace where
  before := [⟨true, true, false, 0x1⟩]
  keypair := [⟨true, true, false, 0x40⟩, ⟨true, false, true, 0x40⟩]
  enc := [⟨true, true, false, 0x50⟩]
  dec := [⟨true, false, false, 0x160⟩]
  decDone := [⟨true, true, false, 0x70⟩]
  compare := [⟨true, true, true, 0x80⟩]
  after := []
  before_code := by decide
  keypair_code := by decide
  enc_code := by decide
  dec_code := by decide
  decDone_code := by decide
  compare_code := by decide
  after_code := by decide
  keypair_ne := by decide
  enc_ne := by decide
  dec_ne := by decide
  decDone_ne := by decide
  compare_ne := by decide
  running := [⟨true, true, false, 0x1⟩, ⟨true, true, false, 0x40⟩, ⟨true, false, true, 0x40⟩,
    ⟨true, true, false, 0x50⟩, ⟨true, false, false, 0x160⟩, ⟨true, true, false, 0x70⟩]
  halt := ⟨true, true, true, 0x80⟩
  samples_eq := rfl
  running_busy := by simp [Sample.Busy]
  halt_rstn := rfl
  halt_done := rfl

theorem accounting_exact_haltOnChange :
    Accounted (simulate 100 initSim (⟨false, false, false, 0⟩ :: haltOnChange.samples)).vars
      haltOnChange ∧
    (simulate 100 initSim (⟨false, false, false, 0⟩ :: haltOnChange.samples)).vars.compareCycles = 1 ∧
    (simulate 100 initSim (⟨false, false, false, 0⟩ :: haltOnChange.samples)).vars.compareInstr = 2 := by
  obtain ⟨h, _⟩ := accounting_exact 100 initSim rfl ⟨false, false, false, 0⟩ rfl haltOnChange
    (by decide)
  refine ⟨h, ?_, ?_⟩
  · have hcycles := h.compareCycles
    rw [show haltOnChange.first kyberDecDone = 5 by decide,
      show haltOnChange.compareEnd = 6 by decide] at hcycles
    omega
  · rw [h.compareInstr]
    rfl

end KyberNeorv32.KyberTb
