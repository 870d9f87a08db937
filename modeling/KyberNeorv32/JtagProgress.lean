import KyberNeorv32.JtagWakeup

/-!
# A blocking `write` can always finish

From every state that the firmware can reach with its thread outside of `read` there is a schedule
at whose end the call of `write` has returned, the host has read everything that was written and no
interrupt is pending: no interleaving leads to a deadlock or strands bytes (`write_can_finish`). The
schedule asks for nothing new: the host takes bytes, interrupts are served, the thread and the clock
go on.

The interrupt routine ends because each turn of its loop uses up `work`; a turn that has something
to send takes bytes out of the ring; and an empty ring lets `write` go on.
-/

namespace KyberNeorv32.JtagUart

/-- Moves that finish what is under way. -/
def Action.serves : Action → Bool
  | .thread | .irq | .isr | .sample | .hostTake => true
  | .callWrite _ _ | .callRead _ _ | .timeout | .hostSend _ | .hostPause => false

/-- Some schedule of such moves leads from `s` to `s'`. -/
def Leads (s s' : System) : Prop := ∃ as : List Action, (∀ a ∈ as, a.serves = true) ∧ run s as = s'

theorem Leads.refl (s : System) : Leads s s := ⟨[], by simp, rfl⟩

theorem Leads.trans {s s' s'' : System} (h : Leads s s') (h' : Leads s' s'') : Leads s s'' := by
  obtain ⟨as, has, rfl⟩ := h
  obtain ⟨bs, hbs, rfl⟩ := h'
  refine ⟨as ++ bs, ?_, List.foldl_append ..⟩
  intro a ha
  rcases List.mem_append.1 ha with ha | ha
  · exact has a ha
  · exact hbs a ha

theorem Leads.step {s s' : System} {a : Action} (ha : a.serves = true) (hs : step s a = s') :
    Leads s s' :=
  ⟨[a], by simpa using ha, hs⟩

/-- `write` only waits for room that it has seen missing. -/
structure Waits (s : System) (c : WriteCall) : Prop where
  room : c.ptr < c.buffer.length → (c.pc = .disable ∨ c.pc = .kick ∨ c.pc = .enable ∨ c.pc = .test ∨
    c.pc = .spinOut ∨ c.pc = .spinHost) → txRoom s.uart.tx.inPos c.out = 0
  left : c.pc = .spinOut ∨ c.pc = .spinHost → c.ptr < c.buffer.length

def SpinInv (s : System) : Prop := ∀ c, s.thread = .write c → Waits s c

/-- All that is known of the states reached from `boot`. -/
structure Inv (s : System) : Prop where
  tx : TxInv s
  rx : RxInv s
  wake : WakeInv s
  host : HostInv s
  spin : SpinInv s
  timeout : s.uart.timeout = intMax

/-- Steps other than those of the thread leave its call and `tx_in` alone. -/
theorem SpinInv.frame {s s' : System} (h : SpinInv s) (ht : s'.thread = s.thread)
    (hin : s'.uart.tx.inPos = s.uart.tx.inPos) : SpinInv s' := by
  intro c hc
  have hold := h c (by rw [← ht]; exact hc)
  exact ⟨by rw [hin]; exact hold.room, hold.left⟩

theorem SpinInv.writeStep {s : System} {c : WriteCall} (h : SpinInv s) (ht : s.thread = .write c) :
    SpinInv (writeStep s c) := by
  obtain ⟨hroom, hleft⟩ := h c ht
  unfold JtagUart.writeStep
  cases hpc : c.pc with
  | loop =>
    simp only
    split_ifs with hcount hfull
    · rintro d ⟨⟩
      exact ⟨fun _ _ => hfull, by rintro (⟨⟨⟩⟩ | ⟨⟨⟩⟩)⟩
    · rintro d ⟨⟩
      exact ⟨fun _ hd => by simp at hd, by rintro (⟨⟨⟩⟩ | ⟨⟨⟩⟩)⟩
    · rintro d ⟨⟩
      exact ⟨fun hlt => absurd hlt hcount, by rintro (⟨⟨⟩⟩ | ⟨⟨⟩⟩)⟩
  | copy pos n j =>
    simp only
    split_ifs
    · rintro d ⟨⟩
      exact ⟨fun _ hd => by simp at hd, by rintro (⟨⟨⟩⟩ | ⟨⟨⟩⟩)⟩
    · rintro d ⟨⟩
      exact ⟨fun _ hd => by simp at hd, by rintro (⟨⟨⟩⟩ | ⟨⟨⟩⟩)⟩
  | disable | kick | enable =>
    rintro d ⟨⟩
    exact ⟨fun hlt _ => hroom hlt (by simp [hpc]), by rintro (⟨⟨⟩⟩ | ⟨⟨⟩⟩)⟩
  | test =>
    simp only
    split_ifs with hcount
    · rintro d ⟨⟩
    · rintro d ⟨⟩
      exact ⟨fun hlt _ => hroom hlt (by simp [hpc]), fun _ => hcount⟩
    · rintro d ⟨⟩
  | spinOut | spinHost =>
    rintro d ⟨⟩
    exact ⟨fun hlt _ => hroom hlt (by simp [hpc]), fun _ => hleft (by simp [hpc])⟩
  | checkHost =>
    simp only
    split_ifs
    · rintro d ⟨⟩
    · rintro d ⟨⟩
      exact ⟨fun _ hd => by simp at hd, by rintro (⟨⟨⟩⟩ | ⟨⟨⟩⟩)⟩

/-- What the thread never does to the other fields. -/
theorem readStep_thread (s : System) (c : ReadCall) :
    (∀ d, (readStep s c).thread ≠ .write d) ∧ (readStep s c).uart.timeout = s.uart.timeout := by
  unfold readStep
  cases c.pc with
  | fetch | recheck =>
    simp only
    split_ifs
    · exact ⟨by rintro d ⟨⟩, rfl⟩
    · exact ⟨by rintro d ⟨⟩, rfl⟩
  | copy | after =>
    simp only
    split_ifs
    · exact ⟨by rintro d ⟨⟩, rfl⟩
    · exact ⟨by rintro d ⟨⟩, rfl⟩
    · exact ⟨by rintro d ⟨⟩, rfl⟩
  | loop | spinIn | spinHost | disable | kick | enable => exact ⟨by rintro d ⟨⟩, rfl⟩

theorem isrStep_thread (s : System) (f : Frame) :
    (isrStep s f).thread = s.thread ∧ (isrStep s f).uart.tx.inPos = s.uart.tx.inPos ∧
      (isrStep s f).uart.timeout = s.uart.timeout ∧ (isrStep s f).mie = s.mie := by
  unfold isrStep
  cases f.pc with
  | top => exact ⟨rfl, rfl, rfl, rfl⟩
  | topRead =>
    simp only
    split_ifs
    · exact ⟨rfl, rfl, rfl, rfl⟩
    · exact ⟨rfl, rfl, rfl, rfl⟩
    · exact ⟨rfl, rfl, rfl, rfl⟩
  | rxLoop | rxRead | rxAfter | txCheck | txLoop | txAfter =>
    simp only
    split_ifs
    · exact ⟨rfl, rfl, rfl, rfl⟩
    · exact ⟨rfl, rfl, rfl, rfl⟩

theorem writeStep_timeout (s : System) (c : WriteCall) :
    (writeStep s c).uart.timeout = s.uart.timeout := by
  unfold writeStep
  cases c.pc with
  | loop | test =>
    simp only
    split_ifs
    · rfl
    · rfl
    · rfl
  | copy | checkHost =>
    simp only
    split_ifs
    · rfl
    · rfl
  | disable | kick | enable | spinOut | spinHost => rfl

theorem Inv.step {s : System} (h : Inv s) (a : Action) : Inv (step s a) := by
  refine ⟨h.tx.step a, h.rx.step a, h.wake.step h.rx a, h.host.step h.tx a, ?_, ?_⟩
  · cases a with
    | callWrite buffer nonblock =>
      simp only [JtagUart.step, callWrite]
      split
      · rintro d ⟨⟩
        exact ⟨fun _ hd => by simp at hd, by rintro (⟨⟨⟩⟩ | ⟨⟨⟩⟩)⟩
      · exact h.spin
    | callRead space nonblock =>
      simp only [JtagUart.step, callRead]
      split
      · rintro d ⟨⟩
      · exact h.spin
    | thread =>
      simp only [JtagUart.step, threadStep]
      split
      · rename_i ht
        exact h.spin.writeStep ht
      · exact fun d hd => absurd hd ((readStep_thread _ _).1 d)
      · exact h.spin
    | irq =>
      simp only [JtagUart.step]
      split_ifs
      · exact h.spin.frame rfl rfl
      · exact h.spin
    | isr =>
      simp only [JtagUart.step]
      split
      · exact h.spin.frame (isrStep_thread _ _).1 (isrStep_thread _ _).2.1
      · exact h.spin
    | timeout =>
      simp only [JtagUart.step, timeoutRoutine]
      split_ifs
      · exact h.spin.frame rfl rfl
      · exact h.spin.frame rfl rfl
      · exact h.spin.frame rfl rfl
      · exact h.spin.frame rfl rfl
    | sample | hostTake | hostSend | hostPause => exact h.spin.frame rfl rfl
  · rw [← h.timeout]
    cases a with
    | callWrite | callRead =>
      simp only [JtagUart.step, callWrite, callRead]
      split
      · rfl
      · rfl
    | thread =>
      simp only [JtagUart.step, threadStep]
      split
      · exact writeStep_timeout _ _
      · exact (readStep_thread _ _).2
      · rfl
    | isr =>
      simp only [JtagUart.step]
      split
      · exact (isrStep_thread _ _).2.2.1
      · rfl
    | irq =>
      simp only [JtagUart.step]
      split_ifs
      · rfl
      · rfl
    | timeout =>
      simp only [JtagUart.step, timeoutRoutine]
      split_ifs
      · rfl
      · rfl
      · rfl
      · rfl
    | sample | hostTake | hostSend | hostPause => rfl

theorem Inv.run {s : System} (h : Inv s) (as : List Action) : Inv (run s as) := by
  induction as generalizing s with
  | nil => exact h
  | cons a as ih => exact ih (h.step a)

theorem Inv.leads {s s' : System} (h : Inv s) (hl : Leads s s') : Inv s' := by
  obtain ⟨as, -, rfl⟩ := hl
  exact h.run as

theorem boot_inv : Inv boot :=
  ⟨init_txInv 0, init_rxInv 0, init_wakeInv 0, boot_hostInv, by rintro c ⟨⟩, rfl⟩

/-! ## The interrupt routine ends -/

/-- What there is left for the interrupt routine to do. -/
def System.work (s : System) : ℕ :=
  2 * s.dev.rfifo.length + s.inFlight.length + s.uart.tx.used bufLen + s.dev.ienAE.toNat +
    s.dev.ienAF.toNat + s.dev.pauseIrq.toNat

/-- Bytes on their way to the host. -/
def System.unsent (s : System) : ℕ := s.dev.wfifo.length + s.uart.tx.used bufLen

/-- Served by the interrupt routine: the thread has not moved and nothing has been added. -/
structure Served (s s' : System) : Prop where
  leads : Leads s s'
  thread : s'.thread = s.thread
  mie : s'.mie = s.mie
  used : s'.uart.tx.used bufLen ≤ s.uart.tx.used bufLen
  unsent : s'.unsent ≤ s.unsent
  work : s'.work ≤ s.work

theorem Served.refl (s : System) : Served s s := ⟨Leads.refl s, rfl, rfl, le_rfl, le_rfl, le_rfl⟩

theorem Served.trans {s s' s'' : System} (h : Served s s') (h' : Served s' s'') : Served s s'' where
  leads := h.leads.trans h'.leads
  thread := h'.thread.trans h.thread
  mie := h'.mie.trans h.mie
  used := h'.used.trans h.used
  unsent := h'.unsent.trans h.unsent
  work := h'.work.trans h.work

/-- Distance from the top of the loop. -/
def IsrPc.rank : IsrPc → ℕ
  | .top => 0
  | .txAfter => 1
  | .txLoop => 2
  | .txCheck => 3
  | .rxAfter => 4
  | .rxRead => 5
  | .rxLoop => 6
  | .topRead => 7

theorem step_isr {s : System} {f : Frame} (hf : s.isr = some f) : step s .isr = isrStep s f := by
  simp [step, hf]

theorem Served.of_isrStep {s s' : System} {f : Frame} (hf : s.isr = some f) (hs : isrStep s f = s')
    (hflow : 2 * s'.dev.rfifo.length + s'.inFlight.length ≤
      2 * s.dev.rfifo.length + s.inFlight.length)
    (hused : s'.uart.tx.used bufLen ≤ s.uart.tx.used bufLen) (hunsent : s'.unsent ≤ s.unsent)
    (hae : s'.dev.ienAE = true → s.dev.ienAE = true)
    (haf : s'.dev.ienAF = true → s.dev.ienAF = true)
    (hpause : s'.dev.pauseIrq = true → s.dev.pauseIrq = true) : Served s s' := by
  subst hs
  obtain ⟨ht, -, -, hm⟩ := isrStep_thread s f
  refine ⟨Leads.step rfl (step_isr hf), ht, hm, hused, hunsent, ?_⟩
  have h1 := Bool.toNat_le_toNat hae
  have h2 := Bool.toNat_le_toNat haf
  have h3 := Bool.toNat_le_toNat hpause
  unfold System.work
  omega

/-- Turning interrupts off turns none on. -/
theorem disableIrq_le {s : System} (h : WakeInv s) (mask : BitVec 32) :
    ((s.disableIrq mask).dev.ienAE = true → s.dev.ienAE = true) ∧
      ((s.disableIrq mask).dev.ienAF = true → s.dev.ienAF = true) := by
  rw [h.ienAE, h.ienAF]
  constructor
  · intro hset
    have hbit : (s.uart.irqEnable &&& ~~~mask).getLsbD 1 = true := hset
    rw [BitVec.getLsbD_and, Bool.and_eq_true] at hbit
    exact hbit.1
  · intro hset
    have hbit : (s.uart.irqEnable &&& ~~~mask).getLsbD 0 = true := hset
    rw [BitVec.getLsbD_and, Bool.and_eq_true] at hbit
    exact hbit.1

/-- Outside of a read of the data register no byte is in flight. -/
theorem inFlight_length {s : System} (hnot : s.NotReading) : s.inFlight.length = 0 := by
  rcases hi : s.isr with _ | f
  · simp [System.inFlight, hi]
  · simp [inFlight_of_pc hi (hnot f hi)]

/-- Moving on without touching ring, FIFO or enables. -/
theorem Served.moveIsr {s : System} {f f' : Frame} {d : Device} (hf : s.isr = some f)
    (hs : isrStep s f = (s.setDev d).inIsr f') (hpc : f'.pc ≠ .rxRead)
    (hfifo : d.rfifo = s.dev.rfifo ∧ d.wfifo = s.dev.wfifo)
    (hen : d.ienAE = s.dev.ienAE ∧ d.ienAF = s.dev.ienAF)
    (hpause : d.pauseIrq = true → s.dev.pauseIrq = true) : Served s (isrStep s f) := by
  refine Served.of_isrStep hf rfl ?_ ?_ ?_ ?_ ?_ ?_ <;> rw [hs]
  · rw [inFlight_length (System.notReading_of_some rfl hpc)]
    show 2 * d.rfifo.length + 0 ≤ _
    rw [hfifo.1]
    omega
  · rfl
  · show d.wfifo.length + _ ≤ _
    rw [hfifo.2]
    exact le_rfl
  · exact fun hae => hen.1 ▸ hae
  · exact fun haf => hen.2 ▸ haf
  · exact hpause

/-- Turning an interrupt off. -/
theorem Served.mask {s : System} {f f' : Frame} {mask : BitVec 32} (hf : s.isr = some f)
    (hs : isrStep s f = (s.disableIrq mask).inIsr f') (hpc : f'.pc ≠ .rxRead)
    (hae : (s.disableIrq mask).dev.ienAE = true → s.dev.ienAE = true)
    (haf : (s.disableIrq mask).dev.ienAF = true → s.dev.ienAF = true) : Served s (isrStep s f) := by
  refine Served.of_isrStep hf rfl ?_ ?_ ?_ ?_ ?_ ?_ <;> rw [hs]
  · rw [inFlight_length (System.notReading_of_some rfl hpc)]
    exact Nat.add_le_add_left (Nat.zero_le _) _
  · exact le_rfl
  · exact le_rfl
  · exact hae
  · exact haf
  · exact id

/-- Sending a byte takes it out of the ring. -/
theorem Served.send {s : System} {f : Frame} (h : TxInv s) (hf : s.isr = some f)
    (hpc : f.pc = .txLoop) (hpos : 0 < f.space) (hne : s.uart.tx.outPos ≠ s.uart.tx.inPos) :
    Served s (isrStep s f) ∧ (isrStep s f).uart.tx.used bufLen < s.uart.tx.used bufLen ∧
      (isrStep s f).work < s.work := by
  have hs : isrStep s f = ((s.setDev (s.dev.writeData (s.uart.tx.buf s.uart.tx.outPos))).setTx
      (s.uart.tx.free bufLen 1)).inIsr { f with space := f.space - 1 } := by
    unfold isrStep
    rw [hpc]
    simp only
    rw [if_pos ⟨hpos, hne⟩]
  have hpositive : 1 ≤ s.uart.tx.used bufLen :=
    Nat.one_le_iff_ne_zero.2 fun h0 => hne ((RingBuf.used_eq_zero_iff h.ok).1 h0)
  have hused : (isrStep s f).uart.tx.used bufLen = s.uart.tx.used bufLen - 1 := by
    rw [hs]
    exact RingBuf.used_free h.ok hpositive
  have hflight : (isrStep s f).inFlight.length = 0 := by
    rw [hs]
    exact inFlight_length (System.notReading_of_some rfl (by rw [hpc]; rintro ⟨⟩))
  obtain ⟨hae, haf, hfifo, hpause⟩ := writeData_same s.dev (s.uart.tx.buf s.uart.tx.outPos)
  have hdev : (isrStep s f).dev = s.dev.writeData (s.uart.tx.buf s.uart.tx.outPos) := by rw [hs]; rfl
  rw [← hdev] at hae haf hfifo hpause
  have hout : (isrStep s f).dev.wfifo.length ≤ s.dev.wfifo.length + 1 := by
    rw [hdev, Device.writeData]
    split_ifs
    · simp
    · exact Nat.le_succ _
  refine ⟨Served.of_isrStep hf rfl ?_ ?_ ?_ ?_ ?_ ?_, by omega, ?_⟩
  · rw [hflight, hfifo]
    omega
  · omega
  · unfold System.unsent
    omega
  · exact fun hset => hae ▸ hset
  · exact fun hset => haf ▸ hset
  · exact fun hset => hpause ▸ hset
  · unfold System.work
    rw [hflight, hfifo, hae, haf, hpause]
    omega

/-- Where a step below the top of the loop leads: out of the routine, closer to the top, or some
work is done. Only the top leads to the read of the control register. -/
structure Nearer (s s' : System) (f f' : Frame) : Prop where
  isr : s'.isr = some f'
  pc : f'.pc ≠ .topRead
  less : s'.work < s.work ∨ f'.pc.rank < f.pc.rank

theorem isr_progress {s : System} {f : Frame} (h : Inv s) (hf : s.isr = some f) (hpc : f.pc ≠ .top) :
    Served s (isrStep s f) ∧
      (f.pc = .topRead ∧ (isrStep s f).isr = none ∨ ∃ f', Nearer s (isrStep s f) f f') := by
  -- a step that only moves to a point nearer to the top
  have move : ∀ f' : Frame, isrStep s f = s.inIsr f' → f'.pc ≠ .rxRead → f'.pc ≠ .topRead →
      f'.pc.rank < f.pc.rank → Served s (isrStep s f) ∧
        (f.pc = .topRead ∧ (isrStep s f).isr = none ∨ ∃ f', Nearer s (isrStep s f) f f') := by
    intro f' hs hread htop hrank
    refine ⟨Served.moveIsr (d := s.dev) hf hs hread ⟨rfl, rfl⟩ ⟨rfl, rfl⟩ id,
      Or.inr ⟨f', ?_, htop, Or.inr hrank⟩⟩
    rw [hs]
    rfl
  obtain ⟨s', hs⟩ : ∃ s', isrStep s f = s' := ⟨_, rfl⟩
  have hs₁ := hs
  unfold isrStep at hs₁
  cases hp : f.pc with
  | top => exact absurd hp hpc
  | topRead =>
    rw [hp] at hs₁ move
    simp only at hs₁
    split_ifs at hs₁
    · refine ⟨?_, Or.inl ⟨rfl, by rw [hs, ← hs₁]⟩⟩
      refine Served.of_isrStep hf rfl ?_ ?_ ?_ ?_ ?_ ?_ <;> rw [hs, ← hs₁]
      · exact Nat.add_le_add_left (Nat.zero_le _) _
      · exact le_rfl
      · exact id
      · exact id
      · exact id
    · exact move _ (hs.trans hs₁.symm) (by rintro ⟨⟩) (by rintro ⟨⟩) (by simp [IsrPc.rank])
    · exact move _ (hs.trans hs₁.symm) (by rintro ⟨⟩) (by rintro ⟨⟩) (by simp [IsrPc.rank])
  | rxLoop =>
    rw [hp] at hs₁ move
    simp only at hs₁
    split_ifs at hs₁
    · exact move _ (hs.trans hs₁.symm) (by rintro ⟨⟩) (by rintro ⟨⟩) (by simp [IsrPc.rank])
    · refine ⟨?_, Or.inr ⟨_, by rw [hs, ← hs₁]; rfl, by rintro ⟨⟩, Or.inr (by simp [hp, IsrPc.rank])⟩⟩
      refine Served.of_isrStep hf rfl ?_ ?_ ?_ ?_ ?_ ?_ <;> rw [hs, ← hs₁]
      · rw [inFlight_length (System.notReading_of_some hf (by rw [hp]; rintro ⟨⟩))]
        cases hr : s.dev.rfifo with
        | nil => simp [System.inFlight, System.inIsr, System.setDev, Device.pop, hr]
        | cons b rest =>
          simp [System.inFlight, System.inIsr, System.setDev, Device.pop, hr]
      · exact le_rfl
      · exact le_rfl
      · exact id
      · exact id
      · exact id
  | rxRead =>
    rw [hp] at hs₁ move
    simp only at hs₁
    split_ifs at hs₁ with hempty
    · refine ⟨?_, Or.inr ⟨_, by rw [hs, ← hs₁]; rfl, by rintro ⟨⟩, Or.inr (by simp [hp, IsrPc.rank])⟩⟩
      exact Served.moveIsr hf (hs.trans hs₁.symm) (by rintro ⟨⟩) ⟨rfl, rfl⟩ ⟨rfl, rfl⟩ (by rintro ⟨⟩)
    · have hvalid : s.dev.rvalid = true := by
        rw [← Bool.not_eq_false]
        exact fun hv => hempty ((dataWord_rvalid s.dev).2 hv)
      have hflight : s.inFlight.length = 1 := by simp [System.inFlight, hf, hp, hvalid]
      have hflight' : s'.inFlight.length = 0 := by
        rw [← hs₁]
        exact inFlight_length (System.notReading_of_some rfl (by rintro ⟨⟩))
      have hserved : Served s (isrStep s f) := by
        refine Served.of_isrStep hf rfl ?_ ?_ ?_ ?_ ?_ ?_
        · rw [hs, hflight, hflight', ← hs₁]
          exact Nat.le_succ _
        · rw [hs, ← hs₁]
          exact le_rfl
        · rw [hs, ← hs₁]
          exact le_rfl
        · rw [hs, ← hs₁]
          exact id
        · rw [hs, ← hs₁]
          exact id
        · rw [hs, ← hs₁]
          rintro ⟨⟩
      refine ⟨hserved, Or.inr ⟨_, by rw [hs, ← hs₁]; rfl, by rintro ⟨⟩, Or.inl ?_⟩⟩
      rw [hs]
      unfold System.work
      rw [hflight, hflight', ← hs₁]
      show 2 * s.dev.rfifo.length + 0 + s.uart.tx.used bufLen + s.dev.ienAE.toNat +
        s.dev.ienAF.toNat + 0 < _
      omega
  | rxAfter =>
    rw [hp] at hs₁ move
    simp only at hs₁
    split_ifs at hs₁
    · obtain ⟨hae, haf⟩ := disableIrq_le h.wake reMsk
      refine ⟨?_, Or.inr ⟨_, by rw [hs, ← hs₁]; rfl, by rintro ⟨⟩, Or.inr (by simp [hp, IsrPc.rank])⟩⟩
      exact Served.mask hf (hs.trans hs₁.symm) (by rintro ⟨⟩) hae haf
    · exact move _ (hs.trans hs₁.symm) (by rintro ⟨⟩) (by rintro ⟨⟩) (by simp [IsrPc.rank])
  | txCheck =>
    rw [hp] at hs₁ move
    simp only at hs₁
    split_ifs at hs₁
    · exact move _ (hs.trans hs₁.symm) (by rintro ⟨⟩) (by rintro ⟨⟩) (by simp [IsrPc.rank])
    · exact move _ (hs.trans hs₁.symm) (by rintro ⟨⟩) (by rintro ⟨⟩) (by simp [IsrPc.rank])
  | txLoop =>
    rw [hp] at hs₁ move
    simp only at hs₁
    split_ifs at hs₁ with hsend
    · obtain ⟨hserved, hless⟩ := Served.send h.tx hf hp hsend.1 hsend.2
      exact ⟨hserved, Or.inr ⟨_, by rw [hs, ← hs₁]; rfl, by simp, Or.inl hless.2⟩⟩
    · exact move _ (hs.trans hs₁.symm) (by rintro ⟨⟩) (by rintro ⟨⟩) (by simp [IsrPc.rank])
  | txAfter =>
    rw [hp] at hs₁ move
    simp only at hs₁
    split_ifs at hs₁
    · obtain ⟨hae, haf⟩ := disableIrq_le h.wake weMsk
      refine ⟨?_, Or.inr ⟨_, by rw [hs, ← hs₁]; rfl, by rintro ⟨⟩, Or.inr (by simp [hp, IsrPc.rank])⟩⟩
      exact Served.mask hf (hs.trans hs₁.symm) (by rintro ⟨⟩) hae haf
    · exact move _ (hs.trans hs₁.symm) (by rintro ⟨⟩) (by rintro ⟨⟩) (by simp [IsrPc.rank])

/-- At the top of the loop. -/
def System.AtTop (s : System) : Prop := ∃ f, s.isr = some f ∧ f.pc = .top

/-- From every other point but the read of the control register the routine gets to the top of its
loop. -/
theorem isr_reaches_top {s : System} {f : Frame} (h : Inv s) (hf : s.isr = some f)
    (hread : f.pc ≠ .topRead) : ∃ s', Served s s' ∧ s'.AtTop := by
  generalize hw : s.work = w
  generalize hr : f.pc.rank = r
  induction w using Nat.strong_induction_on generalizing s f r with
  | _ w ihw =>
    induction r using Nat.strong_induction_on generalizing s f with
    | _ r ihr =>
      by_cases hpc : f.pc = .top
      · exact ⟨s, Served.refl s, f, hf, hpc⟩
      · obtain ⟨hserved, ⟨hpc', -⟩ | ⟨f', hf', hread', hless | hrank⟩⟩ := isr_progress h hf hpc
        · exact absurd hpc' hread
        · obtain ⟨s', hs', hend⟩ :=
            ihw _ (hw ▸ hless) (h.leads hserved.leads) hf' hread' rfl _ rfl
          exact ⟨s', hserved.trans hs', hend⟩
        · rcases Nat.lt_or_eq_of_le hserved.work with hless | heq
          · obtain ⟨s', hs', hend⟩ :=
              ihw _ (hw ▸ hless) (h.leads hserved.leads) hf' hread' rfl _ rfl
            exact ⟨s', hserved.trans hs', hend⟩
          · obtain ⟨s', hs', hend⟩ :=
              ihr _ (hr ▸ hrank) (h.leads hserved.leads) hf' hread' (heq.trans hw) rfl
            exact ⟨s', hserved.trans hs', hend⟩

/-! ## A turn of the loop -/

/-- In the receive part of the loop. -/
def Frame.inRx (f : Frame) : Prop := f.pc = .rxLoop ∨ f.pc = .rxRead ∨ f.pc = .rxAfter

/-- The receive part leaves the transmit side alone and ends at its check. -/
theorem rx_step {s : System} {f : Frame} (h : Inv s) (hrx : f.inRx) :
    ∃ f', (isrStep s f).isr = some f' ∧ f'.control = f.control ∧
      (isrStep s f).uart.tx = s.uart.tx ∧ (isrStep s f).dev.ienAE = s.dev.ienAE ∧
      (f'.pc = .txCheck ∨ f'.inRx) := by
  unfold isrStep
  rcases hrx with hpc | hpc | hpc
  · rw [hpc]
    simp only
    split_ifs
    · exact ⟨_, rfl, rfl, rfl, rfl, Or.inr (Or.inr (Or.inr rfl))⟩
    · exact ⟨_, rfl, rfl, rfl, rfl, Or.inr (Or.inr (Or.inl rfl))⟩
  · rw [hpc]
    simp only
    split_ifs
    · exact ⟨_, rfl, rfl, rfl, rfl, Or.inr (Or.inr (Or.inr rfl))⟩
    · exact ⟨_, rfl, rfl, rfl, rfl, Or.inr (Or.inl rfl)⟩
  · rw [hpc]
    simp only
    split_ifs
    · exact ⟨_, rfl, rfl, rfl, (getLsbD_reMsk _).2.2.2.trans h.wake.ienAE.symm, Or.inl rfl⟩
    · exact ⟨_, rfl, rfl, rfl, rfl, Or.inl rfl⟩

/-- At the transmit check of the same turn. -/
structure AtTxCheck (s s' : System) (f f' : Frame) : Prop where
  served : Served s s'
  isr : s'.isr = some f'
  pc : f'.pc = .txCheck
  control : f'.control = f.control
  tx : s'.uart.tx = s.uart.tx
  ienAE : s'.dev.ienAE = s.dev.ienAE

theorem rx_reaches_txCheck {s : System} {f : Frame} (h : Inv s) (hf : s.isr = some f)
    (hrx : f.inRx) : ∃ s' f', AtTxCheck s s' f f' := by
  generalize hw : s.work = w
  generalize hr : f.pc.rank = r
  induction w using Nat.strong_induction_on generalizing s f r with
  | _ w ihw =>
    induction r using Nat.strong_induction_on generalizing s f with
    | _ r ihr =>
      obtain ⟨f', hf', hcontrol, htx, hae, hnext⟩ := rx_step h hrx
      have hpc : f.pc ≠ .top := by
        rcases hrx with hpc | hpc | hpc <;> rw [hpc] <;> rintro ⟨⟩
      obtain ⟨hserved, hprogress⟩ := isr_progress h hf hpc
      rcases hnext with hdone | hrx'
      · exact ⟨_, f', hserved, hf', hdone, hcontrol, htx, hae⟩
      · have hrest : ∃ s' f'', AtTxCheck (isrStep s f) s' f' f'' := by
          have hI := h.leads hserved.leads
          rcases hprogress with ⟨-, hnone⟩ | ⟨g, hg, -, hless | hrank⟩
          · rw [hf'] at hnone
            cases hnone
          · exact ihw _ (hw ▸ hless) hI hf' hrx' rfl _ rfl
          · rw [hf'] at hg
            cases hg
            rcases Nat.lt_or_eq_of_le hserved.work with hless | heq
            · exact ihw _ (hw ▸ hless) hI hf' hrx' rfl _ rfl
            · exact ihr _ (hr ▸ hrank) hI hf' hrx' (heq.trans hw) rfl
        obtain ⟨s', f'', hat⟩ := hrest
        exact ⟨s', f'', hserved.trans hat.served, hat.isr, hat.pc, hat.control.trans hcontrol,
          hat.tx.trans htx, hat.ienAE.trans hae⟩

/-- With the receive interrupt on and bytes waiting, the receive part does some work. -/
theorem rx_turn {s : System} {f : Frame} (h : Inv s) (hf : s.isr = some f) (hpc : f.pc = .rxLoop)
    (hdata : f.data &&& ravailMsk ≠ 0) (haf : s.dev.ienAF = true) (hne : s.dev.rfifo ≠ []) :
    ∃ s' f', AtTxCheck s s' f f' ∧ s'.work < s.work := by
  have hrx : f.inRx := Or.inl hpc
  obtain ⟨hserved, -⟩ := isr_progress h hf (by rw [hpc]; rintro ⟨⟩)
  have hI := h.leads hserved.leads
  obtain ⟨f₁, hf₁, hcontrol, htx, hae, -⟩ := rx_step h hrx
  by_cases hfull : (s.uart.rx.inPos + 1) % bufLen = s.uart.rx.outPos
  · -- the ring is full: the receive interrupt is turned off
    have hs₁ : isrStep s f = s.inIsr { f with pc := .rxAfter } := by
      unfold isrStep
      rw [hpc]
      exact if_pos hfull
    rw [hs₁] at hserved hI
    have hs₂ : isrStep (s.inIsr { f with pc := .rxAfter }) { f with pc := .rxAfter } =
        ((s.inIsr { f with pc := .rxAfter }).disableIrq reMsk).inIsr { f with pc := .txCheck } :=
      if_pos hdata
    obtain ⟨hserved₂, -⟩ := isr_progress (f := { f with pc := .rxAfter }) hI rfl (by rintro ⟨⟩)
    rw [hs₂] at hserved₂
    refine ⟨_, _, ⟨hserved.trans hserved₂, rfl, rfl, rfl, rfl, ?_⟩, ?_⟩
    · exact (getLsbD_reMsk _).2.2.2.trans h.wake.ienAE.symm
    · have hoff := (getLsbD_reMsk s.uart.irqEnable).2.2.1
      have hkeep := (getLsbD_reMsk s.uart.irqEnable).2.2.2.trans h.wake.ienAE.symm
      unfold System.work
      rw [inFlight_length (System.notReading_of_some (f := { f with pc := .txCheck }) rfl (by rintro ⟨⟩)),
        inFlight_length (System.notReading_of_some hf (by rw [hpc]; rintro ⟨⟩)), haf]
      show 2 * s.dev.rfifo.length + 0 + s.uart.tx.used bufLen +
        ((s.uart.irqEnable &&& ~~~reMsk).getLsbD 1).toNat +
        ((s.uart.irqEnable &&& ~~~reMsk).getLsbD 0).toNat + s.dev.pauseIrq.toNat < _
      rw [hoff, hkeep]
      simp
  · -- a byte is taken out of the FIFO
    have hs₁ : isrStep s f = (s.setDev s.dev.pop).inIsr { f with pc := .rxRead } := by
      unfold isrStep
      rw [hpc]
      exact if_neg hfull
    have hless : (isrStep s f).work < s.work := by
      obtain ⟨b, rest, hfifo⟩ := List.exists_cons_of_ne_nil hne
      have hflight := inFlight_length (System.notReading_of_some hf (by rw [hpc]; rintro ⟨⟩))
      rw [hs₁]
      unfold System.work
      rw [hflight]
      simp [System.inFlight, System.inIsr, System.setDev, Device.pop, hfifo]
      omega
    have hrx₁ : f₁.inRx := by
      rw [hs₁] at hf₁
      cases hf₁
      exact Or.inr (Or.inl rfl)
    obtain ⟨s', f', hat⟩ := rx_reaches_txCheck hI hf₁ hrx₁
    exact ⟨s', f', ⟨hserved.trans hat.served, hat.isr, hat.pc, hat.control.trans hcontrol,
      hat.tx.trans htx, hat.ienAE.trans hae⟩, lt_of_le_of_lt hat.served.work hless⟩

/-- With the transmit interrupt on and room in the FIFO, the transmit part sends or turns it off. -/
theorem tx_turn {s : System} {f : Frame} (h : Inv s) (hf : s.isr = some f) (hpc : f.pc = .txCheck)
    (hwi : f.control &&& wiMsk ≠ 0) (hspace : 0 < ((f.control &&& wspaceMsk) >>> 16).toNat)
    (hae : s.dev.ienAE = true) :
    ∃ s', Served s s' ∧ s'.AtTop ∧ s'.work < s.work ∧
      (s.uart.tx.outPos ≠ s.uart.tx.inPos → s'.uart.tx.used bufLen < s.uart.tx.used bufLen) := by
  obtain ⟨f₁, hf₁⟩ : ∃ f₁ : Frame, f₁ =
      { f with space := ((f.control &&& wspaceMsk) >>> 16).toNat, pc := .txLoop } := ⟨_, rfl⟩
  have hpc₁ : f₁.pc = .txLoop := by rw [hf₁]
  have hpos : 0 < f₁.space := by rw [hf₁]; exact hspace
  have hs₁ : isrStep s f = s.inIsr f₁ := by
    unfold isrStep
    rw [hpc, hf₁]
    exact if_pos hwi
  have hserved₁ : Served s (s.inIsr f₁) := by
    have hserved := (isr_progress h hf (by rw [hpc]; rintro ⟨⟩)).1
    rwa [hs₁] at hserved
  have hI₁ := h.leads hserved₁.leads
  by_cases hne : s.uart.tx.outPos = s.uart.tx.inPos
  · -- nothing to send: the transmit interrupt is turned off
    have hs₂ : isrStep (s.inIsr f₁) f₁ = s.inIsr { f₁ with pc := .txAfter } := by
      unfold isrStep
      rw [hpc₁]
      exact if_neg fun hsend => hsend.2 hne
    have hserved₂ : Served (s.inIsr f₁) (s.inIsr { f₁ with pc := .txAfter }) := by
      have hserved := (isr_progress hI₁ rfl (by rw [hpc₁]; rintro ⟨⟩)).1
      rwa [hs₂] at hserved
    have hI₂ := hI₁.leads hserved₂.leads
    have hs₃ : isrStep (s.inIsr { f₁ with pc := .txAfter }) { f₁ with pc := .txAfter } =
        ((s.inIsr { f₁ with pc := .txAfter }).disableIrq weMsk).inIsr { f₁ with pc := .top } :=
      if_pos hpos
    have hserved₃ := (isr_progress hI₂ (f := { f₁ with pc := .txAfter }) rfl (by rintro ⟨⟩)).1
    rw [hs₃] at hserved₃
    refine ⟨_, (hserved₁.trans hserved₂).trans hserved₃, ⟨_, rfl, rfl⟩, ?_, absurd hne⟩
    have hoff := (getLsbD_weMsk s.uart.irqEnable).2.2.1
    have hkeep := (getLsbD_weMsk s.uart.irqEnable).2.2.2.trans h.wake.ienAF.symm
    unfold System.work
    rw [inFlight_length (System.notReading_of_some (f := { f₁ with pc := .top }) rfl (by rintro ⟨⟩)),
      inFlight_length (System.notReading_of_some hf (by rw [hpc]; rintro ⟨⟩)), hae]
    show 2 * s.dev.rfifo.length + 0 + s.uart.tx.used bufLen +
      ((s.uart.irqEnable &&& ~~~weMsk).getLsbD 1).toNat +
      ((s.uart.irqEnable &&& ~~~weMsk).getLsbD 0).toNat + s.dev.pauseIrq.toNat < _
    rw [hoff, hkeep]
    simp
  · -- a byte is sent
    obtain ⟨hsent, hused, hwork⟩ := Served.send hI₁.tx (f := f₁) rfl hpc₁ hpos hne
    obtain ⟨-, ⟨hpc₂, -⟩ | ⟨f₂, hf₂, hread₂, -⟩⟩ :=
      isr_progress (s := s.inIsr f₁) (f := f₁) hI₁ rfl (by rw [hpc₁]; rintro ⟨⟩)
    · rw [hpc₁] at hpc₂
      cases hpc₂
    obtain ⟨s', hserved, hend⟩ := isr_reaches_top (hI₁.leads hsent.leads) hf₂ hread₂
    exact ⟨s', (hserved₁.trans hsent).trans hserved, hend,
      lt_of_le_of_lt hserved.work (lt_of_lt_of_le hwork hserved₁.work),
      fun _ => lt_of_le_of_lt hserved.used (lt_of_lt_of_le hused hserved₁.used)⟩

/-- No interrupt is served or pending, and none will be for as long as only the clock runs. -/
structure System.Settled (s : System) : Prop where
  isr : s.isr = none
  irq : s.dev.irq = false
  sample : s.dev.sample = s.dev

/-- A turn of the loop, from the read of the control register with fresh flags on: the routine
returns and leaves nothing pending, or some work is done; with bytes in the ring and the FIFO
drained, some of them are sent. -/
theorem turn {s : System} {f : Frame} (h : Inv s) (hf : s.isr = some f) (hpc : f.pc = .topRead)
    (hfresh : s.dev.sample = s.dev) :
    ∃ s', Served s s' ∧ (s'.Settled ∨ s'.work < s.work ∧ s'.AtTop) ∧
      (s.dev.ienAE = true → s.dev.wfifo.length ≤ irqThreshold →
        s.uart.tx.outPos ≠ s.uart.tx.inPos → s'.uart.tx.used bufLen < s.uart.tx.used bufLen) := by
  have hserved := (isr_progress h hf (by rw [hpc]; rintro ⟨⟩)).1
  have hI := h.leads hserved.leads
  have hs := isrStep.eq_def s f
  rw [hpc] at hs
  simp only at hs
  -- what a pending transmit interrupt says
  have hpending : s.dev.control &&& wiMsk ≠ 0 ↔
      s.dev.ienAE = true ∧ s.dev.wfifo.length ≤ irqThreshold := by
    have hae : s.dev.fifoAE = decide (s.dev.wfifo.length ≤ irqThreshold) :=
      (congrArg Device.fifoAE hfresh).symm
    rw [Ne, control_wi, Bool.not_eq_false, Device.ipenAE, Bool.and_eq_true, hae, decide_eq_true_eq]
  have hroom : s.dev.wfifo.length ≤ irqThreshold →
      0 < ((s.dev.control &&& wspaceMsk) >>> 16).toNat := by
    rw [control_wspace]
    unfold irqThreshold fifoDepth
    omega
  split_ifs at hs with hdone hri
  · rw [BitVec.and_or_distrib_left] at hdone
    obtain ⟨hri, hwi⟩ := BitVec.or_eq_zero_iff.1 hdone
    have hsettled : (isrStep s f).Settled := by
      rw [hs]
      refine ⟨rfl, ?_, hfresh⟩
      show (s.dev.ipenAE || s.dev.ipenAF) = false
      rw [(control_ri s.dev).1 hri, (control_wi s.dev).1 hwi]
      rfl
    refine ⟨_, hserved, Or.inl hsettled, fun hae hlow hne => ?_⟩
    exact absurd hwi (hpending.2 ⟨hae, hlow⟩)
  · rw [hs] at hserved hI
    have haf : s.dev.ienAF = true := by
      rw [Ne, control_ri, Bool.not_eq_false, Device.ipenAF, Bool.and_eq_true] at hri
      exact hri.1
    have hne : s.dev.rfifo ≠ [] := by
      have hknows := h.wake.knows f hf
      unfold Frame.Knows at hknows
      rw [hpc] at hknows
      exact rfifo_of_ipenAF hknows
        (h.wake.pause (System.notReading_of_some hf (by rw [hpc]; rintro ⟨⟩))) hri
    obtain ⟨s₁, f₁, hat, hless⟩ := rx_turn hI rfl rfl
      (show 1#32 <<< 16 &&& ravailMsk ≠ 0 by decide) haf hne
    have hI₁ := hI.leads hat.served.leads
    have hcontrol : f₁.control = s.dev.control := hat.control
    have htx : s₁.uart.tx = s.uart.tx := hat.tx
    have hae₁ : s₁.dev.ienAE = s.dev.ienAE := hat.ienAE
    by_cases hwi : s.dev.control &&& wiMsk = 0
    · obtain ⟨s₂, hserved₂, hend⟩ := isr_reaches_top hI₁ hat.isr (by rw [hat.pc]; rintro ⟨⟩)
      refine ⟨s₂, (hserved.trans hat.served).trans hserved₂, Or.inr ⟨?_, hend⟩, ?_⟩
      · exact lt_of_le_of_lt hserved₂.work (lt_of_lt_of_le hless hserved.work)
      · exact fun hae hlow => absurd hwi (hpending.2 ⟨hae, hlow⟩)
    · obtain ⟨hae, hlow⟩ := hpending.1 hwi
      obtain ⟨s₂, hserved₂, hend, hless₂, hused⟩ := tx_turn hI₁ hat.isr hat.pc (by rwa [hcontrol])
        (by rw [hcontrol]; exact hroom hlow) (hae₁.trans hae)
      rw [htx] at hused
      refine ⟨s₂, (hserved.trans hat.served).trans hserved₂, Or.inr ⟨?_, hend⟩, fun _ _ => hused⟩
      exact lt_of_lt_of_le hless₂ (hat.served.work.trans hserved.work)
  · rw [hs] at hserved hI
    have hwi : s.dev.control &&& wiMsk ≠ 0 := by
      intro hwi
      rw [BitVec.and_or_distrib_left] at hdone
      exact hdone (by rw [not_not.1 hri, hwi]; rfl)
    obtain ⟨hae, hlow⟩ := hpending.1 hwi
    obtain ⟨s₂, hserved₂, hend, hless, hused⟩ := tx_turn hI rfl rfl hwi (hroom hlow) hae
    refine ⟨s₂, hserved.trans hserved₂, Or.inr ⟨?_, hend⟩, fun _ _ => hused⟩
    exact lt_of_lt_of_le hless hserved.work

/-- The first step of a turn: the flags are fresh. -/
theorem top_step {s : System} {f : Frame} (hf : s.isr = some f) (hpc : f.pc = .top) :
    isrStep s f = (s.setDev s.dev.sample).inIsr { f with pc := .topRead } ∧
      Served s (isrStep s f) := by
  have hs : isrStep s f = (s.setDev s.dev.sample).inIsr { f with pc := .topRead } := by
    unfold isrStep
    rw [hpc]
  exact ⟨hs, Served.moveIsr hf hs (by rintro ⟨⟩) ⟨rfl, rfl⟩ ⟨rfl, rfl⟩ id⟩

/-- From the top of its loop the routine can return, with nothing pending. -/
theorem isr_settles {s : System} (h : Inv s) (htop : s.AtTop) : ∃ s', Served s s' ∧ s'.Settled := by
  generalize hw : s.work = w
  induction w using Nat.strong_induction_on generalizing s with
  | _ w ih =>
    obtain ⟨f, hf, hpc⟩ := htop
    obtain ⟨hs₁, hserved₁⟩ := top_step hf hpc
    have hI₁ := h.leads hserved₁.leads
    rw [hs₁] at hserved₁ hI₁
    obtain ⟨s₂, hserved₂, hsettled | ⟨hless, htop₂⟩, -⟩ := turn hI₁ rfl rfl rfl
    · exact ⟨s₂, hserved₁.trans hserved₂, hsettled⟩
    · have hless' : s₂.work < w := by
        rw [← hw]
        exact lt_of_lt_of_le hless hserved₁.work
      have hall := hserved₁.trans hserved₂
      obtain ⟨s₃, hserved₃, hsettled⟩ := ih _ hless' (h.leads hall.leads) htop₂ rfl
      exact ⟨s₃, hall.trans hserved₃, hsettled⟩

/-- The interrupt routine can always return. -/
theorem isr_returns {s : System} {f : Frame} (h : Inv s) (hf : s.isr = some f) :
    ∃ s', Served s s' ∧ s'.isr = none := by
  -- from wherever it does not read the control register, by way of the top
  have below : ∀ {s : System} {f : Frame}, Inv s → s.isr = some f → f.pc ≠ .topRead →
      ∃ s', Served s s' ∧ s'.isr = none := by
    intro s f h hf hread
    obtain ⟨s₁, hserved₁, htop⟩ := isr_reaches_top h hf hread
    obtain ⟨s₂, hserved₂, hsettled⟩ := isr_settles (h.leads hserved₁.leads) htop
    exact ⟨s₂, hserved₁.trans hserved₂, hsettled.isr⟩
  by_cases hread : f.pc = .topRead
  · obtain ⟨hserved, ⟨-, hnone⟩ | ⟨f', hf', hread', -⟩⟩ :=
      isr_progress h hf (by rw [hread]; rintro ⟨⟩)
    · exact ⟨_, hserved, hnone⟩
    · obtain ⟨s', hserved', hnone⟩ := below (h.leads hserved.leads) hf' hread'
      exact ⟨s', hserved.trans hserved', hnone⟩
  · exact below h hf hread

/-- A clock edge adds nothing. -/
theorem Served.sample (s : System) : Served s (JtagUart.step s .sample) :=
  ⟨Leads.step rfl rfl, rfl, rfl, le_rfl, le_rfl, le_rfl⟩

/-- The processor takes a pending interrupt. -/
theorem Served.irq {s : System} (hmie : s.mie = true) (hi : s.isr = none) (hirq : s.dev.irq = true) :
    Served s (s.inIsr ⟨0, 0, 0, .top⟩) := by
  have hstep : JtagUart.step s .irq = s.inIsr ⟨0, 0, 0, .top⟩ :=
    if_pos ⟨hmie, Option.isNone_iff_eq_none.2 hi, hirq⟩
  refine ⟨Leads.step rfl hstep, rfl, rfl, le_rfl, le_rfl, ?_⟩
  have hold := inFlight_length (System.notReading_of_none hi)
  have hnew := inFlight_length (System.notReading_of_some (s := s.inIsr ⟨0, 0, 0, .top⟩) rfl
    (by rintro ⟨⟩))
  unfold System.work
  rw [hold, hnew]
  exact le_rfl

/-- With the routine at rest, everything pending can be served. -/
theorem settles {s : System} (h : Inv s) (hi : s.isr = none) (hm : s.thread.masked = none) :
    ∃ s', Served s s' ∧ s'.Settled := by
  have hserved := Served.sample s
  by_cases hirq : s.dev.sample.irq = true
  · have hserved₁ := hserved.trans (Served.irq (s := step s .sample) (h.wake.mie_of hm) hi hirq)
    obtain ⟨s₂, hserved₂, hsettled⟩ := isr_settles (h.leads hserved₁.leads) ⟨_, rfl, rfl⟩
    exact ⟨s₂, hserved₁.trans hserved₂, hsettled⟩
  · exact ⟨_, hserved, hi, Bool.not_eq_true _ ▸ hirq, rfl⟩

/-! ## The ring drains -/

/-- The host takes all there is in the FIFO. -/
theorem host_drains (s : System) : ∃ s', Served s s' ∧ s'.dev.wfifo = [] ∧ s'.isr = s.isr ∧
    s'.uart = s.uart ∧ s'.dev.ienAE = s.dev.ienAE := by
  generalize hn : s.dev.wfifo.length = n
  induction n generalizing s with
  | zero => exact ⟨s, Served.refl s, List.length_eq_zero_iff.1 hn, rfl, rfl, rfl⟩
  | succ n ih =>
    obtain ⟨s', hserved, hnil, hi, hu, hae⟩ := ih (step s .hostTake)
      (by simp [step, Device.hostTake, hn])
    have hone : Served s (step s .hostTake) := by
      refine ⟨Leads.step rfl rfl, rfl, rfl, le_rfl, ?_, le_rfl⟩
      refine Nat.add_le_add_right ?_ _
      show s.dev.wfifo.tail.length ≤ _
      simp
    exact ⟨s', hone.trans hserved, hnil, hi, hu, hae⟩

/-- With the interrupt routine at rest and the thread past its kick, the host can get bytes out. -/
theorem drain_some {s : System} (h : Inv s) (hi : s.isr = none) (hk : s.thread.unkicked = false)
    (hm : s.thread.masked = none) (hne : s.uart.tx.outPos ≠ s.uart.tx.inPos) :
    ∃ s', Leads s s' ∧ s'.thread = s.thread ∧ s'.isr = none ∧
      s'.uart.tx.used bufLen < s.uart.tx.used bufLen := by
  obtain ⟨s₁, hserved₁, hnil, hi₁, hu₁, hae₁⟩ := host_drains s
  have hae : s₁.dev.ienAE = true := hae₁.trans (h.wake.ienAE.trans (h.wake.tx hk hne))
  have hmie : s₁.mie = true := hserved₁.mie.trans (h.wake.mie_of hm)
  -- the clock edge raises the interrupt, and the processor takes it
  have hirq : s₁.dev.sample.irq = true := by
    simp [Device.irq, Device.ipenAE, Device.sample, hae, hnil]
  have hserved₂ := (hserved₁.trans (Served.sample s₁)).trans
    (Served.irq (s := step s₁ .sample) hmie (hi₁.trans hi) hirq)
  obtain ⟨hs₃, hserved₃⟩ := top_step (s := (step s₁ .sample).inIsr ⟨0, 0, 0, .top⟩) rfl rfl
  rw [hs₃] at hserved₃
  have hall := hserved₂.trans hserved₃
  obtain ⟨s₄, hserved₄, hend, hused⟩ := turn (h.leads hall.leads) rfl rfl rfl
  have hlow : s₁.dev.wfifo.length ≤ irqThreshold := by rw [hnil]; exact Nat.zero_le _
  have hne₁ : s₁.uart.tx.outPos ≠ s₁.uart.tx.inPos := by rwa [hu₁]
  have hless : s₄.uart.tx.used bufLen < s.uart.tx.used bufLen := by
    rw [← hu₁]
    exact hused hae hlow hne₁
  have hserved := hall.trans hserved₄
  rcases hend with hsettled | ⟨-, f₄, hf₄, -⟩
  · exact ⟨s₄, hserved.leads, hserved.thread, hsettled.isr, hless⟩
  · obtain ⟨s₅, hserved₅, hnone⟩ := isr_returns (h.leads hserved.leads) hf₄
    exact ⟨s₅, hserved.leads.trans hserved₅.leads, hserved₅.thread.trans hserved.thread, hnone,
      lt_of_le_of_lt hserved₅.used hless⟩

/-- And all of them. -/
theorem drain_all {s : System} (h : Inv s) (hi : s.isr = none) (hk : s.thread.unkicked = false)
    (hm : s.thread.masked = none) :
    ∃ s', Leads s s' ∧ s'.thread = s.thread ∧ s'.isr = none ∧
      s'.uart.tx.outPos = s'.uart.tx.inPos := by
  generalize hn : s.uart.tx.used bufLen = n
  induction n using Nat.strong_induction_on generalizing s with
  | _ n ih =>
    by_cases hne : s.uart.tx.outPos = s.uart.tx.inPos
    · exact ⟨s, Leads.refl s, rfl, hi, hne⟩
    · obtain ⟨s₁, hlead, hthread, hnone, hless⟩ := drain_some h hi hk hm hne
      obtain ⟨s₂, hlead₂, hthread₂, hnone₂, hempty⟩ := ih _ (hn ▸ hless) (h.leads hlead) hnone
        (by rw [hthread]; exact hk) (by rw [hthread]; exact hm) rfl
      exact ⟨s₂, hlead.trans hlead₂, hthread₂.trans hthread, hnone₂, hempty⟩

/-! ## `write` goes on -/

theorem step_thread {s : System} {c : WriteCall} (ht : s.thread = .write c) (hi : s.isr = none) :
    step s .thread = writeStep s c := by
  simp [step, threadStep, ht, hi]

/-- The call ends, with the interrupt routine at rest. -/
def Finishes (s : System) : Prop := ∃ s', Leads s s' ∧ s'.thread = .idle ∧ s'.isr = none

theorem Leads.finishes {s s' : System} (h : Leads s s') (hf : Finishes s') : Finishes s := by
  obtain ⟨s'', hl, hend⟩ := hf
  exact ⟨s'', h.trans hl, hend⟩

/-- Where a call of `write` stands, with the interrupt routine at rest. -/
structure At (s : System) (c : WriteCall) (pc : WritePc) : Prop where
  thread : s.thread = .write c
  isr : s.isr = none
  pc : c.pc = pc

theorem At.leads {s : System} {c : WriteCall} {pc : WritePc} (h : At s c pc) :
    Leads s (writeStep s c) := Leads.step rfl (step_thread h.thread h.isr)

/-- `memcpy` runs to its end. -/
theorem At.copy {s : System} {c : WriteCall} {pos n j : ℕ} (h : Inv s) (hat : At s c (.copy pos n j)) :
    ∃ s' c', Leads s s' ∧ At s' c' .loop ∧ c'.buffer = c.buffer ∧ c'.ptr = c.ptr + n := by
  generalize hk : n - j = k
  induction k generalizing s c j with
  | zero =>
    have hs : writeStep s c = (s.setTx { s.uart.tx with inPos := (pos + n) % bufLen }).inWrite
        { c with ptr := c.ptr + n, pc := .loop } := by
      unfold writeStep
      rw [hat.pc]
      exact if_neg (by omega)
    have hl := hat.leads
    rw [hs] at hl
    exact ⟨_, _, hl, ⟨rfl, hat.isr, rfl⟩, rfl, rfl⟩
  | succ k ih =>
    have hs : writeStep s c = (s.setTx (s.uart.tx.store (pos + j) (c.buffer.getD (c.ptr + j) 0))).inWrite
        { c with pc := .copy pos n (j + 1) } := by
      unfold writeStep
      rw [hat.pc]
      exact if_pos (by omega)
    have hl := hat.leads
    rw [hs] at hl
    obtain ⟨s', c', hl', hat', hbuf, hptr⟩ := ih (h.leads hl) ⟨rfl, hat.isr, rfl⟩ (by omega)
    exact ⟨s', c', hl.trans hl', hat', hbuf, hptr⟩

/-- With bytes left and room for them, `write` gets some of them into the ring. -/
theorem At.loop_room {s : System} {c : WriteCall} (h : Inv s) (hat : At s c .loop)
    (hlt : c.ptr < c.buffer.length) (hroom : txRoom s.uart.tx.inPos s.uart.tx.outPos ≠ 0) :
    ∃ s' c', Leads s s' ∧ At s' c' .loop ∧ c'.buffer = c.buffer ∧ c.ptr < c'.ptr := by
  have hs : writeStep s c = s.inWrite
      { c with
        out := s.uart.tx.outPos
        pc := WritePc.copy s.uart.tx.inPos
          (min (txRoom s.uart.tx.inPos s.uart.tx.outPos) (c.buffer.length - c.ptr)) 0 } := by
    unfold writeStep
    rw [hat.pc]
    simp only
    rw [if_pos hlt, if_neg hroom]
  have hl := hat.leads
  rw [hs] at hl
  obtain ⟨s', c', hl', hat', hbuf, hptr⟩ := At.copy (h.leads hl) ⟨rfl, hat.isr, rfl⟩
  refine ⟨s', c', hl.trans hl', hat', hbuf, ?_⟩
  rw [hptr]
  show c.ptr < c.ptr + min _ _
  omega

/-- The kick, with interrupts off around it. -/
theorem At.to_test {s : System} {c : WriteCall}
    (hat : At s c .disable ∨ At s c .kick ∨ At s c .enable) :
    ∃ s' c', Leads s s' ∧ At s' c' .test ∧ c'.buffer = c.buffer ∧ c'.ptr = c.ptr := by
  have enable : ∀ {s c}, At s c .enable →
      ∃ s' c', Leads s s' ∧ At s' c' .test ∧ c'.buffer = c.buffer ∧ c'.ptr = c.ptr := by
    intro s c hat
    have hl := hat.leads
    unfold writeStep at hl
    rw [hat.pc] at hl
    exact ⟨_, _, hl, ⟨rfl, hat.isr, rfl⟩, rfl, rfl⟩
  have kick : ∀ {s c}, At s c .kick →
      ∃ s' c', Leads s s' ∧ At s' c' .test ∧ c'.buffer = c.buffer ∧ c'.ptr = c.ptr := by
    intro s c hat
    have hl := hat.leads
    unfold writeStep at hl
    rw [hat.pc] at hl
    obtain ⟨s', c', hl', h'⟩ := enable (s := (s.enableIrq weMsk).inWrite { c with pc := .enable })
      ⟨rfl, hat.isr, rfl⟩
    exact ⟨s', c', hl.trans hl', h'⟩
  rcases hat with hat | hat | hat
  · have hl := hat.leads
    unfold writeStep at hl
    rw [hat.pc] at hl
    obtain ⟨s', c', hl', h'⟩ :=
      kick (s := { s with mie := false }.inWrite { c with context := s.mie, pc := .kick })
        ⟨rfl, hat.isr, rfl⟩
    exact ⟨s', c', hl.trans hl', h'⟩
  · exact kick hat
  · exact enable hat

theorem At.checkHost {s : System} {c : WriteCall} (h : Inv s) (hat : At s c .checkHost) :
    Leads s (s.inWrite { c with pc := .loop }) := by
  have hl := hat.leads
  unfold writeStep at hl
  rw [hat.pc] at hl
  simp only at hl
  rwa [if_neg (not_not.2 h.host.present)] at hl

/-- An empty ring has room. -/
theorem txRoom_self {p : ℕ} (hp : p < bufLen) : txRoom p p ≠ 0 := by
  unfold txRoom
  rw [if_neg (lt_irrefl p)]
  unfold bufLen at *
  rcases Nat.eq_zero_or_pos p with h0 | hpos
  · rw [if_neg (by omega)]
    omega
  · rw [if_pos (by omega)]
    omega

/-- A waiting `write` gets room: the ring can be drained, and then `tx_out` has moved. -/
theorem At.spinOut {s : System} {c : WriteCall} (h : Inv s) (hat : At s c .spinOut) :
    ∃ s' c', Leads s s' ∧ At s' c' .loop ∧ c'.buffer = c.buffer ∧ c.ptr < c'.ptr := by
  have hlt := (h.spin c hat.thread).left (Or.inl hat.pc)
  obtain ⟨s₁, hl₁, ht₁, hi₁, hempty⟩ := drain_all h hat.isr
    (by rw [hat.thread, Thread.unkicked, hat.pc]; rfl)
    (by simp [hat.thread, Thread.masked, hat.pc])
  have hI₁ := h.leads hl₁
  have hat₁ : At s₁ c .spinOut := ⟨ht₁.trans hat.thread, hi₁, hat.pc⟩
  have hself := txRoom_self hI₁.tx.ok.inPos_lt
  have hmoved : c.out ≠ s₁.uart.tx.outPos := by
    intro hout
    have hfull := (hI₁.spin c hat₁.thread).room hlt (by simp [hat.pc])
    rw [hout, hempty] at hfull
    exact hself hfull
  have hl₂ := hat₁.leads
  unfold writeStep at hl₂
  rw [hat.pc] at hl₂
  simp only at hl₂
  rw [if_neg hmoved] at hl₂
  have hl₃ := At.checkHost (hI₁.leads hl₂) (c := { c with pc := .checkHost }) ⟨rfl, hi₁, rfl⟩
  have hl := hl₁.trans (hl₂.trans hl₃)
  obtain ⟨s', c', hl', hat', hbuf, hptr⟩ :=
    At.loop_room (h.leads hl) (c := { c with pc := .loop }) ⟨rfl, hi₁, rfl⟩ hlt (by
      show txRoom s₁.uart.tx.inPos s₁.uart.tx.outPos ≠ 0
      rwa [hempty])
  exact ⟨s', c', hl.trans hl', hat', hbuf, hptr⟩

/-- After the kick, `write` returns or gets more bytes into the ring. -/
theorem At.test {s : System} {c : WriteCall} (h : Inv s) (hat : At s c .test)
    (hnext : ∀ s' c', Inv s' → At s' c' .loop → c'.buffer = c.buffer → c.ptr < c'.ptr →
      Finishes s') : Finishes s := by
  have hl := hat.leads
  unfold writeStep at hl
  rw [hat.pc] at hl
  simp only at hl
  split_ifs at hl
  · exact ⟨_, hl, rfl, hat.isr⟩
  · obtain ⟨s', c', hl', hat', hbuf, hptr⟩ :=
      At.spinOut (h.leads hl) (c := { c with pc := .spinOut }) ⟨rfl, hat.isr, rfl⟩
    exact (hl.trans hl').finishes (hnext s' c' (h.leads (hl.trans hl')) hat' hbuf hptr)
  · exact ⟨_, hl, rfl, hat.isr⟩

theorem At.loop_finishes {s : System} {c : WriteCall} (h : Inv s) (hat : At s c .loop) :
    Finishes s := by
  generalize hn : c.buffer.length - c.ptr = n
  induction n using Nat.strong_induction_on generalizing s c with
  | _ n ih =>
    -- with bytes left, any progress makes the rest smaller
    have hnext : c.ptr < c.buffer.length → ∀ s' c', Inv s' → At s' c' .loop → c'.buffer = c.buffer →
        c.ptr < c'.ptr → Finishes s' := by
      intro hlt s' c' hI hat' hbuf hptr
      exact ih _ (by rw [hbuf]; omega) hI hat' rfl
    have hl := hat.leads
    unfold writeStep at hl
    rw [hat.pc] at hl
    simp only at hl
    split_ifs at hl with hlt hroom
    · obtain ⟨s₁, c₁, hl₁, hat₁, hbuf₁, hptr₁⟩ :=
        At.to_test (s := s.inWrite { c with out := s.uart.tx.outPos, pc := .disable })
          (Or.inl ⟨rfl, hat.isr, rfl⟩)
      refine (hl.trans hl₁).finishes (At.test (h.leads (hl.trans hl₁)) hat₁ ?_)
      intro s' c' hI hat' hb hp
      exact hnext hlt s' c' hI hat' (hb.trans hbuf₁) (by rw [hptr₁] at hp; exact hp)
    · obtain ⟨s', c', hl', hat', hbuf, hptr⟩ := At.loop_room h hat hlt hroom
      exact hl'.finishes (hnext hlt s' c' (h.leads hl') hat' hbuf hptr)
    · obtain ⟨s₁, c₁, hl₁, hat₁, hbuf₁, hptr₁⟩ :=
        At.to_test (s := s.inWrite { c with pc := .disable }) (Or.inl ⟨rfl, hat.isr, rfl⟩)
      have hl₂ := hat₁.leads
      unfold writeStep at hl₂
      rw [hat₁.pc] at hl₂
      simp only at hl₂
      rw [hbuf₁, hptr₁, if_neg hlt] at hl₂
      exact ⟨_, hl.trans (hl₁.trans hl₂), rfl, hat₁.isr⟩

/-- Wherever the call of `write` stands. -/
theorem write_finishes {s : System} {c : WriteCall} (h : Inv s) (ht : s.thread = .write c)
    (hi : s.isr = none) : Finishes s := by
  have loop : ∀ {s' c'}, Leads s s' → At s' c' .loop → Finishes s := by
    intro s' c' hl hat
    exact hl.finishes (At.loop_finishes (h.leads hl) hat)
  have test : ∀ {s' c'}, Leads s s' → At s' c' .test → Finishes s := by
    intro s' c' hl hat
    exact hl.finishes (At.test (h.leads hl) hat fun s₂ c₂ hI hat₂ _ _ => At.loop_finishes hI hat₂)
  cases hpc : c.pc with
  | loop => exact loop (Leads.refl s) ⟨ht, hi, hpc⟩
  | copy pos n j =>
    obtain ⟨s', c', hl, hat, -⟩ := At.copy h ⟨ht, hi, hpc⟩
    exact loop hl hat
  | disable =>
    obtain ⟨s', c', hl, hat, -⟩ := At.to_test (Or.inl ⟨ht, hi, hpc⟩)
    exact test hl hat
  | kick =>
    obtain ⟨s', c', hl, hat, -⟩ := At.to_test (Or.inr (Or.inl ⟨ht, hi, hpc⟩))
    exact test hl hat
  | enable =>
    obtain ⟨s', c', hl, hat, -⟩ := At.to_test (Or.inr (Or.inr ⟨ht, hi, hpc⟩))
    exact test hl hat
  | test => exact test (Leads.refl s) ⟨ht, hi, hpc⟩
  | spinOut =>
    obtain ⟨s', c', hl, hat, -⟩ := At.spinOut h ⟨ht, hi, hpc⟩
    exact loop hl hat
  | spinHost =>
    have hl := At.leads ⟨ht, hi, hpc⟩
    unfold writeStep at hl
    rw [hpc] at hl
    simp only at hl
    rw [h.host.present, h.timeout, if_pos (by decide)] at hl
    obtain ⟨s', c', hl', hat, -⟩ :=
      At.spinOut (h.leads hl) (c := { c with pc := .spinOut }) ⟨rfl, hi, rfl⟩
    exact loop (hl.trans hl') hat
  | checkHost =>
    have hat : At (s.inWrite { c with pc := .loop }) { c with pc := .loop } .loop := ⟨rfl, hi, rfl⟩
    exact loop (At.checkHost h ⟨ht, hi, hpc⟩) hat

/-- From every state reached from `boot` in which the thread is not in `read`, the moves of the
thread, the interrupt routine, the clock and a host that takes bytes can bring the system to a state
where the call of `write` under way has returned, the host has read all that was written, and no
interrupt is pending or will be for as long as only the clock runs. -/
theorem write_can_finish (as : List Action) (hread : ∀ c, (run boot as).thread ≠ .read c) :
    ∃ bs : List Action, (∀ b ∈ bs, b.serves = true) ∧ (run boot (as ++ bs)).thread = .idle ∧
      (run boot (as ++ bs)).Settled ∧
      (run boot (as ++ bs)).hostGot = (run boot (as ++ bs)).writes.flatMap Written.taken := by
  have h : Inv (run boot as) := boot_inv.run as
  -- the interrupt routine returns
  obtain ⟨s₁, hl₁, ht₁, hi₁⟩ : ∃ s₁, Leads (run boot as) s₁ ∧ s₁.thread = (run boot as).thread ∧
      s₁.isr = none := by
    rcases hi : (run boot as).isr with _ | f
    · exact ⟨_, Leads.refl _, rfl, hi⟩
    · obtain ⟨s₁, hserved, hnone⟩ := isr_returns h hi
      exact ⟨s₁, hserved.leads, hserved.thread, hnone⟩
  -- the call of `write` returns
  obtain ⟨s₂, hl₂, ht₂, hi₂⟩ : Finishes s₁ := by
    rcases ht : s₁.thread with _ | c | c
    · exact ⟨s₁, Leads.refl s₁, ht, hi₁⟩
    · exact write_finishes (h.leads hl₁) ht hi₁
    · exact absurd (ht₁.symm.trans ht) (hread c)
  -- the ring and the FIFO drain
  have hI₂ := (h.leads hl₁).leads hl₂
  obtain ⟨s₃, hl₃, ht₃, hi₃, hempty⟩ := drain_all hI₂ hi₂ (by rw [ht₂]; rfl) (by rw [ht₂]; rfl)
  have hI₃ := hI₂.leads hl₃
  obtain ⟨s₄, hserved₄, hnil, hi₄, hu₄, -⟩ := host_drains s₃
  have hidle₄ : s₄.thread = .idle := hserved₄.thread.trans (ht₃.trans ht₂)
  -- what is pending is served, and that sends nothing
  obtain ⟨s₅, hserved₅, hsettled⟩ := settles (hI₃.leads hserved₄.leads) (hi₄.trans hi₃)
    (by rw [hidle₄]; rfl)
  have hl := hl₁.trans (hl₂.trans (hl₃.trans (hserved₄.leads.trans hserved₅.leads)))
  have hI₅ := h.leads hl
  have hunsent : s₅.unsent = 0 := by
    have hzero : s₄.unsent = 0 := by
      unfold System.unsent
      rw [hnil, hu₄, (RingBuf.used_eq_zero_iff hI₃.tx.ok).2 hempty]
      rfl
    exact Nat.le_zero.1 (hzero ▸ hserved₅.unsent)
  obtain ⟨hfifo, hused⟩ := Nat.add_eq_zero_iff.1 hunsent
  have hnil₅ : s₅.dev.wfifo = [] := List.length_eq_zero_iff.1 hfifo
  have hring : s₅.uart.tx.contents bufLen = [] := by
    rw [RingBuf.contents_eq_nil_iff hI₅.tx.ok]
    exact (RingBuf.used_eq_zero_iff hI₅.tx.ok).1 hused
  have hidle : s₅.thread = .idle := hserved₅.thread.trans hidle₄
  obtain ⟨bs, hserves, hbs⟩ := hl
  have hrun : run boot (as ++ bs) = s₅ := by
    rw [← hbs]
    exact List.foldl_append ..
  refine ⟨bs, hserves, ?_⟩
  rw [hrun]
  refine ⟨hidle, hsettled, ?_⟩
  have hstream := hI₅.tx.stream
  simpa [hnil₅, hring, System.accepted, hidle, Thread.taken] using hstream

/-- A call of `write` just made, with nothing done yet. -/
theorem write_can_finish_hello :
    ∃ bs : List Action, (∀ b ∈ bs, b.serves = true) ∧
      (run boot (.callWrite [104, 105] false :: bs)).thread = .idle ∧
      (run boot (.callWrite [104, 105] false :: bs)).Settled ∧
      (run boot (.callWrite [104, 105] false :: bs)).hostGot =
        (run boot (.callWrite [104, 105] false :: bs)).writes.flatMap Written.taken :=
  write_can_finish [.callWrite [104, 105] false] (by rintro c ⟨⟩)

end KyberNeorv32.JtagUart
