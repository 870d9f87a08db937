import KyberNeorv32.JtagReceive
import KyberNeorv32.JtagTransmit

/-!
# No wake-up is lost

Interrupts stay enabled at the device for as long as there is work for them. The transmit interrupt
is only off while the ring is empty or `write` is on its way to the kick (`irq_enable |= WE`). The
receive interrupt is only off while the ring holds bytes, or `read` has taken them and is on its way
to turn it back on. (That the ring is then full, as the comment in the routine says, would be too
much: a byte that arrives between the two cycles of a read of the empty FIFO turns it off as well.)
`WakeInv` states this together with what the interrupt routine and `read` know at the points in
between.
-/

namespace KyberNeorv32.JtagUart

/-- `write` may have put bytes into the ring that it has not kicked the interrupt for. -/
def WritePc.unkicked : WritePc → Bool
  | .loop | .copy .. | .disable | .kick => true
  | _ => false

def Thread.unkicked : Thread → Bool
  | .write c => c.pc.unkicked
  | _ => false

/-- `read` has freed cells and still has to turn the receive interrupt on. -/
def Thread.freed : Thread → Prop
  | .read c => c.got ≠ [] ∧ c.pc ≠ .enable
  | _ => False

/-- Before the first byte has come. -/
def ReadPc.waiting : ReadPc → Bool
  | .loop | .spinIn | .spinHost | .recheck => true
  | _ => false

/-- The saved `mstatus.MIE`, while interrupts are off. -/
def Thread.masked : Thread → Option Bool
  | .write c => if c.pc = .kick ∨ c.pc = .enable then some c.context else none
  | .read c => if c.pc = .kick ∨ c.pc = .enable then some c.context else none
  | .idle => none

/-- What the interrupt routine knows at each point. -/
def Frame.Knows (f : Frame) (u : Uart) (d : Device) : Prop :=
  match f.pc with
  | .topRead => d.fifoAF = true → d.rfifo ≠ []
  | .rxLoop => u.rx.outPos ≠ u.rx.inPos ∨ d.rfifo ≠ []
  | .rxRead => u.rx.outPos ≠ u.rx.inPos ∨ d.rvalid = true
  | .rxAfter => u.rx.outPos ≠ u.rx.inPos
  | .txAfter => 0 < f.space → u.tx.outPos = u.tx.inPos
  | .top | .txCheck | .txLoop => True

/-- Not between the two cycles of a read of the data register. -/
def System.NotReading (s : System) : Prop := ∀ f, s.isr = some f → f.pc ≠ .rxRead

structure WakeInv (s : System) : Prop where
  ienAE : s.dev.ienAE = s.uart.irqEnable.getLsbD 1
  ienAF : s.dev.ienAF = s.uart.irqEnable.getLsbD 0
  mie : s.mie = true ∨ s.thread.masked = some true
  tx : s.thread.unkicked = false → s.uart.tx.outPos ≠ s.uart.tx.inPos →
    s.uart.irqEnable.getLsbD 1 = true
  rx : s.uart.irqEnable.getLsbD 0 = true ∨ s.uart.rx.outPos ≠ s.uart.rx.inPos ∨ s.thread.freed
  knows : ∀ f, s.isr = some f → f.Knows s.uart s.dev
  pause : s.NotReading → s.dev.pauseIrq = true → s.dev.rfifo ≠ []
  waiting : ∀ c, s.thread = .read c → c.pc.waiting = true → c.got = []
  copied : ∀ c, s.thread = .read c → c.pc.copied ≤ c.got.length

theorem System.notReading_of_none {s : System} (hi : s.isr = none) : s.NotReading := by
  intro f hf
  rw [hi] at hf
  cases hf

theorem System.notReading_of_some {s : System} {f : Frame} (hf : s.isr = some f)
    (hpc : f.pc ≠ .rxRead) : s.NotReading := by
  intro g hg
  rw [hf] at hg
  cases hg
  exact hpc

/-- The driver's masks name single bits of `irq_enable`. -/
theorem getLsbD_weMsk (w : BitVec 32) :
    (w ||| weMsk).getLsbD 1 = true ∧ (w ||| weMsk).getLsbD 0 = w.getLsbD 0 ∧
      (w &&& ~~~weMsk).getLsbD 1 = false ∧ (w &&& ~~~weMsk).getLsbD 0 = w.getLsbD 0 := by
  simp [weMsk]

theorem getLsbD_reMsk (w : BitVec 32) :
    (w ||| reMsk).getLsbD 0 = true ∧ (w ||| reMsk).getLsbD 1 = w.getLsbD 1 ∧
      (w &&& ~~~reMsk).getLsbD 0 = false ∧ (w &&& ~~~reMsk).getLsbD 1 = w.getLsbD 1 := by
  simp [reMsk]

theorem getLsbD_acMsk (w : BitVec 32) :
    (w ||| acMsk).getLsbD 0 = w.getLsbD 0 ∧ (w ||| acMsk).getLsbD 1 = w.getLsbD 1 := by
  simp [acMsk]

/-- What a step of the host, of the clock or of the timer does to what `WakeInv` speaks of. -/
structure SameIrq (s s' : System) : Prop where
  ienAE : s'.dev.ienAE = s.dev.ienAE
  ienAF : s'.dev.ienAF = s.dev.ienAF
  irqEnable : s'.uart.irqEnable = s.uart.irqEnable
  tx : s'.uart.tx = s.uart.tx
  rx : s'.uart.rx = s.uart.rx
  mie : s'.mie = s.mie
  thread : s'.thread = s.thread
  isr : s'.isr = s.isr
  rvalid : s'.dev.rvalid = s.dev.rvalid
  rfifo : s.dev.rfifo ≠ [] → s'.dev.rfifo ≠ []
  fifoAF : s'.dev.fifoAF = true → s.dev.fifoAF = true ∨ s'.dev.rfifo ≠ []
  pause : s'.dev.pauseIrq = true → s.dev.pauseIrq = true ∨ s'.dev.rfifo ≠ []

theorem Frame.Knows.mono {f : Frame} {u u' : Uart} {d d' : Device} (h : f.Knows u d)
    (htx : u'.tx = u.tx) (hrx : u'.rx = u.rx) (hvalid : d'.rvalid = d.rvalid)
    (hfifo : d.rfifo ≠ [] → d'.rfifo ≠ [])
    (haf : d'.fifoAF = true → d.fifoAF = true ∨ d'.rfifo ≠ []) : f.Knows u' d' := by
  unfold Frame.Knows at h ⊢
  rw [htx, hrx, hvalid]
  split at h
  · intro hset
    rcases haf hset with hold | hnew
    · exact hfifo (h hold)
    · exact hnew
  · exact h.imp id hfifo
  · exact h
  · exact h
  · exact h
  · trivial
  · trivial
  · trivial

theorem WakeInv.frame {s s' : System} (h : WakeInv s) (hs : SameIrq s s') : WakeInv s' := by
  constructor
  · rw [hs.ienAE, hs.irqEnable]; exact h.ienAE
  · rw [hs.ienAF, hs.irqEnable]; exact h.ienAF
  · rw [hs.mie, hs.thread]; exact h.mie
  · rw [hs.thread, hs.tx, hs.irqEnable]; exact h.tx
  · rw [hs.irqEnable, hs.rx, hs.thread]; exact h.rx
  · rw [hs.isr]
    exact fun f hf => (h.knows f hf).mono hs.tx hs.rx hs.rvalid hs.rfifo hs.fifoAF
  · unfold System.NotReading
    rw [hs.isr]
    intro hnot hp
    rcases hs.pause hp with hold | hnew
    · exact hs.rfifo (h.pause hnot hold)
    · exact hnew
  · rw [hs.thread]; exact h.waiting
  · rw [hs.thread]; exact h.copied

theorem WakeInv.mie_of {s : System} (h : WakeInv s) (hm : s.thread.masked = none) : s.mie = true := by
  rcases h.mie with hmie | hmask
  · exact hmie
  · rw [hm] at hmask
    cases hmask

/-! ## The thread -/

/-- A step of `write` other than the kick. -/
theorem WakeInv.moveWrite {s s' : System} {c : WriteCall} (h : WakeInv s) (ht : s.thread = .write c)
    (hi : s.isr = none) (hi' : s'.isr = none) (ht' : ∀ c', s'.thread ≠ .read c')
    (hdev : s'.dev = s.dev) (hirq : s'.uart.irqEnable = s.uart.irqEnable)
    (hrx : s'.uart.rx = s.uart.rx) (hm : s'.mie = true ∨ s'.thread.masked = some true)
    (htx : s'.thread.unkicked = false → s'.uart.tx = s.uart.tx ∧ c.pc.unkicked = false) :
    WakeInv s' := by
  constructor
  · rw [hdev, hirq]; exact h.ienAE
  · rw [hdev, hirq]; exact h.ienAF
  · exact hm
  · intro hk hne
    obtain ⟨hsame, hold⟩ := htx hk
    rw [hsame] at hne
    rw [hirq]
    exact h.tx (by rw [ht]; exact hold) hne
  · rw [hirq, hrx]
    rcases h.rx with hbit | hne | hfreed
    · exact Or.inl hbit
    · exact Or.inr (Or.inl hne)
    · rw [ht] at hfreed
      exact hfreed.elim
  · rw [hi']; rintro _ ⟨⟩
  · rw [hdev]
    exact fun _ => h.pause (System.notReading_of_none hi)
  · exact fun c' hc' => absurd hc' (ht' c')
  · exact fun c' hc' => absurd hc' (ht' c')

/-- The kick: the transmit interrupt is on, so whatever lies in the ring will be fetched. -/
theorem WakeInv.kickWrite {s : System} {c : WriteCall} (h : WakeInv s) (ht : s.thread = .write c)
    (hpc : c.pc = .kick) (hi : s.isr = none) :
    WakeInv ((s.enableIrq weMsk).inWrite { c with pc := .enable }) := by
  obtain ⟨hset, hkeep, -, -⟩ := getLsbD_weMsk s.uart.irqEnable
  constructor
  · rfl
  · rfl
  · rcases h.mie with hmie | hmask
    · exact Or.inl hmie
    · refine Or.inr ?_
      simpa [ht, hpc, Thread.masked, System.inWrite] using hmask
  · exact fun _ _ => hset
  · refine h.rx.imp hkeep.trans (Or.imp id fun hfreed => ?_)
    rw [ht] at hfreed
    exact hfreed.elim
  · show ∀ f, s.isr = some f → _
    rw [hi]; rintro _ ⟨⟩
  · exact fun _ => h.pause (System.notReading_of_none hi)
  · rintro _ ⟨⟩
  · rintro _ ⟨⟩

theorem WakeInv.writeStep {s : System} {c : WriteCall} (h : WakeInv s) (ht : s.thread = .write c)
    (hi : s.isr = none) : WakeInv (writeStep s c) := by
  have hmie : c.pc ≠ .kick → c.pc ≠ .enable → s.mie = true := by
    intro h1 h2
    exact h.mie_of (by simp [ht, Thread.masked, h1, h2])
  unfold JtagUart.writeStep
  cases hpc : c.pc with
  | loop =>
    have hm := hmie (by simp [hpc]) (by simp [hpc])
    simp only
    split_ifs
    · exact h.moveWrite ht hi hi (by rintro _ ⟨⟩) rfl rfl rfl (Or.inl hm) (by rintro ⟨⟩)
    · exact h.moveWrite ht hi hi (by rintro _ ⟨⟩) rfl rfl rfl (Or.inl hm) (by rintro ⟨⟩)
    · exact h.moveWrite ht hi hi (by rintro _ ⟨⟩) rfl rfl rfl (Or.inl hm) (by rintro ⟨⟩)
  | copy pos n j =>
    have hm := hmie (by simp [hpc]) (by simp [hpc])
    simp only
    split_ifs
    · exact h.moveWrite ht hi hi (by rintro _ ⟨⟩) rfl rfl rfl (Or.inl hm) (by rintro ⟨⟩)
    · exact h.moveWrite ht hi hi (by rintro _ ⟨⟩) rfl rfl rfl (Or.inl hm) (by rintro ⟨⟩)
  | disable =>
    have hm := hmie (by simp [hpc]) (by simp [hpc])
    refine h.moveWrite ht hi hi (by rintro _ ⟨⟩) rfl rfl rfl (Or.inr ?_) (by rintro ⟨⟩)
    simp [System.inWrite, Thread.masked, hm]
  | kick => exact h.kickWrite ht hpc hi
  | enable =>
    refine h.moveWrite ht hi hi (by rintro _ ⟨⟩) rfl rfl rfl (Or.inl ?_)
      fun _ => ⟨rfl, by rw [hpc]; rfl⟩
    rcases h.mie with hm | hmask
    · simp [System.inWrite, hm]
    · have hctx : c.context = true := by simpa [ht, Thread.masked, hpc] using hmask
      simp [System.inWrite, hctx]
  | test =>
    have hm := hmie (by simp [hpc]) (by simp [hpc])
    simp only
    split_ifs
    · exact h.moveWrite ht hi hi (by rintro _ ⟨⟩) rfl rfl rfl (Or.inl hm)
        fun _ => ⟨rfl, by rw [hpc]; rfl⟩
    · exact h.moveWrite ht hi hi (by rintro _ ⟨⟩) rfl rfl rfl (Or.inl hm)
        fun _ => ⟨rfl, by rw [hpc]; rfl⟩
    · exact h.moveWrite ht hi hi (by rintro _ ⟨⟩) rfl rfl rfl (Or.inl hm)
        fun _ => ⟨rfl, by rw [hpc]; rfl⟩
  | spinOut | spinHost =>
    have hm := hmie (by simp [hpc]) (by simp [hpc])
    exact h.moveWrite ht hi hi (by rintro _ ⟨⟩) rfl rfl rfl (Or.inl hm)
      fun _ => ⟨rfl, by rw [hpc]; rfl⟩
  | checkHost =>
    have hm := hmie (by simp [hpc]) (by simp [hpc])
    simp only
    split_ifs
    · exact h.moveWrite ht hi hi (by rintro _ ⟨⟩) rfl rfl rfl (Or.inl hm)
        fun _ => ⟨rfl, by rw [hpc]; rfl⟩
    · exact h.moveWrite ht hi hi (by rintro _ ⟨⟩) rfl rfl rfl (Or.inl hm) (by rintro ⟨⟩)

/-- A step of `read` other than its kick. -/
theorem WakeInv.moveRead {s s' : System} {c : ReadCall} (h : WakeInv s) (ht : s.thread = .read c)
    (hi : s.isr = none) (hi' : s'.isr = none) (hdev : s'.dev = s.dev)
    (hirq : s'.uart.irqEnable = s.uart.irqEnable) (htx : s'.uart.tx = s.uart.tx)
    (hm : s'.mie = true ∨ s'.thread.masked = some true)
    (hrx : s.uart.irqEnable.getLsbD 0 = true ∨
      (s'.uart.rx = s.uart.rx ∧ (c.got ≠ [] → c.pc = .enable)) ∨ s'.thread.freed)
    (hw : ∀ c', s'.thread = .read c' → (c'.pc.waiting = true → c'.got = []) ∧
      c'.pc.copied ≤ c'.got.length) : WakeInv s' := by
  constructor
  · rw [hdev, hirq]; exact h.ienAE
  · rw [hdev, hirq]; exact h.ienAF
  · exact hm
  · intro _ hne
    rw [htx] at hne
    rw [hirq]
    exact h.tx (by rw [ht]; rfl) hne
  · rw [hirq]
    rcases hrx with hbit | ⟨hsame, hgot⟩ | hfreed
    · exact Or.inl hbit
    · rw [hsame]
      rcases h.rx with hbit | hne | hfreed
      · exact Or.inl hbit
      · exact Or.inr (Or.inl hne)
      · rw [ht] at hfreed
        exact absurd (hgot hfreed.1) hfreed.2
    · exact Or.inr (Or.inr hfreed)
  · rw [hi']; rintro _ ⟨⟩
  · rw [hdev]
    exact fun _ => h.pause (System.notReading_of_none hi)
  · exact fun c' hc' => (hw c' hc').1
  · exact fun c' hc' => (hw c' hc').2

/-- `read` turns the receive interrupt back on. -/
theorem WakeInv.kickRead {s : System} {c : ReadCall} (h : WakeInv s) (ht : s.thread = .read c)
    (hpc : c.pc = .kick) (hi : s.isr = none) :
    WakeInv ((s.enableIrq reMsk).inRead { c with pc := .enable }) := by
  obtain ⟨hset, hkeep, -, -⟩ := getLsbD_reMsk s.uart.irqEnable
  constructor
  · rfl
  · rfl
  · rcases h.mie with hmie | hmask
    · exact Or.inl hmie
    · refine Or.inr ?_
      simpa [ht, hpc, Thread.masked, System.inRead] using hmask
  · exact fun _ hne => hkeep.trans (h.tx (by rw [ht]; rfl) hne)
  · exact Or.inl hset
  · show ∀ f, s.isr = some f → _
    rw [hi]; rintro _ ⟨⟩
  · exact fun _ => h.pause (System.notReading_of_none hi)
  · rintro c' ⟨⟩ ⟨⟩
  · rintro c' ⟨⟩
    exact Nat.zero_le _

theorem WakeInv.readStep {s : System} {c : ReadCall} (h : WakeInv s) (hrx : RxInv s)
    (ht : s.thread = .read c) (hi : s.isr = none) : WakeInv (readStep s c) := by
  have hmie : c.pc ≠ .kick → c.pc ≠ .enable → s.mie = true := by
    intro h1 h2
    exact h.mie_of (by simp [ht, Thread.masked, h1, h2])
  -- outside of the kick, either nothing is freed yet or that stays to be reported
  have keep : ∀ {s' : System} {c' : ReadCall}, s'.thread = .read c' → c'.got = c.got →
      c'.pc ≠ .enable → s'.uart.rx = s.uart.rx → s.uart.irqEnable.getLsbD 0 = true ∨
      (s'.uart.rx = s.uart.rx ∧ (c.got ≠ [] → c.pc = .enable)) ∨ s'.thread.freed := by
    intro s' c' ht' hgot hpc hsame
    by_cases hnil : c.got = []
    · exact Or.inr (Or.inl ⟨hsame, absurd hnil⟩)
    · rw [ht']
      exact Or.inr (Or.inr ⟨by rwa [hgot], hpc⟩)
  unfold JtagUart.readStep
  cases hpc : c.pc with
  | loop =>
    have hm := hmie (by simp [hpc]) (by simp [hpc])
    have hgot := h.waiting c ht (by rw [hpc]; rfl)
    refine h.moveRead ht hi hi rfl rfl rfl (Or.inl hm) (Or.inr (Or.inl ⟨rfl, absurd hgot⟩)) ?_
    rintro c' ⟨⟩
    exact ⟨fun _ => hgot, by simp only; split_ifs <;> exact Nat.zero_le _⟩
  | fetch =>
    have hm := hmie (by simp [hpc]) (by simp [hpc])
    simp only
    split_ifs
    · refine h.moveRead ht hi hi rfl rfl rfl (Or.inl hm) (keep rfl rfl (by rintro ⟨⟩) rfl) ?_
      rintro c' ⟨⟩
      exact ⟨(by rintro ⟨⟩), Nat.zero_le _⟩
    · refine h.moveRead ht hi hi rfl rfl rfl (Or.inl hm) (keep rfl rfl (by rintro ⟨⟩) rfl) ?_
      rintro c' ⟨⟩
      exact ⟨(by rintro ⟨⟩), Nat.zero_le _⟩
  | copy pos n j =>
    have hm := hmie (by simp [hpc]) (by simp [hpc])
    have hcopied := h.copied c ht
    have hc := hrx.copy c pos n j ht hpc
    rw [hpc] at hcopied
    simp only [ReadPc.copied] at hcopied
    simp only
    by_cases hj : j < n
    · rw [if_pos hj]
      refine h.moveRead ht hi hi rfl rfl rfl (Or.inl hm) (Or.inr (Or.inr ⟨by simp, by rintro ⟨⟩⟩)) ?_
      rintro c' ⟨⟩
      exact ⟨(by rintro ⟨⟩), by simpa [ReadPc.copied] using hcopied⟩
    · rw [if_neg hj]
      obtain rfl : j = n := le_antisymm hc.le (not_lt.1 hj)
      refine h.moveRead ht hi hi rfl rfl rfl (Or.inl hm) (Or.inr ?_) ?_
      · by_cases hnil : c.got = []
        · -- nothing was copied, so nothing is freed
          obtain rfl : j = 0 := by simpa [hnil] using hcopied
          refine Or.inl ⟨?_, absurd hnil⟩
          show { s.uart.rx with outPos := (pos + 0) % bufLen } = s.uart.rx
          rw [hc.pos_eq, Nat.add_zero, Nat.mod_eq_of_lt hrx.ok.outPos_lt]
        · refine Or.inr ⟨hnil, ?_⟩
          simp only
          split_ifs <;> simp
      · have hpc' : (if 0 < c.space - j then ReadPc.fetch else .after).waiting = false ∧
            (if 0 < c.space - j then ReadPc.fetch else .after).copied = 0 := by
          split_ifs <;> exact ⟨rfl, rfl⟩
        rintro c' ⟨⟩
        exact ⟨fun hw => absurd (hpc'.1.symm.trans hw) (by rintro ⟨⟩), hpc'.2.le.trans (Nat.zero_le _)⟩
  | after =>
    have hm := hmie (by simp [hpc]) (by simp [hpc])
    simp only
    split_ifs with hgot hret
    · refine h.moveRead ht hi hi rfl rfl rfl (Or.inl hm) (Or.inr (Or.inr ⟨hgot, by rintro ⟨⟩⟩)) ?_
      rintro c' ⟨⟩
      exact ⟨(by rintro ⟨⟩), Nat.zero_le _⟩
    · exact h.moveRead ht hi hi rfl rfl rfl (Or.inl hm)
        (Or.inr (Or.inl ⟨rfl, fun hne => absurd hne hgot⟩)) (by rintro _ ⟨⟩)
    · refine h.moveRead ht hi hi rfl rfl rfl (Or.inl hm)
        (Or.inr (Or.inl ⟨rfl, fun hne => absurd hne hgot⟩)) ?_
      rintro c' ⟨⟩
      exact ⟨fun _ => not_not.1 hgot, Nat.zero_le _⟩
  | spinIn | spinHost =>
    have hm := hmie (by simp [hpc]) (by simp [hpc])
    have hgot := h.waiting c ht (by rw [hpc]; rfl)
    refine h.moveRead ht hi hi rfl rfl rfl (Or.inl hm) (Or.inr (Or.inl ⟨rfl, absurd hgot⟩)) ?_
    rintro c' ⟨⟩
    exact ⟨fun _ => hgot, by simp only; split_ifs <;> exact Nat.zero_le _⟩
  | recheck =>
    have hm := hmie (by simp [hpc]) (by simp [hpc])
    have hgot := h.waiting c ht (by rw [hpc]; rfl)
    simp only
    split_ifs
    · exact h.moveRead ht hi hi rfl rfl rfl (Or.inl hm) (Or.inr (Or.inl ⟨rfl, absurd hgot⟩))
        (by rintro _ ⟨⟩)
    · refine h.moveRead ht hi hi rfl rfl rfl (Or.inl hm) (Or.inr (Or.inl ⟨rfl, absurd hgot⟩)) ?_
      rintro c' ⟨⟩
      exact ⟨fun _ => hgot, Nat.zero_le _⟩
  | disable =>
    have hm := hmie (by simp [hpc]) (by simp [hpc])
    refine h.moveRead ht hi hi rfl rfl rfl (Or.inr ?_) (keep rfl rfl (by rintro ⟨⟩) rfl) ?_
    · simp [System.inRead, Thread.masked, hm]
    · rintro c' ⟨⟩
      exact ⟨(by rintro ⟨⟩), Nat.zero_le _⟩
  | kick => exact h.kickRead ht hpc hi
  | enable =>
    refine h.moveRead ht hi hi rfl rfl rfl (Or.inl ?_) (Or.inr (Or.inl ⟨rfl, fun _ => hpc⟩))
      (by rintro _ ⟨⟩)
    rcases h.mie with hm | hmask
    · simp [System.readReturn, hm]
    · have hctx : c.context = true := by simpa [ht, Thread.masked, hpc] using hmask
      simp [System.readReturn, hctx]

/-! ## The interrupt routine -/

theorem writeData_same (d : Device) (b : Byte) :
    (d.writeData b).ienAE = d.ienAE ∧ (d.writeData b).ienAF = d.ienAF ∧
      (d.writeData b).rfifo = d.rfifo ∧ (d.writeData b).pauseIrq = d.pauseIrq := by
  unfold Device.writeData
  split_ifs <;> exact ⟨rfl, rfl, rfl, rfl⟩

/-- A step of the interrupt routine that changes no ring and no enable. -/
theorem WakeInv.moveIsr {s : System} {d : Device} {f : Frame} (h : WakeInv s)
    (hien : d.ienAE = s.dev.ienAE ∧ d.ienAF = s.dev.ienAF) (hknows : f.Knows s.uart d)
    (hpause : d.pauseIrq = true → d.rfifo ≠ [] ∨ f.pc = .rxRead) :
    WakeInv ((s.setDev d).inIsr f) := by
  refine ⟨hien.1.trans h.ienAE, hien.2.trans h.ienAF, h.mie, h.tx, h.rx, ?_, ?_, h.waiting, h.copied⟩
  · rintro f' ⟨⟩
    exact hknows
  · intro hnot hp
    rcases hpause hp with hne | hread
    · exact hne
    · exact absurd hread (hnot f rfl)

/-- With the receive interrupt pending at the top of the loop, there are bytes in the FIFO. -/
theorem rfifo_of_ipenAF {d : Device} (hfresh : d.fifoAF = true → d.rfifo ≠ [])
    (hpause : d.pauseIrq = true → d.rfifo ≠ []) (hri : d.control &&& riMsk ≠ 0) : d.rfifo ≠ [] := by
  rw [Ne, control_ri, Bool.not_eq_false] at hri
  simp only [Device.ipenAF, Bool.and_eq_true, Bool.or_eq_true] at hri
  rcases hri.2 with hp | haf
  · exact hpause hp
  · exact hfresh haf

/-- A byte received. -/
theorem WakeInv.receive {s : System} {f : Frame} (h : WakeInv s) (hrx : RxInv s)
    (hused : s.uart.rx.used bufLen + 1 < bufLen) (hpc : f.pc = .rxLoop) (b : Byte) :
    WakeInv (((s.setDev s.dev.readData.2).setRx
      ((s.uart.rx.store s.uart.rx.inPos b).publish bufLen 1)).inIsr f) := by
  have hne : ((s.uart.rx.store s.uart.rx.inPos b).publish bufLen 1).outPos ≠
      ((s.uart.rx.store s.uart.rx.inPos b).publish bufLen 1).inPos := by
    rw [Ne, ← RingBuf.used_eq_zero_iff ((hrx.ok.store _ _).publish 1),
      RingBuf.used_publish (hrx.ok.store _ _) hused]
    exact Nat.succ_ne_zero _
  refine ⟨h.ienAE, h.ienAF, h.mie, h.tx, Or.inr (Or.inl hne), ?_, ?_, h.waiting, h.copied⟩
  · rintro f' ⟨⟩
    unfold Frame.Knows
    rw [hpc]
    exact Or.inl hne
  · rintro _ ⟨⟩

/-- The receive interrupt goes off while the ring holds bytes. -/
theorem WakeInv.maskRx {s : System} {f' : Frame} (h : WakeInv s)
    (hne : s.uart.rx.outPos ≠ s.uart.rx.inPos) (hnot : s.NotReading) (hpc : f'.pc = .txCheck) :
    WakeInv ((s.disableIrq reMsk).inIsr f') := by
  obtain ⟨-, -, -, hkeep⟩ := getLsbD_reMsk s.uart.irqEnable
  refine ⟨rfl, rfl, h.mie, fun hk hne => hkeep.trans (h.tx hk hne), Or.inr (Or.inl hne), ?_,
    fun _ => h.pause hnot, h.waiting, h.copied⟩
  rintro g ⟨⟩
  unfold Frame.Knows
  rw [hpc]
  trivial

/-- The transmit interrupt goes off when the ring is empty. -/
theorem WakeInv.maskTx {s : System} {f' : Frame} (h : WakeInv s)
    (hempty : s.uart.tx.outPos = s.uart.tx.inPos) (hnot : s.NotReading) (hpc : f'.pc = .top) :
    WakeInv ((s.disableIrq weMsk).inIsr f') := by
  obtain ⟨-, -, -, hkeep⟩ := getLsbD_weMsk s.uart.irqEnable
  refine ⟨rfl, rfl, h.mie, fun _ hne => absurd hempty hne, h.rx.imp hkeep.trans id, ?_,
    fun _ => h.pause hnot, h.waiting, h.copied⟩
  rintro g ⟨⟩
  unfold Frame.Knows
  rw [hpc]
  trivial

theorem WakeInv.isrStep {s : System} {f : Frame} (h : WakeInv s) (hrx : RxInv s)
    (hf : s.isr = some f) : WakeInv (isrStep s f) := by
  have hnot : f.pc ≠ .rxRead → s.NotReading := System.notReading_of_some hf
  have hknows := h.knows f hf
  unfold Frame.Knows at hknows
  unfold JtagUart.isrStep
  cases hpc : f.pc with
  | top =>
    have hp := h.pause (hnot (by simp [hpc]))
    refine h.moveIsr ⟨rfl, rfl⟩ ?_ fun hq => Or.inl (hp hq)
    intro haf hnil
    simp only [Device.sample] at haf hnil
    simp [hnil, fifoDepth, irqThreshold] at haf
  | topRead =>
    have hp := h.pause (hnot (by simp [hpc]))
    rw [hpc] at hknows
    simp only
    split_ifs with hdone hri
    · exact ⟨h.ienAE, h.ienAF, h.mie, h.tx, h.rx, by rintro _ ⟨⟩, fun _ => hp, h.waiting, h.copied⟩
    · exact h.moveIsr (d := s.dev) ⟨rfl, rfl⟩ (Or.inr (rfifo_of_ipenAF hknows hp hri))
        fun hq => Or.inl (hp hq)
    · exact h.moveIsr (d := s.dev) ⟨rfl, rfl⟩ trivial fun hq => Or.inl (hp hq)
  | rxLoop =>
    have hp := h.pause (hnot (by simp [hpc]))
    rw [hpc] at hknows
    simp only
    split_ifs with hfull
    · refine h.moveIsr (d := s.dev) ⟨rfl, rfl⟩ (fun heq => ?_) fun hq => Or.inl (hp hq)
      have h0 := (RingBuf.used_eq_zero_iff hrx.ok).2 heq
      have h1 := (RingBuf.full_iff hrx.ok).1 hfull
      rw [h0] at h1
      simp [bufLen] at h1
    · refine h.moveIsr ⟨rfl, rfl⟩ (hknows.imp id fun hne => ?_) fun _ => Or.inr rfl
      simpa [Device.pop] using hne
  | rxRead =>
    rw [hpc] at hknows
    simp only
    split_ifs with hempty
    · refine h.moveIsr ⟨rfl, rfl⟩ ?_ (by rintro ⟨⟩)
      rcases hknows with hne | hvalid
      · exact hne
      · exact absurd ((dataWord_rvalid s.dev).1 hempty) (by simp [hvalid])
    · exact h.receive hrx (hrx.room f hf hpc) rfl _
  | rxAfter =>
    have hp := h.pause (hnot (by simp [hpc]))
    rw [hpc] at hknows
    simp only
    split_ifs with hdata
    · exact h.maskRx hknows (hnot (by simp [hpc])) rfl
    · exact h.moveIsr (d := s.dev) ⟨rfl, rfl⟩ trivial fun hq => Or.inl (hp hq)
  | txCheck =>
    have hp := h.pause (hnot (by simp [hpc]))
    simp only
    split_ifs
    · exact h.moveIsr (d := s.dev) ⟨rfl, rfl⟩ trivial fun hq => Or.inl (hp hq)
    · exact h.moveIsr (d := s.dev) ⟨rfl, rfl⟩ trivial fun hq => Or.inl (hp hq)
  | txLoop =>
    have hp := h.pause (hnot (by simp [hpc]))
    simp only
    split_ifs with hsend
    · obtain ⟨hpos, hne⟩ := hsend
      obtain ⟨hae, haf, hfifo, hpaused⟩ := writeData_same s.dev (s.uart.tx.buf s.uart.tx.outPos)
      refine ⟨hae.trans h.ienAE, haf.trans h.ienAF, h.mie, fun hk _ => h.tx hk hne, h.rx, ?_, ?_,
        h.waiting, h.copied⟩
      · rintro f' ⟨⟩
        trivial
      · intro _ hq
        show (s.dev.writeData _).rfifo ≠ []
        rw [hfifo]
        exact hp (hpaused ▸ hq)
    · refine h.moveIsr (d := s.dev) ⟨rfl, rfl⟩ (fun hpos => ?_) fun hq => Or.inl (hp hq)
      by_contra hne
      exact hsend ⟨hpos, hne⟩
  | txAfter =>
    have hp := h.pause (hnot (by simp [hpc]))
    rw [hpc] at hknows
    simp only
    split_ifs with hspace
    · exact h.maskTx (hknows hspace) (hnot (by simp [hpc])) rfl
    · exact h.moveIsr (d := s.dev) ⟨rfl, rfl⟩ trivial fun hq => Or.inl (hp hq)

theorem WakeInv.timeout {s : System} (h : WakeInv s) : WakeInv (timeoutRoutine s) := by
  obtain ⟨h0, h1⟩ := getLsbD_acMsk s.uart.irqEnable
  unfold timeoutRoutine
  split_ifs
  · exact h.frame ⟨h1.trans h.ienAE.symm, h0.trans h.ienAF.symm, rfl, rfl, rfl, rfl, rfl, rfl, rfl, id,
      Or.inl, Or.inl⟩
  · exact h.frame ⟨rfl, rfl, rfl, rfl, rfl, rfl, rfl, rfl, rfl, id, Or.inl, Or.inl⟩
  · exact h

theorem WakeInv.step {s : System} (h : WakeInv s) (hrx : RxInv s) (a : Action) :
    WakeInv (step s a) := by
  cases a with
  | callWrite buffer nonblock =>
    simp only [JtagUart.step, callWrite]
    split
    · rename_i hi ht
      have hrx' := h.rx
      rw [ht] at hrx'
      constructor
      · exact h.ienAE
      · exact h.ienAF
      · exact Or.inl (h.mie_of (by rw [ht]; rfl))
      · rintro ⟨⟩
      · exact hrx'
      · exact h.knows
      · exact h.pause
      · rintro _ ⟨⟩
      · rintro _ ⟨⟩
    · exact h
  | callRead space nonblock =>
    simp only [JtagUart.step, callRead]
    split
    · rename_i hi ht
      have htx := h.tx
      have hrx' := h.rx
      rw [ht] at htx hrx'
      refine ⟨h.ienAE, h.ienAF, Or.inl (h.mie_of (by rw [ht]; rfl)), fun _ => htx rfl,
        hrx'.imp id (Or.imp id False.elim), h.knows, h.pause, ?_, ?_⟩
      · rintro c ⟨⟩ -
        rfl
      · rintro c ⟨⟩
        exact Nat.zero_le _
    · exact h
  | thread =>
    simp only [JtagUart.step, threadStep]
    split
    · rename_i hi ht
      exact h.writeStep ht hi
    · rename_i hi ht
      exact h.readStep hrx ht hi
    · exact h
  | irq =>
    simp only [JtagUart.step]
    split_ifs with hirq
    · have hp := h.pause (System.notReading_of_none (Option.isNone_iff_eq_none.1 hirq.2.1))
      exact h.moveIsr (d := s.dev) ⟨rfl, rfl⟩ trivial fun hq => Or.inl (hp hq)
    · exact h
  | isr =>
    simp only [JtagUart.step]
    split
    · rename_i hf
      exact h.isrStep hrx hf
    · exact h
  | timeout =>
    simp only [JtagUart.step]
    split_ifs
    · exact h.timeout
    · exact h
  | hostSend b =>
    refine h.frame ⟨rfl, rfl, rfl, rfl, rfl, rfl, rfl, rfl, rfl, fun hne => ?_, Or.inl, Or.inl⟩
    show (if _ then _ else _) ≠ []
    split_ifs
    · simp
    · exact hne
  | hostPause =>
    refine h.frame ⟨rfl, rfl, rfl, rfl, rfl, rfl, rfl, rfl, rfl, id, Or.inl, fun hp => ?_⟩
    simpa [JtagUart.step, System.setDev, Device.hostPause] using hp
  | sample =>
    refine h.frame ⟨rfl, rfl, rfl, rfl, rfl, rfl, rfl, rfl, rfl, id, fun haf => Or.inr fun hnil => ?_,
      Or.inl⟩
    simp only [JtagUart.step, System.setDev, Device.sample] at haf hnil
    simp [hnil, fifoDepth, irqThreshold] at haf
  | hostTake => exact h.frame ⟨rfl, rfl, rfl, rfl, rfl, rfl, rfl, rfl, rfl, id, Or.inl, Or.inl⟩

theorem init_wakeInv (ticksPerSecond : ℕ) : WakeInv (init ticksPerSecond) where
  ienAE := by simp [init, Device.writeControl, Device.reset, reMsk]
  ienAF := by simp [init, Device.writeControl, Device.reset, reMsk]
  mie := Or.inl rfl
  tx := fun _ hne => absurd rfl hne
  rx := Or.inl (by simp [init, reMsk])
  knows := by rintro _ ⟨⟩
  pause := by rintro _ ⟨⟩
  waiting := by rintro _ ⟨⟩
  copied := by rintro _ ⟨⟩

theorem run_wakeInv {s : System} (h : WakeInv s) (hrx : RxInv s) (as : List Action) :
    WakeInv (run s as) := by
  induction as generalizing s with
  | nil => exact h
  | cons a as ih => exact ih (h.step hrx a) (hrx.step a)

/-- No wake-up is lost, whatever the schedule. With bytes in the ring and `write` past its kick, the
interrupt comes at the first clock edge that sees the host having drained the FIFO to its threshold;
for a `read` that finds the ring empty, at the first one that sees the receive FIFO filled to its
own, or the host asking for a pause with bytes there. The processor takes it unless the thread is
between disabling and re-enabling interrupts. -/
theorem no_lost_wakeup (ticksPerSecond : ℕ) (as : List Action) :
    let s := run (init ticksPerSecond) as
    (s.thread.unkicked = false → s.uart.tx.contents bufLen ≠ [] →
      s.dev.wfifo.length ≤ irqThreshold → s.dev.sample.irq = true) ∧
    (¬ s.thread.freed → s.uart.rx.contents bufLen = [] →
      fifoDepth - s.dev.rfifo.length ≤ irqThreshold ∨ s.dev.pauseIrq = true →
        s.dev.sample.irq = true) ∧
    (s.thread.masked = none → s.mie = true) := by
  intro s
  have htx : TxInv s := run_txInv (init_txInv ticksPerSecond) as
  have hrx : RxInv s := run_rxInv (init_rxInv ticksPerSecond) as
  have h : WakeInv s := run_wakeInv (init_wakeInv _) (init_rxInv _) as
  refine ⟨fun hk hne hlow => ?_, fun hfree hnil hhigh => ?_, h.mie_of⟩
  · have hien : s.dev.ienAE = true :=
      h.ienAE.trans (h.tx hk (mt (RingBuf.contents_eq_nil_iff htx.ok).2 hne))
    simp [Device.irq, Device.ipenAE, Device.sample, hien, hlow]
  · have hien : s.dev.ienAF = true := by
      rcases h.rx with hbit | hne | hfreed
      · exact h.ienAF.trans hbit
      · exact absurd ((RingBuf.contents_eq_nil_iff hrx.ok).1 hnil) hne
      · exact absurd hfreed hfree
    rcases hhigh with haf | hp
    · simp [Device.irq, Device.ipenAF, Device.sample, hien, haf]
    · simp [Device.irq, Device.ipenAF, Device.sample, hien, hp]

end KyberNeorv32.JtagUart
