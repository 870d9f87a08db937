import KyberNeorv32.JtagUart

/-!
# What the program writes is what the host reads

Bytes go from the caller's buffer to the transmit ring, from there to the hardware FIFO, from there
to the host. `TxInv` says that nothing is lost, doubled or reordered on the way, whatever the order
in which thread, interrupt routine, timer and host act: the three together hold what the calls of
`write` have accepted. `run_txInv` carries it along every run.
-/

namespace KyberNeorv32.JtagUart

/-- What a finished `write` reported as written. -/
def Written.taken (w : Written) : List Byte := w.buffer.take w.ret.toNat

/-- What the call under way has put into the ring. -/
def Thread.taken : Thread → List Byte
  | .write c => c.buffer.take c.ptr
  | _ => []

def System.accepted (s : System) : List Byte := s.writes.flatMap Written.taken ++ s.thread.taken

/-- Inside `memcpy(sp->tx_buf + pos, ptr, n)`: all `n` cells are free and lie in the array. -/
structure Copying (tx : RingBuf Byte) (c : WriteCall) (pos n j : ℕ) : Prop where
  pos_eq : pos = tx.inPos
  le : j ≤ n
  ptr_le : c.ptr + n ≤ c.buffer.length
  free : tx.used bufLen + n < bufLen
  fits : pos + n ≤ bufLen
  copied : ∀ k < j, tx.buf (pos + k) = c.buffer.getD (c.ptr + k) 0

/-- The room in the hardware FIFO that the interrupt routine still counts on. -/
def Frame.room (f : Frame) : ℕ :=
  match f.pc with
  | .rxLoop | .rxRead | .rxAfter | .txCheck => ((f.control &&& wspaceMsk) >>> 16).toNat
  | .txLoop => f.space
  | .top | .topRead | .txAfter => 0

structure TxInv (s : System) : Prop where
  ok : s.uart.tx.Ok bufLen
  stream : s.hostGot ++ s.dev.wfifo ++ s.uart.tx.contents bufLen = s.accepted
  fifo : s.dev.wfifo.length ≤ fifoDepth
  overflow : s.dev.woverflow = false
  copy : ∀ c pos n j, s.thread = .write c → c.pc = .copy pos n j → Copying s.uart.tx c pos n j
  space : ∀ f, s.isr = some f → s.dev.wfifo.length + f.room ≤ fifoDepth

/-- What a step leaves alone when it moves no byte towards the host. -/
structure SameTx (s s' : System) : Prop where
  tx : s'.uart.tx = s.uart.tx
  wfifo : s'.dev.wfifo = s.dev.wfifo
  woverflow : s'.dev.woverflow = s.dev.woverflow
  hostGot : s'.hostGot = s.hostGot

theorem TxInv.frame {s s' : System} (h : TxInv s) (hs : SameTx s s')
    (hacc : s'.accepted = s.accepted)
    (hcopy : ∀ c pos n j, s'.thread = .write c → c.pc = .copy pos n j →
      Copying s.uart.tx c pos n j)
    (hisr : ∀ f, s'.isr = some f → s.dev.wfifo.length + f.room ≤ fifoDepth) : TxInv s' where
  ok := by rw [hs.tx]; exact h.ok
  stream := by rw [hs.hostGot, hs.wfifo, hs.tx, hacc]; exact h.stream
  fifo := by rw [hs.wfifo]; exact h.fifo
  overflow := by rw [hs.woverflow]; exact h.overflow
  copy := by rw [hs.tx]; exact hcopy
  space := by rw [hs.wfifo]; exact hisr

/-- `write` moves on without touching the ring. -/
theorem TxInv.move {s s' : System} {c c' : WriteCall} (h : TxInv s) (ht : s.thread = .write c)
    (ht' : s'.thread = .write c') (hs : SameTx s s') (hw : s'.writes = s.writes)
    (hisr : s'.isr = s.isr) (hcall : c'.buffer = c.buffer ∧ c'.ptr = c.ptr)
    (hpc : ∀ pos n j, c'.pc ≠ .copy pos n j) : TxInv s' := by
  refine h.frame hs ?_ ?_ (by rw [hisr]; exact h.space)
  · simp [System.accepted, hw, ht, ht', Thread.taken, hcall]
  · intro d pos n j hd hcp
    rw [ht'] at hd
    cases hd
    exact absurd hcp (hpc pos n j)

/-- `write` reports exactly what it has put into the ring. -/
theorem TxInv.writeReturn {s : System} {c : WriteCall} (h : TxInv s) (ht : s.thread = .write c) :
    TxInv (s.writeReturn c) := by
  refine h.frame ⟨rfl, rfl, rfl, rfl⟩ ?_ (fun d pos n j hd => by cases hd) h.space
  have hret : Written.taken ⟨c.buffer, c.nonblock,
      if c.ptr ≠ 0 then c.ptr else if c.nonblock then -ewouldblock else -eio⟩ =
      c.buffer.take c.ptr := by
    by_cases hp : c.ptr = 0
    · cases hb : c.nonblock <;> simp [Written.taken, hp, eio, ewouldblock]
    · simp [Written.taken, hp]
  simp only [System.accepted, System.writeReturn, List.flatMap_append, List.flatMap_singleton, hret,
    ht, Thread.taken, List.append_nil]

/-- The room that `write` finds is free and lies before the end of the array. -/
theorem txRoom_free {tx : RingBuf Byte} (h : tx.Ok bufLen) :
    tx.used bufLen + txRoom tx.inPos tx.outPos < bufLen ∧
      tx.inPos + txRoom tx.inPos tx.outPos ≤ bufLen := by
  have hu := RingBuf.used_cases h
  obtain ⟨hin, hout⟩ := h
  unfold txRoom
  split_ifs <;> omega

theorem Copying.store {tx : RingBuf Byte} {c : WriteCall} {pos n j : ℕ} (h : Copying tx c pos n j)
    (hj : j < n) :
    Copying (tx.store (pos + j) (c.buffer.getD (c.ptr + j) 0)) c pos n (j + 1) where
  pos_eq := h.pos_eq
  le := hj
  ptr_le := h.ptr_le
  free := h.free
  fits := h.fits
  copied := by
    intro k hk
    show Function.update tx.buf (pos + j) _ (pos + k) = _
    rcases Nat.lt_succ_iff_lt_or_eq.1 hk with hlt | rfl
    · rw [Function.update_of_ne (by omega)]
      exact h.copied k hlt
    · exact Function.update_self ..

/-- The cells that `memcpy` fills do not wrap around. -/
theorem Copying.cell {tx : RingBuf Byte} {c : WriteCall} {pos n j k : ℕ} (h : Copying tx c pos n j)
    (hk : k < n) : (tx.inPos + k) % bufLen = pos + k := by
  rw [← h.pos_eq]
  exact Nat.mod_eq_of_lt (by have := h.fits; omega)

/-- One byte of `memcpy`. -/
theorem TxInv.copyByte {s : System} {c : WriteCall} {pos n j : ℕ} (h : TxInv s)
    (ht : s.thread = .write c) (hpc : c.pc = .copy pos n j) (hj : j < n) :
    TxInv ((s.setTx (s.uart.tx.store (pos + j) (c.buffer.getD (c.ptr + j) 0))).inWrite
      { c with pc := .copy pos n (j + 1) }) where
  ok := h.ok.store _ _
  stream := by
    have hc := h.copy c pos n j ht hpc
    have hcontents := RingBuf.contents_store h.ok (j := j) (by have := hc.free; omega)
      (c.buffer.getD (c.ptr + j) 0)
    rw [hc.cell hj] at hcontents
    have hstream := h.stream
    rw [← hcontents] at hstream
    simpa [System.accepted, ht, Thread.taken, System.inWrite, System.setTx] using hstream
  fifo := h.fifo
  overflow := h.overflow
  copy := by
    intro d pos' n' j' hd hcp
    cases hd
    cases hcp
    exact { (h.copy c pos n j ht hpc).store hj with }
  space := h.space

/-- `memcpy` is done: `tx_in` moves and the bytes count as written. -/
theorem TxInv.publish {s : System} {c : WriteCall} {pos n j : ℕ} (h : TxInv s)
    (ht : s.thread = .write c) (hpc : c.pc = .copy pos n j) (hj : ¬ j < n) :
    TxInv ((s.setTx { s.uart.tx with inPos := (pos + n) % bufLen }).inWrite
      { c with ptr := c.ptr + n, pc := .loop }) := by
  have hc := h.copy c pos n j ht hpc
  obtain rfl : j = n := le_antisymm hc.le (not_lt.1 hj)
  have hpub : ({ s.uart.tx with inPos := (pos + j) % bufLen } : RingBuf Byte) =
      s.uart.tx.publish bufLen j := by rw [hc.pos_eq]; rfl
  rw [hpub]
  refine ⟨h.ok.publish _, ?_, h.fifo, h.overflow, ?_, h.space⟩
  · have hcells : ((List.range j).map fun k => s.uart.tx.buf ((s.uart.tx.inPos + k) % bufLen)) =
        (c.buffer.drop c.ptr).take j := by
      apply List.ext_getElem
      · have := hc.ptr_le
        simp
        omega
      · intro k h1 h2
        have hk : k < j := by simpa using h1
        have := hc.ptr_le
        simp only [List.getElem_map, List.getElem_range, List.getElem_take, List.getElem_drop]
        rw [hc.cell hk, hc.copied k hk, List.getD_eq_getElem _ _ (by omega)]
    have hstream := h.stream
    simp only [System.accepted, ht, Thread.taken] at hstream
    show s.hostGot ++ s.dev.wfifo ++ (s.uart.tx.publish bufLen j).contents bufLen =
      s.writes.flatMap Written.taken ++ c.buffer.take (c.ptr + j)
    rw [RingBuf.contents_publish h.ok hc.free, hcells, ← List.append_assoc, hstream, List.take_add,
      List.append_assoc]
  · intro d pos' n' j' hd hcp
    cases hd
    cases hcp

theorem TxInv.writeStep {s : System} {c : WriteCall} (h : TxInv s) (ht : s.thread = .write c) :
    TxInv (writeStep s c) := by
  unfold JtagUart.writeStep
  cases hpc : c.pc with
  | loop =>
    simp only
    split_ifs with hcount hroom
    · exact h.move ht rfl ⟨rfl, rfl, rfl, rfl⟩ rfl rfl ⟨rfl, rfl⟩ nofun
    · refine h.frame ⟨rfl, rfl, rfl, rfl⟩ ?_ ?_ h.space
      · simp [System.accepted, System.inWrite, ht, Thread.taken]
      · rintro d pos n j ⟨⟩ ⟨⟩
        obtain ⟨hfree, hfits⟩ := txRoom_free h.ok
        refine ⟨rfl, Nat.zero_le _, ?_, by omega, by omega, nofun⟩
        show c.ptr + min _ (c.buffer.length - c.ptr) ≤ c.buffer.length
        omega
    · exact h.move ht rfl ⟨rfl, rfl, rfl, rfl⟩ rfl rfl ⟨rfl, rfl⟩ nofun
  | copy pos n j =>
    simp only
    split_ifs with hj
    · exact h.copyByte ht hpc hj
    · exact h.publish ht hpc hj
  | disable => exact h.move ht rfl ⟨rfl, rfl, rfl, rfl⟩ rfl rfl ⟨rfl, rfl⟩ nofun
  | kick => exact h.move ht rfl ⟨rfl, rfl, rfl, rfl⟩ rfl rfl ⟨rfl, rfl⟩ nofun
  | enable => exact h.move ht rfl ⟨rfl, rfl, rfl, rfl⟩ rfl rfl ⟨rfl, rfl⟩ nofun
  | test =>
    simp only
    split_ifs
    · exact h.writeReturn ht
    · exact h.move ht rfl ⟨rfl, rfl, rfl, rfl⟩ rfl rfl ⟨rfl, rfl⟩ nofun
    · exact h.writeReturn ht
  | spinOut =>
    refine h.move ht rfl ⟨rfl, rfl, rfl, rfl⟩ rfl rfl ⟨rfl, rfl⟩ fun pos n j => ?_
    split_ifs <;> nofun
  | spinHost =>
    refine h.move ht rfl ⟨rfl, rfl, rfl, rfl⟩ rfl rfl ⟨rfl, rfl⟩ fun pos n j => ?_
    split_ifs <;> nofun
  | checkHost =>
    simp only
    split_ifs
    · exact h.writeReturn ht
    · exact h.move ht rfl ⟨rfl, rfl, rfl, rfl⟩ rfl rfl ⟨rfl, rfl⟩ nofun

/-! ## The other steps -/

/-- A step of a thread that is not writing. -/
theorem TxInv.idle {s s' : System} (h : TxInv s) (hs : SameTx s s') (hw : s'.writes = s.writes)
    (hisr : s'.isr = s.isr) (ht : ∀ c, s.thread ≠ .write c) (ht' : ∀ c, s'.thread ≠ .write c) :
    TxInv s' := by
  refine h.frame hs ?_ (fun c pos n j hc => absurd hc (ht' c)) (by rw [hisr]; exact h.space)
  have htaken : ∀ t : Thread, (∀ c, t ≠ .write c) → t.taken = [] := by
    rintro (_ | c | c) hne
    · rfl
    · exact absurd rfl (hne c)
    · rfl
  simp only [System.accepted, hw, htaken _ ht, htaken _ ht']

theorem TxInv.readStep {s : System} {c : ReadCall} (h : TxInv s) (ht : s.thread = .read c) :
    TxInv (readStep s c) := by
  have hne : ∀ d, s.thread ≠ .write d := by
    rw [ht]
    nofun
  unfold JtagUart.readStep
  cases c.pc with
  | loop => exact h.idle ⟨rfl, rfl, rfl, rfl⟩ rfl rfl hne nofun
  | fetch =>
    simp only
    split_ifs
    · exact h.idle ⟨rfl, rfl, rfl, rfl⟩ rfl rfl hne nofun
    · exact h.idle ⟨rfl, rfl, rfl, rfl⟩ rfl rfl hne nofun
  | copy pos n j =>
    simp only
    split_ifs
    · exact h.idle ⟨rfl, rfl, rfl, rfl⟩ rfl rfl hne nofun
    · exact h.idle ⟨rfl, rfl, rfl, rfl⟩ rfl rfl hne nofun
    · exact h.idle ⟨rfl, rfl, rfl, rfl⟩ rfl rfl hne nofun
  | after =>
    simp only
    split_ifs
    · exact h.idle ⟨rfl, rfl, rfl, rfl⟩ rfl rfl hne nofun
    · exact h.idle ⟨rfl, rfl, rfl, rfl⟩ rfl rfl hne nofun
    · exact h.idle ⟨rfl, rfl, rfl, rfl⟩ rfl rfl hne nofun
  | recheck =>
    simp only
    split_ifs
    · exact h.idle ⟨rfl, rfl, rfl, rfl⟩ rfl rfl hne nofun
    · exact h.idle ⟨rfl, rfl, rfl, rfl⟩ rfl rfl hne nofun
  | spinIn | spinHost | disable | kick | enable =>
    exact h.idle ⟨rfl, rfl, rfl, rfl⟩ rfl rfl hne nofun

/-- The interrupt routine moves on without sending. -/
theorem TxInv.moveIsr {s s' : System} {f : Frame} (h : TxInv s) (hs : SameTx s s')
    (hw : s'.writes = s.writes) (ht : s'.thread = s.thread) (hf : s'.isr = some f)
    (hroom : s.dev.wfifo.length + f.room ≤ fifoDepth) : TxInv s' := by
  refine h.frame hs (by simp only [System.accepted, hw, ht]) (by rw [ht]; exact h.copy) ?_
  intro f' hf'
  rw [hf] at hf'
  cases hf'
  exact hroom

/-- The interrupt routine sends the oldest byte of the ring: the FIFO has room for it. -/
theorem TxInv.send {s : System} {f : Frame} (h : TxInv s) (hf : s.isr = some f)
    (hpc : f.pc = .txLoop) (hpos : 0 < f.space) (hne : s.uart.tx.outPos ≠ s.uart.tx.inPos) :
    TxInv (((s.setDev (s.dev.writeData (s.uart.tx.buf s.uart.tx.outPos))).setTx
      (s.uart.tx.free bufLen 1)).inIsr { f with space := f.space - 1, pc := .txLoop }) := by
  have hspace := h.space f hf
  simp only [Frame.room, hpc] at hspace
  have hroom : s.dev.wfifo.length < fifoDepth := by omega
  have hused : 1 ≤ s.uart.tx.used bufLen :=
    Nat.one_le_iff_ne_zero.2 fun h0 => hne ((RingBuf.used_eq_zero_iff h.ok).1 h0)
  have hdev : s.dev.writeData (s.uart.tx.buf s.uart.tx.outPos) =
      { s.dev with wfifo := s.dev.wfifo ++ [s.uart.tx.buf s.uart.tx.outPos], woverflow := false } :=
    if_pos hroom
  rw [hdev]
  refine ⟨h.ok.free 1, ?_, ?_, rfl, ?_, ?_⟩
  · show s.hostGot ++ (s.dev.wfifo ++ [_]) ++ (s.uart.tx.free bufLen 1).contents bufLen = s.accepted
    rw [RingBuf.contents_free h.ok hused, ← h.stream, RingBuf.contents_eq_cons h.ok hne]
    simp
  · show (s.dev.wfifo ++ [_]).length ≤ fifoDepth
    simp
    omega
  · intro c pos n j hc hcp
    have hcopy := h.copy c pos n j hc hcp
    refine { hcopy with free := ?_, copied := hcopy.copied }
    have := hcopy.free
    show (s.uart.tx.free bufLen 1).used bufLen + n < bufLen
    rw [RingBuf.used_free h.ok hused]
    omega
  · rintro f' ⟨⟩
    simp only [Frame.room, System.inIsr, System.setTx, System.setDev, List.length_append,
      List.length_singleton]
    omega

theorem TxInv.isrStep {s : System} {f : Frame} (h : TxInv s) (hf : s.isr = some f) :
    TxInv (isrStep s f) := by
  have hroom := h.space f hf
  unfold JtagUart.isrStep
  cases hpc : f.pc with
  | top => exact h.moveIsr ⟨rfl, rfl, rfl, rfl⟩ rfl rfl rfl h.fifo
  | topRead =>
    have hcontrol : s.dev.wfifo.length + ((s.dev.control &&& wspaceMsk) >>> 16).toNat ≤ fifoDepth := by
      rw [control_wspace]
      exact (Nat.add_sub_of_le h.fifo).le
    simp only
    split_ifs
    · exact h.frame ⟨rfl, rfl, rfl, rfl⟩ rfl h.copy nofun
    · exact h.moveIsr ⟨rfl, rfl, rfl, rfl⟩ rfl rfl rfl hcontrol
    · exact h.moveIsr ⟨rfl, rfl, rfl, rfl⟩ rfl rfl rfl hcontrol
  | rxLoop | rxRead =>
    simp only [Frame.room, hpc] at hroom
    simp only
    split_ifs
    · exact h.moveIsr ⟨rfl, rfl, rfl, rfl⟩ rfl rfl rfl hroom
    · exact h.moveIsr ⟨rfl, rfl, rfl, rfl⟩ rfl rfl rfl hroom
  | rxAfter =>
    simp only [Frame.room, hpc] at hroom
    simp only
    split_ifs
    · exact h.moveIsr ⟨rfl, rfl, rfl, rfl⟩ rfl rfl rfl hroom
    · exact h.moveIsr ⟨rfl, rfl, rfl, rfl⟩ rfl rfl rfl hroom
  | txCheck =>
    simp only [Frame.room, hpc] at hroom
    simp only
    split_ifs
    · exact h.moveIsr ⟨rfl, rfl, rfl, rfl⟩ rfl rfl rfl hroom
    · exact h.moveIsr ⟨rfl, rfl, rfl, rfl⟩ rfl rfl rfl h.fifo
  | txLoop =>
    simp only
    split_ifs with hsend
    · exact h.send hf hpc hsend.1 hsend.2
    · exact h.moveIsr ⟨rfl, rfl, rfl, rfl⟩ rfl rfl rfl h.fifo
  | txAfter =>
    simp only
    split_ifs
    · exact h.moveIsr ⟨rfl, rfl, rfl, rfl⟩ rfl rfl rfl h.fifo
    · exact h.moveIsr ⟨rfl, rfl, rfl, rfl⟩ rfl rfl rfl h.fifo

/-- The host takes the oldest byte of the FIFO. -/
theorem TxInv.hostTake {s : System} (h : TxInv s) : TxInv (step s .hostTake) where
  ok := h.ok
  stream := by
    show s.hostGot ++ s.dev.wfifo.take 1 ++ s.dev.wfifo.tail ++ s.uart.tx.contents bufLen = s.accepted
    rw [← h.stream, List.append_assoc s.hostGot, ← List.drop_one, List.take_append_drop]
  fifo := le_trans (by simp [step, Device.hostTake]) h.fifo
  overflow := h.overflow
  copy := h.copy
  space := fun f hf => le_trans (by simp [step, Device.hostTake]) (h.space f hf)

theorem TxInv.step {s : System} (h : TxInv s) (a : Action) : TxInv (step s a) := by
  cases a with
  | callWrite buffer nonblock =>
    simp only [JtagUart.step, callWrite]
    split
    · rename_i hi ht
      refine h.frame ⟨rfl, rfl, rfl, rfl⟩ ?_ ?_ h.space
      · simp [System.accepted, System.inWrite, ht, Thread.taken]
      · rintro c pos n j ⟨⟩ ⟨⟩
    · exact h
  | callRead space nonblock =>
    simp only [JtagUart.step, callRead]
    split
    · rename_i hi ht
      exact h.idle ⟨rfl, rfl, rfl, rfl⟩ rfl rfl (by rw [ht]; nofun) nofun
    · exact h
  | thread =>
    simp only [JtagUart.step, threadStep]
    split
    · rename_i ht
      exact h.writeStep ht
    · rename_i ht
      exact h.readStep ht
    · exact h
  | irq =>
    simp only [JtagUart.step]
    split_ifs
    · exact h.moveIsr ⟨rfl, rfl, rfl, rfl⟩ rfl rfl rfl h.fifo
    · exact h
  | isr =>
    simp only [JtagUart.step]
    split
    · rename_i hf
      exact h.isrStep hf
    · exact h
  | timeout =>
    simp only [JtagUart.step, timeoutRoutine]
    split_ifs
    · exact h.frame ⟨rfl, rfl, rfl, rfl⟩ rfl h.copy h.space
    · exact h.frame ⟨rfl, rfl, rfl, rfl⟩ rfl h.copy h.space
    · exact h.frame ⟨rfl, rfl, rfl, rfl⟩ rfl h.copy h.space
    · exact h.frame ⟨rfl, rfl, rfl, rfl⟩ rfl h.copy h.space
  | sample => exact h.frame ⟨rfl, rfl, rfl, rfl⟩ rfl h.copy h.space
  | hostTake => exact h.hostTake
  | hostSend | hostPause => exact h.frame ⟨rfl, rfl, rfl, rfl⟩ rfl h.copy h.space

theorem init_txInv (ticksPerSecond : ℕ) : TxInv (init ticksPerSecond) where
  ok := ⟨by norm_num [init, bufLen], by norm_num [init, bufLen]⟩
  stream := by
    have hempty : (init ticksPerSecond).uart.tx.contents bufLen = [] := by
      simp [init, RingBuf.contents, RingBuf.used]
    rw [hempty]
    rfl
  fifo := Nat.zero_le _
  overflow := rfl
  copy := nofun
  space := nofun

theorem run_txInv {s : System} (h : TxInv s) (as : List Action) : TxInv (run s as) := by
  induction as generalizing s with
  | nil => exact h
  | cons a as ih => exact ih (h.step a)

/-- Transmission under every schedule, with any tick rate: the host has read a prefix of what
`write` reported as written, the rest is on its way in order, and no byte ever met a full FIFO. -/
theorem transmit_stream (ticksPerSecond : ℕ) (as : List Action) :
    let s := run (init ticksPerSecond) as
    s.hostGot ++ s.dev.wfifo ++ s.uart.tx.contents bufLen =
        s.writes.flatMap Written.taken ++ s.thread.taken ∧
      s.dev.wfifo.length ≤ fifoDepth ∧ s.dev.woverflow = false := by
  have h := run_txInv (init_txInv ticksPerSecond) as
  exact ⟨h.stream, h.fifo, h.overflow⟩

/-! ## A blocking `write` after `boot` -/

/-- The alarm is never set, so the host always counts as there and `write` has no reason to give
up. -/
structure HostInv (s : System) : Prop where
  alarm : s.alarmOn = false
  present : s.uart.hostInactive = 0
  ptr_le : ∀ c, s.thread = .write c → c.ptr ≤ c.buffer.length
  written : ∀ w ∈ s.writes, w.nonblock = false →
    w.ret = if w.buffer = [] then -eio else (w.buffer.length : ℤ)

/-- Steps that neither end a call of `write` nor move its `ptr`. -/
theorem HostInv.frame {s s' : System} (h : HostInv s) (ha : s'.alarmOn = s.alarmOn)
    (hp : s'.uart.hostInactive = s.uart.hostInactive) (hw : s'.writes = s.writes)
    (ht : ∀ c', s'.thread = .write c' → ∃ c, s.thread = .write c ∧ c'.ptr = c.ptr ∧
      c'.buffer = c.buffer) : HostInv s' where
  alarm := by rw [ha]; exact h.alarm
  present := by rw [hp]; exact h.present
  ptr_le := by
    intro c' hc'
    obtain ⟨c, hc, hptr, hbuf⟩ := ht c' hc'
    rw [hptr, hbuf]
    exact h.ptr_le c hc
  written := by rw [hw]; exact h.written

theorem HostInv.writeReturn {s : System} {c : WriteCall} (h : HostInv s) (ht : s.thread = .write c)
    (hend : c.ptr < c.buffer.length → c.nonblock = true) : HostInv (s.writeReturn c) where
  alarm := h.alarm
  present := h.present
  ptr_le := nofun
  written := by
    intro w hw hblock
    rcases List.mem_append.1 hw with hold | hnew
    · exact h.written w hold hblock
    · obtain rfl := List.mem_singleton.1 hnew
      simp only at hblock
      have hlen : c.ptr = c.buffer.length := by
        have hle := h.ptr_le c ht
        by_contra hne
        exact absurd (hend (by omega)) (by simp [hblock])
      by_cases hb : c.buffer = []
      · simp [hlen, hb, hblock]
      · simp [hlen, hb]

theorem HostInv.writeStep {s : System} {c : WriteCall} (h : HostInv s) (htx : TxInv s)
    (ht : s.thread = .write c) : HostInv (writeStep s c) := by
  have same : ∀ c' : WriteCall, c'.ptr = c.ptr → c'.buffer = c.buffer →
      ∀ d, Thread.write c' = .write d → ∃ c, s.thread = .write c ∧ d.ptr = c.ptr ∧
        d.buffer = c.buffer := by
    rintro c' hptr hbuf d ⟨⟩
    exact ⟨c, ht, hptr, hbuf⟩
  unfold JtagUart.writeStep
  cases hpc : c.pc with
  | loop =>
    simp only
    split_ifs
    · exact h.frame rfl rfl rfl (same _ rfl rfl)
    · exact h.frame rfl rfl rfl (same _ rfl rfl)
    · exact h.frame rfl rfl rfl (same _ rfl rfl)
  | copy pos n j =>
    simp only
    split_ifs with hj
    · exact h.frame rfl rfl rfl (same _ rfl rfl)
    · refine ⟨h.alarm, h.present, ?_, h.written⟩
      rintro d ⟨⟩
      exact (htx.copy c pos n j ht hpc).ptr_le
  | test =>
    simp only
    split_ifs with hcount hnb
    · exact h.writeReturn ht fun _ => hnb
    · exact h.frame rfl rfl rfl (same _ rfl rfl)
    · exact h.writeReturn ht fun hlt => absurd hlt hcount
  | checkHost =>
    simp only
    split_ifs with hhost
    · exact absurd h.present hhost
    · exact h.frame rfl rfl rfl (same _ rfl rfl)
  | disable | kick | enable | spinOut | spinHost => exact h.frame rfl rfl rfl (same _ rfl rfl)

theorem HostInv.readStep {s : System} {c : ReadCall} (h : HostInv s) : HostInv (readStep s c) := by
  unfold JtagUart.readStep
  cases c.pc with
  | fetch | recheck =>
    simp only
    split_ifs
    · exact h.frame rfl rfl rfl nofun
    · exact h.frame rfl rfl rfl nofun
  | copy | after =>
    simp only
    split_ifs
    · exact h.frame rfl rfl rfl nofun
    · exact h.frame rfl rfl rfl nofun
    · exact h.frame rfl rfl rfl nofun
  | loop | spinIn | spinHost | disable | kick | enable => exact h.frame rfl rfl rfl nofun

theorem HostInv.isrStep {s : System} {f : Frame} (h : HostInv s) : HostInv (isrStep s f) := by
  have same : ∀ d, s.thread = .write d → ∃ c, s.thread = .write c ∧ d.ptr = c.ptr ∧
      d.buffer = c.buffer := fun d hd => ⟨d, hd, rfl, rfl⟩
  unfold JtagUart.isrStep
  cases f.pc with
  | top => exact h.frame rfl rfl rfl same
  | topRead =>
    simp only
    split_ifs
    · exact h.frame rfl rfl rfl same
    · exact h.frame rfl rfl rfl same
    · exact h.frame rfl rfl rfl same
  | rxLoop | rxRead | rxAfter | txCheck | txLoop | txAfter =>
    simp only
    split_ifs
    · exact h.frame rfl rfl rfl same
    · exact h.frame rfl rfl rfl same

theorem HostInv.step {s : System} (h : HostInv s) (htx : TxInv s) (a : Action) :
    HostInv (step s a) := by
  have same : ∀ d, s.thread = .write d → ∃ c, s.thread = .write c ∧ d.ptr = c.ptr ∧
      d.buffer = c.buffer := fun d hd => ⟨d, hd, rfl, rfl⟩
  cases a with
  | callWrite buffer nonblock =>
    simp only [JtagUart.step, callWrite]
    split
    · refine ⟨h.alarm, h.present, ?_, h.written⟩
      rintro d ⟨⟩
      exact Nat.zero_le _
    · exact h
  | callRead space nonblock =>
    simp only [JtagUart.step, callRead]
    split
    · exact h.frame rfl rfl rfl nofun
    · exact h
  | thread =>
    simp only [JtagUart.step, threadStep]
    split
    · rename_i ht
      exact h.writeStep htx ht
    · exact h.readStep
    · exact h
  | irq =>
    simp only [JtagUart.step]
    split_ifs
    · exact h.frame rfl rfl rfl same
    · exact h
  | isr =>
    simp only [JtagUart.step]
    split
    · exact h.isrStep
    · exact h
  | timeout =>
    simp only [JtagUart.step, h.alarm]
    simpa using h
  | sample | hostTake | hostSend | hostPause => exact h.frame rfl rfl rfl same

theorem boot_hostInv : HostInv boot := ⟨rfl, rfl, nofun, nofun⟩

theorem run_hostInv {s : System} (h : HostInv s) (htx : TxInv s) (as : List Action) :
    HostInv (run s as) := by
  induction as generalizing s with
  | nil => exact h
  | cons a as ih => exact ih (h.step htx a) (htx.step a)

theorem Written.taken_eq {w : Written} (hret : w.ret = if w.buffer = [] then -eio else ↑w.buffer.length) :
    w.taken = w.buffer := by
  by_cases hb : w.buffer = []
  · simp [Written.taken, hb]
  · simp [Written.taken, hret, hb]

/-- As the firmware starts the driver, a blocking `write` that returns has written everything (an
empty buffer gives `-EIO`), so nothing that the program prints is dropped, whatever the schedule. -/
theorem boot_write_complete (as : List Action) :
    (∀ w ∈ (run boot as).writes, w.nonblock = false →
      w.ret = if w.buffer = [] then -eio else (w.buffer.length : ℤ)) ∧
    ((∀ w ∈ (run boot as).writes, w.nonblock = false) →
      (run boot as).hostGot ++ (run boot as).dev.wfifo ++ (run boot as).uart.tx.contents bufLen =
        (run boot as).writes.flatMap Written.buffer ++ (run boot as).thread.taken) := by
  have hhost := run_hostInv boot_hostInv (init_txInv 0) as
  have htx : TxInv (run boot as) := run_txInv (init_txInv 0) as
  refine ⟨hhost.written, fun hall => ?_⟩
  rw [htx.stream, System.accepted]
  congr 1
  exact List.flatMap_congr fun w hw => Written.taken_eq (hhost.written w hw (hall w hw))

end KyberNeorv32.JtagUart
