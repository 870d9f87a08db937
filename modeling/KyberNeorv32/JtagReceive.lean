import KyberNeorv32.JtagUart

/-!
# What the host sends is what the program reads

The way in: hardware FIFO, receive ring, caller's buffer. The interrupt routine fills the ring while
`read` may be in the middle of its `memcpy`; `RxInv` says that the bytes delivered, those in the
ring that `read` has not copied yet and those in the FIFO are together what the host sent, in order.
-/

namespace KyberNeorv32.JtagUart

/-- What the call under way has put into the caller's buffer. -/
def Thread.got : Thread → List Byte
  | .read c => c.got
  | _ => []

/-- How many bytes of the ring are copied but not freed yet. -/
def ReadPc.copied : ReadPc → ℕ
  | .copy _ _ j => j
  | _ => 0

def Thread.copied : Thread → ℕ
  | .read c => c.pc.copied
  | _ => 0

theorem ReadPc.copied_eq_zero {pc : ReadPc} (h : ∀ pos n j, pc ≠ .copy pos n j) : pc.copied = 0 := by
  cases pc with
  | copy pos n j => exact absurd rfl (h pos n j)
  | _ => rfl

/-- The byte on its way from the FIFO through the data register. -/
def System.inFlight (s : System) : List Byte :=
  match s.isr with
  | some f => if f.pc = .rxRead ∧ s.dev.rvalid = true then [s.dev.rdata] else []
  | none => []

def System.delivered (s : System) : List Byte := s.reads.flatMap Received.got ++ s.thread.got

/-- Inside `memcpy(ptr, sp->rx_buf + pos, n)`: the `n` cells hold received bytes, lie in the array,
and the caller's buffer has room for them. -/
structure Fetching (rx : RingBuf Byte) (c : ReadCall) (pos n j : ℕ) : Prop where
  pos_eq : pos = rx.outPos
  le : j ≤ n
  used : n ≤ rx.used bufLen
  fits : pos + n ≤ bufLen
  space : n ≤ c.space

theorem Fetching.cell {rx : RingBuf Byte} {c : ReadCall} {pos n j k : ℕ} (h : Fetching rx c pos n j)
    (hk : k < n) : (rx.outPos + k) % bufLen = pos + k := by
  rw [← h.pos_eq]
  exact Nat.mod_eq_of_lt (by have := h.fits; omega)

/-- `read` never overruns the caller's buffer: what it holds and what is left add up to `asked`. -/
def ReadCall.Within (c : ReadCall) : Prop := c.got.length + c.space = c.asked + c.pc.copied

structure RxInv (s : System) : Prop where
  ok : s.uart.rx.Ok bufLen
  stream : s.delivered ++ (s.uart.rx.contents bufLen).drop s.thread.copied ++ s.inFlight ++
    s.dev.rfifo = s.hostSent
  fifo : s.dev.rfifo.length ≤ fifoDepth
  copy : ∀ c pos n j, s.thread = .read c → c.pc = .copy pos n j → Fetching s.uart.rx c pos n j
  within : ∀ c, s.thread = .read c → c.Within
  room : ∀ f, s.isr = some f → f.pc = .rxRead → s.uart.rx.used bufLen + 1 < bufLen
  reads : ∀ r ∈ s.reads, r.got.length ≤ r.asked ∧
    r.ret = if r.got ≠ [] then (r.got.length : ℤ) else if r.nonblock then -ewouldblock else -eio

/-- What a step leaves alone when it moves no byte towards the program. -/
structure SameRx (s s' : System) : Prop where
  rx : s'.uart.rx = s.uart.rx
  rfifo : s'.dev.rfifo = s.dev.rfifo
  rvalid : s'.dev.rvalid = s.dev.rvalid
  rdata : s'.dev.rdata = s.dev.rdata
  isr : s'.isr = s.isr
  hostSent : s'.hostSent = s.hostSent
  reads : s'.reads = s.reads

theorem SameRx.inFlight {s s' : System} (hs : SameRx s s') : s'.inFlight = s.inFlight := by
  simp only [System.inFlight, hs.isr, hs.rvalid, hs.rdata]

theorem RxInv.frame {s s' : System} (h : RxInv s) (hs : SameRx s s') (ht : s'.thread = s.thread) :
    RxInv s' where
  ok := by rw [hs.rx]; exact h.ok
  stream := by
    simp only [System.delivered, hs.rx, hs.inFlight, hs.rfifo, hs.hostSent, hs.reads, ht]
    exact h.stream
  fifo := by rw [hs.rfifo]; exact h.fifo
  copy := by rw [hs.rx, ht]; exact h.copy
  within := by rw [ht]; exact h.within
  room := by rw [hs.isr, hs.rx]; exact h.room
  reads := by rw [hs.reads]; exact h.reads

/-- A step of a thread that is not reading. -/
theorem RxInv.idle {s s' : System} (h : RxInv s) (hs : SameRx s s') (ht : ∀ c, s.thread ≠ .read c)
    (ht' : ∀ c, s'.thread ≠ .read c) : RxInv s' := by
  have hnone : ∀ t : Thread, (∀ c, t ≠ .read c) → t.got = [] ∧ t.copied = 0 := by
    rintro (_ | c | c) hne
    · exact ⟨rfl, rfl⟩
    · exact ⟨rfl, rfl⟩
    · exact absurd rfl (hne c)
  refine ⟨by rw [hs.rx]; exact h.ok, ?_, by rw [hs.rfifo]; exact h.fifo,
    fun c pos n j hc => absurd hc (ht' c), fun c hc => absurd hc (ht' c),
    by rw [hs.isr, hs.rx]; exact h.room, by rw [hs.reads]; exact h.reads⟩
  have hstream := h.stream
  simp only [System.delivered, hnone _ ht] at hstream
  simp only [System.delivered, hs.rx, hs.inFlight, hs.rfifo, hs.hostSent, hs.reads, hnone _ ht']
  exact hstream

/-- `read` moves on outside of `memcpy`. -/
theorem RxInv.move {s s' : System} {c c' : ReadCall} (h : RxInv s) (ht : s.thread = .read c)
    (hpc : c.pc.copied = 0) (ht' : s'.thread = .read c') (hs : SameRx s s')
    (hcall : c'.got = c.got ∧ c'.space = c.space ∧ c'.asked = c.asked)
    (hpc' : ∀ pos n j, c'.pc ≠ .copy pos n j) : RxInv s' := by
  have hzero := ReadPc.copied_eq_zero hpc'
  refine ⟨by rw [hs.rx]; exact h.ok, ?_, by rw [hs.rfifo]; exact h.fifo, ?_, ?_,
    by rw [hs.isr, hs.rx]; exact h.room, by rw [hs.reads]; exact h.reads⟩
  · have hstream := h.stream
    simp only [System.delivered, ht, Thread.copied, hpc, Thread.got] at hstream
    simp only [System.delivered, hs.rx, hs.inFlight, hs.rfifo, hs.hostSent, hs.reads, ht',
      Thread.copied, hzero, Thread.got, hcall.1]
    exact hstream
  · intro d pos n j hd hcp
    rw [ht'] at hd
    cases hd
    exact absurd hcp (hpc' pos n j)
  · intro d hd
    rw [ht'] at hd
    cases hd
    have hwithin := h.within c ht
    unfold ReadCall.Within at hwithin ⊢
    rw [hzero, hcall.1, hcall.2.1, hcall.2.2]
    rwa [hpc] at hwithin

/-- `read` returns what it has, with its length. -/
theorem RxInv.readReturn {s : System} {c : ReadCall} (h : RxInv s) (ht : s.thread = .read c)
    (hpc : c.pc.copied = 0) : RxInv (s.readReturn c) := by
  refine ⟨h.ok, ?_, h.fifo, nofun, nofun, h.room, ?_⟩
  · have hstream := h.stream
    simp only [System.delivered, ht, Thread.copied, hpc, Thread.got] at hstream
    have hflight : (s.readReturn c).inFlight = s.inFlight := rfl
    rw [hflight]
    simpa [System.delivered, System.readReturn, Thread.copied, Thread.got] using hstream
  · intro r hr
    rcases List.mem_append.1 hr with hold | hnew
    · exact h.reads r hold
    · obtain rfl := List.mem_singleton.1 hnew
      have hwithin := h.within c ht
      unfold ReadCall.Within at hwithin
      exact ⟨by simp only; omega, rfl⟩

/-- The run that `read` finds holds received bytes and lies before the end of the array. -/
theorem rxRun_used {rx : RingBuf Byte} (h : rx.Ok bufLen) :
    rxRun rx.inPos rx.outPos ≤ rx.used bufLen ∧ rx.outPos + rxRun rx.inPos rx.outPos ≤ bufLen := by
  have hu := RingBuf.used_cases h
  obtain ⟨hin, hout⟩ := h
  unfold rxRun
  split_ifs <;> omega

/-- One byte of `memcpy`. -/
theorem RxInv.copyByte {s : System} {c : ReadCall} {pos n j : ℕ} (h : RxInv s)
    (ht : s.thread = .read c) (hpc : c.pc = .copy pos n j) (hj : j < n) :
    RxInv (s.inRead
      { c with got := c.got ++ [s.uart.rx.buf (pos + j)], pc := .copy pos n (j + 1) }) := by
  have hc := h.copy c pos n j ht hpc
  refine ⟨h.ok, ?_, h.fifo, ?_, ?_, h.room, h.reads⟩
  · have hget := RingBuf.contents_getElem? (lt_of_lt_of_le hj hc.used)
    rw [hc.cell hj] at hget
    have hstream := h.stream
    simp only [System.delivered, ht, Thread.got, Thread.copied, hpc, ReadPc.copied] at hstream
    show s.reads.flatMap Received.got ++ (c.got ++ [s.uart.rx.buf (pos + j)]) ++
      (s.uart.rx.contents bufLen).drop (j + 1) ++ s.inFlight ++ s.dev.rfifo = s.hostSent
    obtain ⟨hlt, hval⟩ := List.getElem?_eq_some_iff.1 hget
    rw [← hstream, List.drop_eq_getElem_cons hlt, hval]
    simp
  · rintro d pos' n' j' ⟨⟩ ⟨⟩
    exact { hc with le := hj }
  · rintro d ⟨⟩
    have hwithin := h.within c ht
    simp only [ReadCall.Within, hpc, ReadPc.copied] at hwithin
    simp only [ReadCall.Within, ReadPc.copied, List.length_append, List.length_singleton]
    omega

/-- `memcpy` is done: `rx_out` moves and the cells are free again. -/
theorem RxInv.free {s : System} {c : ReadCall} {pos n j : ℕ} (h : RxInv s) (hi : s.isr = none)
    (ht : s.thread = .read c) (hpc : c.pc = .copy pos n j) (hj : ¬ j < n) :
    RxInv ((s.setRx { s.uart.rx with outPos := (pos + n) % bufLen }).inRead
      { c with space := c.space - n, pc := if 0 < c.space - n then .fetch else .after }) := by
  have hc := h.copy c pos n j ht hpc
  obtain rfl : j = n := le_antisymm hc.le (not_lt.1 hj)
  have hfree : ({ s.uart.rx with outPos := (pos + j) % bufLen } : RingBuf Byte) =
      s.uart.rx.free bufLen j := by rw [hc.pos_eq]; rfl
  have hpc' : (if 0 < c.space - j then ReadPc.fetch else .after).copied = 0 := by
    split_ifs <;> rfl
  rw [hfree]
  refine ⟨h.ok.free _, ?_, h.fifo, ?_, ?_, ?_, h.reads⟩
  · have hstream := h.stream
    simp only [System.delivered, ht, Thread.got, Thread.copied, hpc, ReadPc.copied] at hstream
    show s.reads.flatMap Received.got ++ c.got ++ ((s.uart.rx.free bufLen j).contents bufLen).drop
      (if 0 < c.space - j then ReadPc.fetch else .after).copied ++ s.inFlight ++ s.dev.rfifo = s.hostSent
    rw [hpc', List.drop_zero, RingBuf.contents_free h.ok hc.used]
    exact hstream
  · rintro d pos' n' j' ⟨⟩ hcp
    simp only at hcp
    split_ifs at hcp
  · rintro d ⟨⟩
    have hwithin := h.within c ht
    have hspace := hc.space
    simp only [ReadCall.Within, hpc, ReadPc.copied] at hwithin
    simp only [ReadCall.Within, hpc']
    omega
  · show ∀ f, s.isr = some f → _
    rw [hi]; nofun

theorem RxInv.readStep {s : System} {c : ReadCall} (h : RxInv s) (ht : s.thread = .read c)
    (hi : s.isr = none) : RxInv (readStep s c) := by
  unfold JtagUart.readStep
  cases hpc : c.pc with
  | loop =>
    refine h.move ht (by rw [hpc]; rfl) rfl ⟨rfl, rfl, rfl, rfl, rfl, rfl, rfl⟩ ⟨rfl, rfl, rfl⟩
      fun pos n j => ?_
    split_ifs <;> nofun
  | fetch =>
    simp only
    split_ifs with hrun
    · exact h.move ht (by rw [hpc]; rfl) rfl ⟨rfl, rfl, rfl, rfl, rfl, rfl, rfl⟩ ⟨rfl, rfl, rfl⟩ nofun
    · refine ⟨h.ok, ?_, h.fifo, ?_, ?_, h.room, h.reads⟩
      · have hstream := h.stream
        simp only [System.delivered, ht, Thread.got, Thread.copied, hpc, ReadPc.copied] at hstream
        exact hstream
      · rintro d pos n j ⟨⟩ ⟨⟩
        obtain ⟨hused, hfits⟩ := rxRun_used h.ok
        exact ⟨rfl, Nat.zero_le _, le_trans (Nat.min_le_left _ _) hused, by omega,
          Nat.min_le_right _ _⟩
      · rintro d ⟨⟩
        have hwithin := h.within c ht
        simp only [ReadCall.Within, hpc, ReadPc.copied] at hwithin
        exact hwithin
  | copy pos n j =>
    simp only
    by_cases hj : j < n
    · rw [if_pos hj]
      exact h.copyByte ht hpc hj
    · rw [if_neg hj]
      exact h.free hi ht hpc hj
  | after =>
    simp only
    split_ifs
    · exact h.move ht (by rw [hpc]; rfl) rfl ⟨rfl, rfl, rfl, rfl, rfl, rfl, rfl⟩ ⟨rfl, rfl, rfl⟩ nofun
    · exact h.readReturn ht (by rw [hpc]; rfl)
    · exact h.move ht (by rw [hpc]; rfl) rfl ⟨rfl, rfl, rfl, rfl, rfl, rfl, rfl⟩ ⟨rfl, rfl, rfl⟩ nofun
  | spinIn | spinHost =>
    refine h.move ht (by rw [hpc]; rfl) rfl ⟨rfl, rfl, rfl, rfl, rfl, rfl, rfl⟩ ⟨rfl, rfl, rfl⟩
      fun pos n j => ?_
    split_ifs <;> nofun
  | recheck =>
    simp only
    split_ifs
    · exact h.readReturn ht (by rw [hpc]; rfl)
    · exact h.move ht (by rw [hpc]; rfl) rfl ⟨rfl, rfl, rfl, rfl, rfl, rfl, rfl⟩ ⟨rfl, rfl, rfl⟩ nofun
  | disable | kick =>
    exact h.move ht (by rw [hpc]; rfl) rfl ⟨rfl, rfl, rfl, rfl, rfl, rfl, rfl⟩ ⟨rfl, rfl, rfl⟩ nofun
  | enable =>
    have h' : RxInv { s with mie := s.mie || c.context } :=
      h.frame ⟨rfl, rfl, rfl, rfl, rfl, rfl, rfl⟩ rfl
    exact h'.readReturn ht (by rw [hpc]; rfl)

/-! ## The interrupt routine and the host -/

theorem inFlight_of_pc {s : System} {f : Frame} (hf : s.isr = some f) (hpc : f.pc ≠ .rxRead) :
    s.inFlight = [] := by
  simp [System.inFlight, hf, hpc]

/-- The interrupt routine moves on without receiving. -/
theorem RxInv.moveIsr {s s' : System} (h : RxInv s) (hnone : s.inFlight = [])
    (hrx : s'.uart.rx = s.uart.rx) (hfifo : s'.dev.rfifo = s.dev.rfifo)
    (hsent : s'.hostSent = s.hostSent) (hreads : s'.reads = s.reads) (ht : s'.thread = s.thread)
    (hpc : ∀ f, s'.isr = some f → f.pc ≠ .rxRead) : RxInv s' := by
  have hnone' : s'.inFlight = [] := by
    rcases hf : s'.isr with _ | f
    · simp [System.inFlight, hf]
    · exact inFlight_of_pc hf (hpc f hf)
  have hstream := h.stream
  rw [hnone] at hstream
  refine ⟨by rw [hrx]; exact h.ok, ?_, by rw [hfifo]; exact h.fifo, by rw [hrx, ht]; exact h.copy,
    by rw [ht]; exact h.within, fun f hf hp => absurd hp (hpc f hf), by rw [hreads]; exact h.reads⟩
  simp only [System.delivered, hrx, hnone', hfifo, hsent, hreads, ht]
  exact hstream

/-- The oldest byte of the FIFO goes into the data register. -/
theorem RxInv.pop {s : System} {f : Frame} (h : RxInv s) (hnone : s.inFlight = [])
    (hroom : (s.uart.rx.inPos + 1) % bufLen ≠ s.uart.rx.outPos) (hpc : f.pc = .rxRead) :
    RxInv ((s.setDev s.dev.pop).inIsr f) := by
  have hused : s.uart.rx.used bufLen + 1 < bufLen := by
    have hlt := RingBuf.used_lt h.ok
    have hfull := mt (RingBuf.full_iff h.ok).2 hroom
    omega
  refine ⟨h.ok, ?_, ?_, h.copy, h.within, fun _ _ _ => hused, h.reads⟩
  · have hflight : ((s.setDev s.dev.pop).inIsr f).inFlight ++ s.dev.rfifo.tail = s.dev.rfifo := by
      cases hfifo : s.dev.rfifo <;>
        simp [System.inFlight, System.inIsr, System.setDev, Device.pop, hpc, hfifo]
    have hstream := h.stream
    rw [hnone, List.append_nil] at hstream
    show s.delivered ++ (s.uart.rx.contents bufLen).drop s.thread.copied ++
      ((s.setDev s.dev.pop).inIsr f).inFlight ++ s.dev.rfifo.tail = s.hostSent
    rw [List.append_assoc _ (System.inFlight _), hflight]
    exact hstream
  · exact le_trans (by simp [System.inIsr, System.setDev, Device.pop]) h.fifo

/-- What is copied still lies in the ring. -/
theorem RxInv.copied_le {s : System} (h : RxInv s) :
    s.thread.copied ≤ (s.uart.rx.contents bufLen).length := by
  rw [RingBuf.length_contents]
  rcases ht : s.thread with _ | c | c
  · exact Nat.zero_le _
  · exact Nat.zero_le _
  · by_cases hpc : ∀ pos n j, c.pc ≠ .copy pos n j
    · simp only [Thread.copied, ReadPc.copied_eq_zero hpc]
      exact Nat.zero_le _
    · push Not at hpc
      obtain ⟨pos, n, j, hpc⟩ := hpc
      have hc := h.copy c pos n j ht hpc
      simp only [Thread.copied, hpc, ReadPc.copied]
      exact le_trans hc.le hc.used

/-- The byte in the data register goes into the ring, also while `read` copies. -/
theorem RxInv.receive {s : System} {f f' : Frame} (h : RxInv s) (hf : s.isr = some f)
    (hpc : f.pc = .rxRead) (hvalid : s.dev.rvalid = true) (hpc' : f'.pc ≠ .rxRead) :
    RxInv (((s.setDev s.dev.readData.2).setRx ((s.uart.rx.store s.uart.rx.inPos
      ((s.dev.readData.1 &&& dataMsk).setWidth 8)).publish bufLen 1)).inIsr f') := by
  have hused := h.room f hf hpc
  have hdata : (s.dev.readData.1 &&& dataMsk).setWidth 8 = s.dev.rdata := dataWord_data s.dev
  have hflight : s.inFlight = [s.dev.rdata] := by simp [System.inFlight, hf, hpc, hvalid]
  rw [hdata]
  refine ⟨(h.ok.store _ _).publish 1, ?_, h.fifo, ?_, h.within, ?_, h.reads⟩
  · rw [inFlight_of_pc (f := f') rfl hpc', List.append_nil]
    show s.delivered ++
      (((s.uart.rx.store _ s.dev.rdata).publish bufLen 1).contents bufLen).drop s.thread.copied ++
      s.dev.rfifo = s.hostSent
    rw [RingBuf.contents_push h.ok hused, List.drop_append_of_le_length h.copied_le, ← h.stream, hflight]
    simp only [List.append_assoc]
  · intro c pos n j ht hpc
    have hc := h.copy c pos n j ht hpc
    refine { hc with used := le_trans hc.used ?_ }
    show s.uart.rx.used bufLen ≤
      ((s.uart.rx.store s.uart.rx.inPos s.dev.rdata).publish bufLen 1).used bufLen
    rw [RingBuf.used_publish (h.ok.store _ _) hused]
    exact Nat.le_succ _
  · rintro g ⟨⟩ hg
    exact absurd hg hpc'

theorem RxInv.isrStep {s : System} {f : Frame} (h : RxInv s) (hf : s.isr = some f) :
    RxInv (isrStep s f) := by
  unfold JtagUart.isrStep
  cases hpc : f.pc with
  | top =>
    have hnone := inFlight_of_pc hf (by rw [hpc]; nofun)
    exact h.moveIsr hnone rfl rfl rfl rfl rfl (by rintro f' ⟨⟩; nofun)
  | topRead =>
    have hnone := inFlight_of_pc hf (by rw [hpc]; nofun)
    simp only
    split_ifs
    · exact h.moveIsr hnone rfl rfl rfl rfl rfl nofun
    · exact h.moveIsr hnone rfl rfl rfl rfl rfl (by rintro f' ⟨⟩; nofun)
    · exact h.moveIsr hnone rfl rfl rfl rfl rfl (by rintro f' ⟨⟩; nofun)
  | rxLoop =>
    have hnone := inFlight_of_pc hf (by rw [hpc]; nofun)
    simp only
    split_ifs with hfull
    · exact h.moveIsr hnone rfl rfl rfl rfl rfl (by rintro f' ⟨⟩; nofun)
    · exact h.pop hnone hfull rfl
  | rxRead =>
    simp only
    split_ifs with hempty
    · have hvalid : s.dev.rvalid = false := (dataWord_rvalid s.dev).1 hempty
      exact h.moveIsr (by simp [System.inFlight, hf, hvalid]) rfl rfl rfl rfl rfl
        (by rintro f' ⟨⟩; nofun)
    · have hvalid : s.dev.rvalid = true := by
        rw [← Bool.not_eq_false]
        exact fun hv => hempty ((dataWord_rvalid s.dev).2 hv)
      exact h.receive hf hpc hvalid nofun
  | txLoop =>
    have hdev : ∀ b, (s.dev.writeData b).rfifo = s.dev.rfifo := by
      intro b
      unfold Device.writeData
      split_ifs <;> rfl
    have hnone := inFlight_of_pc hf (by rw [hpc]; nofun)
    simp only
    split_ifs
    · exact h.moveIsr hnone rfl (hdev _) rfl rfl rfl (by rintro f' ⟨⟩; nofun)
    · exact h.moveIsr hnone rfl rfl rfl rfl rfl (by rintro f' ⟨⟩; nofun)
  | rxAfter | txCheck | txAfter =>
    have hnone := inFlight_of_pc hf (by rw [hpc]; nofun)
    simp only
    split_ifs
    · exact h.moveIsr hnone rfl rfl rfl rfl rfl (by rintro f' ⟨⟩; nofun)
    · exact h.moveIsr hnone rfl rfl rfl rfl rfl (by rintro f' ⟨⟩; nofun)

theorem RxInv.writeStep {s : System} {c : WriteCall} (h : RxInv s) (ht : s.thread = .write c) :
    RxInv (writeStep s c) := by
  have hne : ∀ d, s.thread ≠ .read d := by
    rw [ht]
    nofun
  unfold JtagUart.writeStep
  have same : ∀ {s' : System}, SameRx s s' → (∀ d, s'.thread ≠ .read d) → RxInv s' :=
    fun hs ht' => h.idle hs hne ht'
  cases c.pc with
  | loop | test =>
    simp only
    split_ifs
    · exact same ⟨rfl, rfl, rfl, rfl, rfl, rfl, rfl⟩ nofun
    · exact same ⟨rfl, rfl, rfl, rfl, rfl, rfl, rfl⟩ nofun
    · exact same ⟨rfl, rfl, rfl, rfl, rfl, rfl, rfl⟩ nofun
  | copy | checkHost =>
    simp only
    split_ifs
    · exact same ⟨rfl, rfl, rfl, rfl, rfl, rfl, rfl⟩ nofun
    · exact same ⟨rfl, rfl, rfl, rfl, rfl, rfl, rfl⟩ nofun
  | disable | kick | enable | spinOut | spinHost =>
    exact same ⟨rfl, rfl, rfl, rfl, rfl, rfl, rfl⟩ nofun

/-- The host sends a byte, if the FIFO has room for it. -/
theorem RxInv.hostSend {s : System} (h : RxInv s) (b : Byte) : RxInv (step s (.hostSend b)) := by
  by_cases hroom : s.dev.rfifo.length < fifoDepth
  · have hstep : step s (.hostSend b) =
        { s with
          dev := { s.dev with rfifo := s.dev.rfifo ++ [b], ac := true }
          hostSent := s.hostSent ++ [b] } := by
      simp only [JtagUart.step, Device.hostSend, if_pos hroom]
    rw [hstep]
    refine ⟨h.ok, ?_, ?_, h.copy, h.within, h.room, h.reads⟩
    · show s.delivered ++ (s.uart.rx.contents bufLen).drop s.thread.copied ++ s.inFlight ++
        (s.dev.rfifo ++ [b]) = s.hostSent ++ [b]
      rw [← h.stream, List.append_assoc _ s.dev.rfifo]
    · simpa using hroom
  · exact h.frame ⟨rfl, if_neg hroom, rfl, rfl, rfl, if_neg hroom, rfl⟩ rfl

theorem RxInv.step {s : System} (h : RxInv s) (a : Action) : RxInv (step s a) := by
  cases a with
  | callWrite buffer nonblock =>
    simp only [JtagUart.step, callWrite]
    split
    · rename_i ht
      exact h.idle ⟨rfl, rfl, rfl, rfl, rfl, rfl, rfl⟩ (by rw [ht]; nofun) nofun
    · exact h
  | callRead space nonblock =>
    simp only [JtagUart.step, callRead]
    split
    · rename_i ht
      have hstream := h.stream
      simp only [System.delivered, ht, Thread.got, Thread.copied] at hstream
      refine ⟨h.ok, hstream, h.fifo, ?_, ?_, h.room, h.reads⟩
      · rintro c pos n j ⟨⟩ ⟨⟩
      · rintro c ⟨⟩
        exact Nat.zero_add _
    · exact h
  | thread =>
    simp only [JtagUart.step, threadStep]
    split
    · rename_i ht
      exact h.writeStep ht
    · rename_i hi ht
      exact h.readStep ht hi
    · exact h
  | irq =>
    simp only [JtagUart.step]
    split_ifs with hirq
    · obtain ⟨-, hnone, -⟩ := hirq
      rw [Option.isNone_iff_eq_none] at hnone
      exact h.moveIsr (by simp [System.inFlight, hnone]) rfl rfl rfl rfl rfl (by rintro f' ⟨⟩; nofun)
    · exact h
  | isr =>
    simp only [JtagUart.step]
    split
    · rename_i hf
      exact h.isrStep hf
    · exact h
  | timeout =>
    simp only [JtagUart.step, timeoutRoutine]
    split_ifs
    · exact h.frame ⟨rfl, rfl, rfl, rfl, rfl, rfl, rfl⟩ rfl
    · exact h.frame ⟨rfl, rfl, rfl, rfl, rfl, rfl, rfl⟩ rfl
    · exact h.frame ⟨rfl, rfl, rfl, rfl, rfl, rfl, rfl⟩ rfl
    · exact h
  | hostSend b => exact h.hostSend b
  | sample | hostTake | hostPause => exact h.frame ⟨rfl, rfl, rfl, rfl, rfl, rfl, rfl⟩ rfl

theorem init_rxInv (ticksPerSecond : ℕ) : RxInv (init ticksPerSecond) where
  ok := ⟨by norm_num [init, bufLen], by norm_num [init, bufLen]⟩
  stream := by
    have hempty : (init ticksPerSecond).uart.rx.contents bufLen = [] := by
      simp [init, RingBuf.contents, RingBuf.used]
    rw [hempty]
    rfl
  fifo := Nat.zero_le _
  copy := nofun
  within := nofun
  room := nofun
  reads := nofun

theorem run_rxInv {s : System} (h : RxInv s) (as : List Action) : RxInv (run s as) := by
  induction as generalizing s with
  | nil => exact h
  | cons a as ih => exact ih (h.step a)

/-- Reception under every schedule: the calls of `read` have returned a prefix of what the host
sent, the rest waits in order, and each call returned the number of bytes it stored, at most what
was asked for. -/
theorem receive_stream (ticksPerSecond : ℕ) (as : List Action) :
    let s := run (init ticksPerSecond) as
    s.reads.flatMap Received.got ++ s.thread.got ++
        (s.uart.rx.contents bufLen).drop s.thread.copied ++ s.inFlight ++ s.dev.rfifo = s.hostSent ∧
      ∀ r ∈ s.reads, r.got.length ≤ r.asked ∧
        r.ret = if r.got ≠ [] then (r.got.length : ℤ) else if r.nonblock then -ewouldblock else -eio := by
  have h := run_rxInv (init_rxInv ticksPerSecond) as
  exact ⟨h.stream, h.reads⟩

end KyberNeorv32.JtagUart
