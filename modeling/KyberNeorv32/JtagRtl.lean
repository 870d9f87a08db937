import KyberNeorv32.JtagUart

/-!
# The JTAG UART clock by clock

`altera_avalon_jtag_uart.sv` with its two `scfifo`s, one clock edge at a time, and the proof that
its bus transfers do what `Device` says: in every run from reset each operation of the master is one
of `Device`'s, placed somewhere among the moves that the host makes in its cycles, and both show the
same: the word read, the bytes handed to the host and the interrupt line afterwards
(`reset_refines`).

| here | there |
| --- | --- |
| `Rtl.edge` | the `always` blocks (`altera_avalon_jtag_uart.sv:160-236`) and the edge of the FIFOs |
| `Rtl.readdata` | `av_readdata` (`:242-244`) |
| `Rtl.avIrq` | `av_irq` (`:159`) |
| `Bus`, `Transfer.bus` | an Avalon master that holds its request until `av_waitrequest` falls |
| `Host` | the Atlantic side: `r_ena`, `t_ena` with `t_dat`, `t_pause` |

`scfifo` is a megafunction of Quartus that the source only instantiates. The lists assume what is
documented for `lpm_showahead = "OFF"` on one clock: a write or read that is requested moves one
word at the clock edge, `q` keeps the word last read, and `full`, `empty` and `usedw` (modulo 64)
count the contents after the edge. With `overflow_checking` and `underflow_checking` off a write to
a full FIFO and a read of an empty one are undefined; they do not happen: `rd_wfifo`, `wr_rfifo` and
`fifo_rd` are guarded in the same cycle, `fifo_wr` in the one before (`Quiet.room`).
-/

namespace KyberNeorv32.JtagUart

/-- The Avalon signals of one cycle, active high. -/
structure Bus where
  address : Bool
  chipselect : Bool
  readReq : Bool
  writeReq : Bool
  writedata : BitVec 32

/-- The JTAG side's signals of one cycle. -/
structure Host where
  rEna : Bool
  tEna : Bool
  tDat : Byte
  tPause : Bool

structure Rtl where
  wfifo : List Byte
  rfifo : List Byte
  fifoRdata : Byte
  fifoAE : Bool
  fifoAF : Bool
  fifoWr : Bool
  rvalid : Bool
  read0 : Bool
  ienAE : Bool
  ienAF : Bool
  ac : Bool
  woverflow : Bool
  waitrequest : Bool
  pauseIrq : Bool

namespace Rtl
variable (r : Rtl)

def fifoEF : Bool := r.rfifo.isEmpty
def fifoFF : Bool := decide (r.wfifo.length = fifoDepth)
def rfifoFull : Bool := decide (r.rfifo.length = fifoDepth)
def wfifoUsed : BitVec 6 := BitVec.ofNat 6 r.wfifo.length
def rfifoUsed : BitVec 6 := BitVec.ofNat 6 r.rfifo.length
def wfifoCount : BitVec 7 := BitVec.ofBool r.fifoFF ++ r.wfifoUsed
def rfifoCount : BitVec 7 := BitVec.ofBool r.rfifoFull ++ r.rfifoUsed
def ipenAE : Bool := r.ienAE && r.fifoAE
def ipenAF : Bool := r.ienAF && (r.pauseIrq || r.fifoAF)
def avIrq : Bool := r.ipenAE || r.ipenAF

def flags : BitVec 8 :=
  BitVec.ofBool r.rvalid ++ BitVec.ofBool r.woverflow ++ BitVec.ofBool (!r.fifoFF) ++
    BitVec.ofBool (!r.fifoEF) ++ 0#1 ++ BitVec.ofBool r.ac ++ BitVec.ofBool r.ipenAE ++
    BitVec.ofBool r.ipenAF

def read0True : BitVec 32 := (0#9 ++ r.rfifoCount : BitVec 16) ++ (r.flags ++ r.fifoRdata)

/-- The parameter `HEX_WRITE_DEPTH_STR` is a 32-bit integer; the assignment cuts the word to 32
bits. -/
def read0False : BitVec 32 :=
  (BitVec.ofNat 32 fifoDepth - r.wfifoCount.setWidth 32).setWidth 16 ++
    (r.flags ++ (0#6 ++ BitVec.ofBool r.ienAE ++ BitVec.ofBool r.ienAF))

def readdata : BitVec 32 := if r.read0 then r.read0True else r.read0False

def edge (i : Bus) (h : Host) : Rtl :=
  let request := i.chipselect && (i.writeReq || i.readReq) && r.waitrequest
  let wr := i.chipselect && i.writeReq && r.waitrequest
  let rd := i.chipselect && i.readReq && r.waitrequest
  let activity := h.tPause || h.tEna
  let fifoRd := rd && !i.address && !r.fifoEF
  let rdWfifo := h.rEna && !r.wfifo.isEmpty
  let wrRfifo := h.tEna && !r.rfifoFull
  { wfifo :=
      (if rdWfifo then r.wfifo.tail else r.wfifo) ++
        (if r.fifoWr then [i.writedata.setWidth 8] else [])
    rfifo := (if fifoRd then r.rfifo.tail else r.rfifo) ++ (if wrRfifo then [h.tDat] else [])
    fifoRdata := if fifoRd then r.rfifo.headD r.fifoRdata else r.fifoRdata
    fifoAE := decide (r.wfifoCount.toNat ≤ irqThreshold)
    fifoAF := decide (fifoDepth - r.rfifoCount.toNat ≤ irqThreshold)
    fifoWr := wr && !i.address && !r.fifoFF
    rvalid := if rd && !i.address then !r.fifoEF else r.rvalid
    read0 := rd && !i.address
    ienAE := if wr && i.address then i.writedata.getLsbD 1 else r.ienAE
    ienAF := if wr && i.address then i.writedata.getLsbD 0 else r.ienAF
    ac :=
      if wr && i.address && i.writedata.getLsbD 10 && !activity then false
      else if activity then true else r.ac
    woverflow := if wr && !i.address then r.fifoFF else r.woverflow
    waitrequest := !request
    pauseIrq :=
      if h.tPause && !r.fifoEF then true else if r.read0 then false else r.pauseIrq }

/-- The registers as the driver sees them. -/
def abs : Device where
  wfifo := r.wfifo
  rfifo := r.rfifo
  rdata := r.fifoRdata
  ienAE := r.ienAE
  ienAF := r.ienAF
  fifoAE := r.fifoAE
  fifoAF := r.fifoAF
  pauseIrq := r.pauseIrq
  rvalid := r.rvalid
  woverflow := r.woverflow
  ac := r.ac

/-- After `rst_n`. -/
def reset : Rtl where
  wfifo := []
  rfifo := []
  fifoRdata := 0
  fifoAE := false
  fifoAF := false
  fifoWr := false
  rvalid := false
  read0 := false
  ienAE := false
  ienAF := false
  ac := false
  woverflow := false
  waitrequest := true
  pauseIrq := false

/-- Between two transfers. -/
structure Quiet : Prop where
  waitrequest : r.waitrequest = true
  read0 : r.read0 = false
  fifoWr : r.fifoWr = false
  wfifo_le : r.wfifo.length ≤ fifoDepth
  rfifo_le : r.rfifo.length ≤ fifoDepth

end Rtl

/-- What the master may ask for; a transfer takes two cycles. -/
inductive Transfer
  | readControl
  | readData
  | writeControl (w : BitVec 32)
  | writeData (w : BitVec 32)

def Transfer.bus : Transfer → Bus
  | .readControl => ⟨true, true, true, false, 0⟩
  | .readData => ⟨false, true, true, false, 0⟩
  | .writeControl w => ⟨true, true, false, true, w⟩
  | .writeData w => ⟨false, true, false, true, w⟩

def Transfer.isRead : Transfer → Bool
  | .readControl | .readData => true
  | .writeControl _ | .writeData _ => false

/-- No request. -/
def Bus.idle : Bus := ⟨false, false, false, false, 0⟩

/-- A cycle without the master or a transfer, with what the host does in each cycle. -/
inductive Op
  | idle (h : Host)
  | transfer (t : Transfer) (h₁ h₂ : Host)

/-- What an operation shows: the word read, if any, the bytes that the host took and the interrupt
line at the end. -/
structure Seen where
  words : List (BitVec 32)
  taken : List Byte
  irq : Bool

/-- What the edge moves to the host (`rd_wfifo`). -/
def Rtl.taken (r : Rtl) (h : Host) : List Byte :=
  if h.rEna && !r.wfifo.isEmpty then r.wfifo.take 1 else []

/-- A read returns the word of its second cycle. -/
def Rtl.exec (r : Rtl) : Op → Seen × Rtl
  | .idle h =>
    let r₁ := r.edge Bus.idle h
    (⟨[], r.taken h, r₁.avIrq⟩, r₁)
  | .transfer t h₁ h₂ =>
    let r₁ := r.edge t.bus h₁
    let r₂ := r₁.edge t.bus h₂
    (⟨if t.isRead then [r₁.readdata] else [], r.taken h₁ ++ r₁.taken h₂, r₂.avIrq⟩, r₂)

def Rtl.run : Rtl → List Op → List Seen × Rtl
  | r, [] => ([], r)
  | r, op :: ops =>
    let a := r.exec op
    let b := a.2.run ops
    (a.1 :: b.1, b.2)

/-! ## The same on `Device` -/

/-- What happens to the device without the bus. -/
inductive Env
  | sample
  | take
  | send (b : Byte)
  | pause

def Device.env (d : Device) : Env → Device
  | .sample => d.sample
  | .take => d.hostTake
  | .send b => d.hostSend b
  | .pause => d.hostPause

def Device.envs (d : Device) (es : List Env) : Device := es.foldl Device.env d

/-- Everything that happens to the device, one thing at a time. -/
inductive DevAct
  | host (e : Env)
  | control
  | pop
  | data
  | writeControl (w : BitVec 32)
  | writeData (b : Byte)

namespace Device
variable (d : Device)

def act : DevAct → Device
  | .host e => d.env e
  | .control => d
  | .pop => d.pop
  | .data => d.readData.2
  | .writeControl w => d.writeControl w
  | .writeData b => d.writeData b

def acts (as : List DevAct) : Device := as.foldl Device.act d

/-- The word that the master reads. -/
def word : DevAct → List (BitVec 32)
  | .control => [d.control]
  | .data => [d.readData.1]
  | _ => []

/-- The byte that the host takes. -/
def gives : DevAct → List Byte
  | .host .take => d.wfifo.take 1
  | _ => []

/-- What `f` shows on the way. -/
def shown {α : Type} (f : Device → DevAct → List α) : Device → List DevAct → List α
  | _, [] => []
  | d, a :: as => f d a ++ shown f (d.act a) as

end Device

namespace Host
variable (h : Host)

def pauses : List Env := if h.tPause then [.pause] else []
def takes : List Env := if h.rEna then [.take] else []
def sends : List Env := if h.tEna then [.send h.tDat] else []

/-- All that the host and the clock do in a cycle. -/
def acts : List Env := .sample :: (h.pauses ++ h.takes ++ h.sends)

end Host

/-- The orders in which an operation can happen: the host's moves are those of its cycles, each once
and in their order, and the transfer falls between two of them. -/
inductive Op.Order : Op → List DevAct → Prop
  | idle (h : Host) : Order (.idle h) (h.acts.map .host)
  | readControl (h₁ h₂ : Host) :
      Order (.transfer .readControl h₁ h₂) (h₁.acts.map .host ++ .control :: h₂.acts.map .host)
  | readData {h₁ : Host} (h₂ : Host) {es₀ es₁ : List Env} (hes : h₁.acts = es₀ ++ es₁) :
      Order (.transfer .readData h₁ h₂)
        (es₀.map .host ++ .pop :: (es₁.map .host ++ .data :: h₂.acts.map .host))
  | writeControl (w : BitVec 32) (h₁ h₂ : Host) :
      Order (.transfer (.writeControl w) h₁ h₂)
        (.writeControl w :: (h₁.acts ++ h₂.acts).map .host)
  | writeData (w : BitVec 32) {h₁ h₂ : Host} {es₁ es₂ : List Env}
      (hes : h₁.acts ++ h₂.acts = es₁ ++ es₂) :
      Order (.transfer (.writeData w) h₁ h₂)
        (es₁.map .host ++ .writeData (w.setWidth 8) :: es₂.map .host)

/-- One operation on `Device`. -/
def Device.Exec (d : Device) (op : Op) (o : Seen) (d' : Device) : Prop :=
  ∃ as, op.Order as ∧ d' = d.acts as ∧
    o = ⟨Device.shown Device.word d as, Device.shown Device.gives d as, d'.irq⟩

inductive Device.Run : Device → List Op → List Seen → Device → Prop
  | nil (d : Device) : Run d [] [] d
  | cons {d d' d'' : Device} {op : Op} {ops : List Op} {o : Seen} {os : List Seen}
      (hop : d.Exec op o d') (hops : Run d' ops os d'') : Run d (op :: ops) (o :: os) d''

/-! ## The words -/

/-- A full FIFO counts 64 in seven bits. -/
theorem count_toNat {n : ℕ} (h : n ≤ fifoDepth) :
    (BitVec.ofBool (decide (n = fifoDepth)) ++ BitVec.ofNat 6 n : BitVec 7).toNat = n := by
  rw [BitVec.toNat_append, BitVec.toNat_ofNat, BitVec.toNat_ofBool]
  unfold fifoDepth at h ⊢
  rcases Nat.lt_or_eq_of_le h with hlt | rfl
  · rw [Nat.mod_eq_of_lt hlt]
    simp [Nat.ne_of_lt hlt]
  · rfl

namespace Rtl
variable {r : Rtl}

theorem flags_eq (h : r.wfifo.length ≤ fifoDepth) : r.flags = r.abs.flags := by
  have hff : (!r.fifoFF) = decide (r.wfifo.length < fifoDepth) := by
    rw [fifoFF, ← decide_not, decide_eq_decide, Nat.lt_iff_le_and_ne]
    exact ⟨fun hne => ⟨h, hne⟩, And.right⟩
  simp only [Rtl.flags, hff]
  rfl

end Rtl

/-! ## A cycle of the host -/

namespace Device
variable (d : Device) (h : Host)

theorem envs_append (es es' : List Env) : d.envs (es ++ es') = (d.envs es).envs es' :=
  List.foldl_append ..

theorem envs_pauses : d.envs h.pauses =
    { d with
      pauseIrq := d.pauseIrq || (h.tPause && !d.rfifo.isEmpty)
      ac := d.ac || h.tPause } := by
  cases hp : h.tPause <;> simp [Host.pauses, envs, env, hostPause, hp]

theorem envs_takes : d.envs h.takes =
    { d with wfifo := if h.rEna then d.wfifo.tail else d.wfifo } := by
  cases hr : h.rEna <;> simp [Host.takes, envs, env, hostTake, hr]

theorem envs_sends : d.envs h.sends =
    { d with
      rfifo := if h.tEna ∧ d.rfifo.length < fifoDepth then d.rfifo ++ [h.tDat] else d.rfifo
      ac := d.ac || h.tEna } := by
  cases ht : h.tEna <;> simp [Host.sends, envs, env, hostSend, ht]

/-- The host neither looks at the overflow flag nor changes it. -/
theorem envs_woverflow (b : Bool) (es : List Env) :
    Device.envs { d with woverflow := b } es = { d.envs es with woverflow := b } := by
  induction es generalizing d with
  | nil => rfl
  | cons e es ih =>
    have hstep := ih (d.env e)
    cases e <;> exact hstep

theorem envs_wfifo_le (es : List Env) : (d.envs es).wfifo.length ≤ d.wfifo.length := by
  induction es generalizing d with
  | nil => exact le_rfl
  | cons e es ih =>
    refine le_trans (ih _) ?_
    cases e <;> simp [env, sample, hostTake, hostSend, hostPause]

theorem envs_sample (es : List Env) : d.envs (.sample :: es) = d.sample.envs es := rfl

theorem acts_append (as bs : List DevAct) : d.acts (as ++ bs) = (d.acts as).acts bs :=
  List.foldl_append ..

theorem acts_host (es : List Env) : d.acts (es.map .host) = d.envs es := by
  rw [acts, List.foldl_map]
  rfl

theorem shown_append {α : Type} (f : Device → DevAct → List α) (as bs : List DevAct) :
    shown f d (as ++ bs) = shown f d as ++ shown f (d.acts as) bs := by
  induction as generalizing d with
  | nil => rfl
  | cons a as ih =>
    simp only [List.cons_append, shown, ih, List.append_assoc]
    rfl

/-- The host reads no words. -/
theorem word_host (es : List Env) : shown word d (es.map .host) = [] := by
  induction es generalizing d with
  | nil => rfl
  | cons e es ih => exact ih (d.env e)

/-- What the host takes depends on the write FIFO only. -/
theorem gives_congr {d d' : Device} (hw : d.wfifo = d'.wfifo) (es : List Env) :
    shown gives d (es.map .host) = shown gives d' (es.map .host) := by
  induction es generalizing d d' with
  | nil => rfl
  | cons e es ih =>
    have hnext : (d.env e).wfifo = (d'.env e).wfifo := by
      cases e with
      | take => exact congrArg List.tail hw
      | sample => exact hw
      | send b => exact hw
      | pause => exact hw
    have hnow : d.gives (.host e) = d'.gives (.host e) := by
      cases e with
      | take => exact congrArg (List.take 1) hw
      | sample => rfl
      | send b => rfl
      | pause => rfl
    simp only [List.map_cons, shown, hnow]
    exact congrArg _ (ih hnext)

theorem gives_pauses : shown gives d (h.pauses.map .host) = [] := by
  cases hp : h.tPause <;> simp [Host.pauses, shown, gives, hp]

theorem gives_takes : shown gives d (h.takes.map .host) = if h.rEna then d.wfifo.take 1 else [] := by
  cases hr : h.rEna <;> simp [Host.takes, shown, gives, hr]

theorem gives_sends : shown gives d (h.sends.map .host) = [] := by
  cases ht : h.tEna <;> simp [Host.sends, shown, gives, ht]

/-- Up to its take, a cycle gives what the FIFO holds at its start. -/
theorem gives_takes_first :
    shown gives d ((.sample :: (h.pauses ++ h.takes)).map .host) =
      if h.rEna then d.wfifo.take 1 else [] := by
  have hw : (d.sample.envs h.pauses).wfifo = d.wfifo := by rw [envs_pauses]; rfl
  rw [List.map_cons, List.map_append]
  change shown gives d.sample _ = _
  rw [shown_append, gives_pauses, acts_host, gives_takes, hw]
  rfl

theorem gives_acts : shown gives d (h.acts.map .host) = if h.rEna then d.wfifo.take 1 else [] := by
  have hsplit : h.acts = (.sample :: (h.pauses ++ h.takes)) ++ h.sends := by
    rw [Host.acts, List.cons_append]
  rw [hsplit, List.map_append, shown_append, gives_takes_first, gives_sends, List.append_nil]

end Device

namespace Rtl
variable {r : Rtl}

theorem fifoAE_eq (h : r.wfifo.length ≤ fifoDepth) :
    decide (r.wfifoCount.toNat ≤ irqThreshold) = decide (r.wfifo.length ≤ irqThreshold) := by
  rw [wfifoCount, fifoFF, wfifoUsed, count_toNat h]

theorem fifoAF_eq (h : r.rfifo.length ≤ fifoDepth) :
    decide (fifoDepth - r.rfifoCount.toNat ≤ irqThreshold) =
      decide (fifoDepth - r.rfifo.length ≤ irqThreshold) := by
  rw [rfifoCount, rfifoFull, rfifoUsed, count_toNat h]

theorem take_wfifo (l : List Byte) (b : Bool) :
    (if (b && !l.isEmpty) = true then l.tail else l) = if b = true then l.tail else l := by
  cases l <;> simp

theorem send_rfifo (h : r.rfifo.length ≤ fifoDepth) (b : Bool) (l : List Byte) (v : Byte) :
    (l ++ if (b && !r.rfifoFull) = true then [v] else []) =
      if b = true ∧ r.rfifo.length < fifoDepth then l ++ [v] else l := by
  have hfull : (r.rfifoFull = false) ↔ r.rfifo.length < fifoDepth := by
    rw [rfifoFull, decide_eq_false_iff_not, Nat.lt_iff_le_and_ne]
    exact ⟨fun hne => ⟨h, hne⟩, And.right⟩
  simp only [← hfull]
  cases b <;> cases r.rfifoFull <;> simp

/-- A cycle in which no request is accepted: the bus is idle, or the second cycle of a transfer. -/
theorem edge_passive {i : Bus} (hreq : i.chipselect = false ∨ r.waitrequest = false)
    (hw : r.wfifo.length ≤ fifoDepth) (hr : r.rfifo.length ≤ fifoDepth) (h : Host) :
    r.edge i h =
      { r with
        wfifo := (if h.rEna then r.wfifo.tail else r.wfifo) ++
          (if r.fifoWr then [i.writedata.setWidth 8] else [])
        rfifo := if h.tEna ∧ r.rfifo.length < fifoDepth then r.rfifo ++ [h.tDat] else r.rfifo
        fifoAE := decide (r.wfifo.length ≤ irqThreshold)
        fifoAF := decide (fifoDepth - r.rfifo.length ≤ irqThreshold)
        fifoWr := false
        read0 := false
        ac := r.ac || h.tPause || h.tEna
        waitrequest := true
        pauseIrq := (r.pauseIrq && !r.read0) || (h.tPause && !r.rfifo.isEmpty) } := by
  have hac : (if (h.tPause || h.tEna) = true then true else r.ac) = (r.ac || h.tPause || h.tEna) := by
    cases h.tPause <;> cases h.tEna <;> simp
  have hpause : (if (h.tPause && !r.fifoEF) = true then true else if r.read0 = true then false
      else r.pauseIrq) = (r.pauseIrq && !r.read0 || (h.tPause && !r.rfifo.isEmpty)) := by
    rw [fifoEF]
    cases h.tPause <;> cases r.rfifo.isEmpty <;> cases r.read0 <;> simp
  simp only [edge, take_wfifo, send_rfifo hr, fifoAE_eq hw, fifoAF_eq hr, hac, hpause]
  rcases hreq with hc | hc <;> simp [hc]

theorem Quiet.of_passive {i : Bus} (hreq : i.chipselect = false ∨ r.waitrequest = false)
    (hw : r.wfifo.length + (if r.fifoWr then 1 else 0) ≤ fifoDepth) (hr : r.rfifo.length ≤ fifoDepth)
    (h : Host) : (r.edge i h).Quiet := by
  rw [edge_passive hreq (by omega) hr]
  refine ⟨rfl, rfl, rfl, ?_, ?_⟩
  · refine le_trans ?_ hw
    cases h.rEna <;> cases r.fifoWr <;> simp
  · dsimp only
    split_ifs with hsend
    · simpa using hsend.2
    · exact hr

/-- Such a cycle does what the host does, and ends a read of the data register. -/
theorem abs_passive {i : Bus} (hreq : i.chipselect = false ∨ r.waitrequest = false)
    (hw : r.wfifo.length ≤ fifoDepth) (hr : r.rfifo.length ≤ fifoDepth) (hwr : r.fifoWr = false)
    (h : Host) :
    (r.edge i h).abs = Device.envs { r.abs with pauseIrq := r.pauseIrq && !r.read0 } h.acts := by
  rw [edge_passive hreq hw hr, Host.acts, Device.envs_sample, Device.envs_append, Device.envs_append,
    Device.envs_pauses, Device.envs_takes, Device.envs_sends]
  simp [abs, Device.sample, hwr]
  rfl

/-- In the second cycle of a write to the data register the byte goes into the FIFO. -/
theorem abs_push {i : Bus} (hreq : i.chipselect = false ∨ r.waitrequest = false)
    (hw : r.wfifo.length < fifoDepth) (hr : r.rfifo.length ≤ fifoDepth) (hwr : r.fifoWr = true)
    (h0 : r.read0 = false) (hover : r.woverflow = false) (h : Host) :
    (r.edge i h).abs = (((r.abs.envs (.sample :: (h.pauses ++ h.takes))).writeData
      (i.writedata.setWidth 8)).envs h.sends) := by
  have hlt : (if h.rEna = true then r.wfifo.tail else r.wfifo).length < fifoDepth := by
    split_ifs
    · exact lt_of_le_of_lt (by simp) hw
    · exact hw
  rw [edge_passive hreq hw.le hr, Device.envs_sample, Device.envs_append, Device.envs_pauses,
    Device.envs_takes, Device.envs_sends]
  simp [abs, Device.sample, Device.writeData, hlt, hwr, h0, hover]

/-! ## The first cycle of each transfer -/

theorem edge_readControl (hq : r.Quiet) (h : Host) :
    r.edge Transfer.readControl.bus h = { r.edge Bus.idle h with waitrequest := false } := by
  simp [edge, Transfer.bus, Bus.idle, hq.waitrequest]

theorem edge_writeControl (hq : r.Quiet) (w : BitVec 32) (h : Host) :
    r.edge (Transfer.writeControl w).bus h =
      { Rtl.edge
          { r with ienAF := w.getLsbD 0, ienAE := w.getLsbD 1, ac := r.ac && !w.getLsbD 10 }
          Bus.idle h with
        waitrequest := false } := by
  have hac : (if (w.getLsbD 10 && !(h.tPause || h.tEna)) = true then false
      else if (h.tPause || h.tEna) = true then true else r.ac) =
      if (h.tPause || h.tEna) = true then true else r.ac && !w.getLsbD 10 := by
    cases w.getLsbD 10 <;> cases h.tPause || h.tEna <;> simp
  simp only [edge, Transfer.bus, Bus.idle, hq.waitrequest, hq.fifoWr, Bool.and_true, Bool.true_and, hac]
  simp
  exact ⟨rfl, Iff.rfl, Iff.rfl, rfl⟩

theorem edge_readData (hq : r.Quiet) (h : Host) :
    r.edge Transfer.readData.bus h =
      { r.edge Bus.idle h with
        rfifo := r.rfifo.tail ++ (if h.tEna && !r.rfifoFull then [h.tDat] else [])
        fifoRdata := r.rfifo.headD r.fifoRdata
        rvalid := !r.rfifo.isEmpty
        read0 := true
        waitrequest := false } := by
  cases hr : r.rfifo <;> simp [edge, Transfer.bus, Bus.idle, hq.waitrequest, fifoEF, hr]

theorem edge_writeData (hq : r.Quiet) (w : BitVec 32) (h : Host) :
    r.edge (Transfer.writeData w).bus h =
      { r.edge Bus.idle h with
        fifoWr := !r.fifoFF
        woverflow := r.fifoFF
        waitrequest := false } := by
  simp [edge, Transfer.bus, Bus.idle, hq.waitrequest, hq.fifoWr]

theorem Quiet.edge_idle (hq : r.Quiet) (h : Host) :
    (r.edge Bus.idle h).Quiet ∧ (r.edge Bus.idle h).abs = r.abs.envs h.acts := by
  refine ⟨Quiet.of_passive (Or.inl rfl) (by simpa [hq.fifoWr] using hq.wfifo_le) hq.rfifo_le h, ?_⟩
  rw [abs_passive (Or.inl rfl) hq.wfifo_le hq.rfifo_le hq.fifoWr h, hq.read0, Bool.not_false,
    Bool.and_true]
  rfl

/-- The second cycle of a transfer other than a write to the data register. -/
theorem Quiet.edge_second {i : Bus} (hq : r.Quiet) (h : Host) :
    (Rtl.edge { r with waitrequest := false } i h).Quiet ∧
      (Rtl.edge { r with waitrequest := false } i h).abs = r.abs.envs h.acts := by
  refine ⟨Quiet.of_passive (r := { r with waitrequest := false }) (Or.inr rfl)
    (by simpa [hq.fifoWr] using hq.wfifo_le) hq.rfifo_le h, ?_⟩
  rw [abs_passive (r := { r with waitrequest := false }) (Or.inr rfl) hq.wfifo_le hq.rfifo_le
    hq.fifoWr h]
  simp only [hq.read0, Bool.not_false, Bool.and_true]
  rfl

theorem Quiet.control (hq : r.Quiet) : r.readdata = r.abs.control := by
  have hdiff : (BitVec.ofNat 32 fifoDepth - r.wfifoCount.setWidth 32).setWidth 16 =
      BitVec.ofNat 16 (fifoDepth - r.wfifo.length) := by
    have hcount : r.wfifoCount.toNat = r.wfifo.length := count_toNat hq.wfifo_le
    have hle := hq.wfifo_le
    apply BitVec.eq_of_toNat_eq
    simp only [BitVec.toNat_setWidth, BitVec.toNat_sub, BitVec.toNat_ofNat, hcount]
    unfold fifoDepth at hle ⊢
    omega
  rw [readdata, hq.read0, read0False, hdiff, flags_eq hq.wfifo_le]
  rfl

/-- The word of a read of the data register. -/
theorem readdata_dataWord (hw : r.wfifo.length ≤ fifoDepth) (hr : r.rfifo.length ≤ fifoDepth)
    (h0 : r.read0 = true) : r.readdata = r.abs.dataWord := by
  have hcount : (0#9 ++ r.rfifoCount : BitVec 16) = BitVec.ofNat 16 r.rfifo.length := by
    apply BitVec.eq_of_toNat_eq
    have hlt : r.rfifo.length < 2 ^ 16 := lt_of_le_of_lt hr (by norm_num [fifoDepth])
    rw [BitVec.toNat_append, rfifoCount, rfifoFull, rfifoUsed, count_toNat hr, BitVec.toNat_ofNat _ 16,
      Nat.mod_eq_of_lt hlt]
    simp
  rw [readdata, h0, if_pos rfl, read0True, hcount, flags_eq hw]
  rfl

/-! ## Every operation -/

/-- What the host takes at an edge, as `Device` gives it. -/
theorem taken_eq (h : Host) {d : Device} (hw : d.wfifo = r.wfifo) :
    r.taken h = Device.shown Device.gives d (h.acts.map .host) := by
  rw [Device.gives_acts, hw, taken]
  cases hr : r.wfifo <;> cases h.rEna <;> simp

/-- An operation that shows the words and bytes of `as` and ends where `as` does: the interrupt line
is that of the common state. -/
theorem exec_of_order {op : Op} {as : List DevAct} (hord : op.Order as)
    (hwords : (r.exec op).1.words = Device.shown Device.word r.abs as)
    (htaken : (r.exec op).1.taken = Device.shown Device.gives r.abs as)
    (habs : (r.exec op).2.abs = r.abs.acts as) :
    r.abs.Exec op (r.exec op).1 (r.exec op).2.abs := by
  have hirq : (r.exec op).1.irq = (r.exec op).2.abs.irq := by
    cases op with
    | idle h => rfl
    | transfer t h₁ h₂ => rfl
  refine ⟨as, hord, habs, ?_⟩
  rw [← hwords, ← htaken, ← hirq]

theorem Quiet.idle (hq : r.Quiet) (h : Host) :
    (r.exec (.idle h)).2.Quiet ∧ r.abs.Exec (.idle h) (r.exec (.idle h)).1 (r.exec (.idle h)).2.abs := by
  obtain ⟨hq', habs⟩ := hq.edge_idle h
  refine ⟨hq', exec_of_order (.idle h) ?_ (taken_eq h rfl) ?_⟩
  · rw [Device.word_host]
    rfl
  · rw [Device.acts_host]
    exact habs

theorem Quiet.readControl (hq : r.Quiet) (h₁ h₂ : Host) :
    (r.exec (.transfer .readControl h₁ h₂)).2.Quiet ∧
      r.abs.Exec (.transfer .readControl h₁ h₂) (r.exec (.transfer .readControl h₁ h₂)).1
        (r.exec (.transfer .readControl h₁ h₂)).2.abs := by
  obtain ⟨hq', habs⟩ := hq.edge_idle h₁
  obtain ⟨hq'', habs'⟩ := hq'.edge_second (i := Transfer.readControl.bus) h₂
  have hword : (r.edge Transfer.readControl.bus h₁).readdata = (r.abs.envs h₁.acts).control := by
    rw [← habs, ← hq'.control, edge_readControl hq]
    rfl
  refine ⟨?_, exec_of_order (.readControl h₁ h₂) ?_ ?_ ?_⟩
  · simpa only [exec, edge_readControl hq] using hq''
  · simp only [Device.shown_append, Device.word_host, Device.shown, Device.acts_host, Device.word,
      List.append_nil, List.nil_append, ← hword]
    rfl
  · simp only [Device.shown_append, Device.shown, Device.acts_host, Device.gives, Device.act,
      List.nil_append]
    rw [← taken_eq h₁ rfl, ← taken_eq (r := r.edge Transfer.readControl.bus h₁) h₂]
    · rfl
    · rw [← habs, edge_readControl hq]
      rfl
  · rw [Device.acts_append, Device.acts_host, ← habs]
    simp only [exec, edge_readControl hq]
    rw [habs', ← Device.acts_host]
    rfl

theorem Quiet.writeControl (hq : r.Quiet) (w : BitVec 32) (h₁ h₂ : Host) :
    (r.exec (.transfer (.writeControl w) h₁ h₂)).2.Quiet ∧
      r.abs.Exec (.transfer (.writeControl w) h₁ h₂) (r.exec (.transfer (.writeControl w) h₁ h₂)).1
        (r.exec (.transfer (.writeControl w) h₁ h₂)).2.abs := by
  have hq₀ : Quiet { r with ienAF := w.getLsbD 0, ienAE := w.getLsbD 1, ac := r.ac && !w.getLsbD 10 } :=
    { hq with }
  obtain ⟨hq', habs⟩ := hq₀.edge_idle h₁
  obtain ⟨hq'', habs'⟩ := hq'.edge_second (i := (Transfer.writeControl w).bus) h₂
  have hfirst : (r.edge (Transfer.writeControl w).bus h₁).abs = (r.abs.writeControl w).envs h₁.acts := by
    rw [edge_writeControl hq]
    exact habs
  have hsecond : (r.exec (.transfer (.writeControl w) h₁ h₂)).2.abs =
      ((r.abs.writeControl w).envs h₁.acts).envs h₂.acts := by
    rw [← hfirst]
    simp only [exec, edge_writeControl hq]
    exact habs'
  refine ⟨?_, exec_of_order (.writeControl w h₁ h₂) ?_ ?_ ?_⟩
  · simpa only [exec, edge_writeControl hq] using hq''
  · simp only [Device.shown, Device.word_host]
    rfl
  · simp only [Device.shown, Device.act, List.map_append, Device.shown_append, Device.acts_host]
    rw [← taken_eq (r := r) h₁ rfl, ← taken_eq (r := r.edge (Transfer.writeControl w).bus h₁) h₂]
    · rfl
    · rw [← hfirst]
      rfl
  · rw [hsecond, ← Device.envs_append, ← Device.acts_host]
    rfl

/-- A host byte that meets a full FIFO is refused before the FIFO is popped, any other comes
after. -/
theorem Quiet.abs_pop (hq : r.Quiet) (h : Host) :
    ∃ es₀ es₁, h.acts = es₀ ++ es₁ ∧
      (r.edge Transfer.readData.bus h).abs = (r.abs.envs es₀).pop.envs es₁ := by
  have hidle := edge_passive (i := Bus.idle) (Or.inl rfl) hq.wfifo_le hq.rfifo_le h
  by_cases hfull : r.rfifo.length = fifoDepth
  · refine ⟨h.acts, [], (List.append_nil _).symm, ?_⟩
    rw [edge_readData hq, hidle, Host.acts, Device.envs_sample, Device.envs_append, Device.envs_append,
      Device.envs_pauses, Device.envs_takes, Device.envs_sends]
    simp [abs, Device.envs, Device.sample, Device.pop, hq.fifoWr, hq.read0, rfifoFull, hfull]
    rfl
  · have hlt : r.rfifo.length < fifoDepth := lt_of_le_of_ne hq.rfifo_le hfull
    have htail : r.rfifo.length - 1 < fifoDepth := lt_of_le_of_lt (Nat.sub_le _ _) hlt
    refine ⟨.sample :: h.pauses, h.takes ++ h.sends, by simp [Host.acts], ?_⟩
    rw [edge_readData hq, hidle, Device.envs_sample, Device.envs_append, Device.envs_pauses,
      Device.envs_takes, Device.envs_sends]
    cases h.tEna <;>
      simp [abs, Device.sample, Device.pop, hq.fifoWr, hq.read0, rfifoFull, hfull, htail] <;> rfl

theorem Quiet.readData (hq : r.Quiet) (h₁ h₂ : Host) :
    (r.exec (.transfer .readData h₁ h₂)).2.Quiet ∧
      r.abs.Exec (.transfer .readData h₁ h₂) (r.exec (.transfer .readData h₁ h₂)).1
        (r.exec (.transfer .readData h₁ h₂)).2.abs := by
  have hidle := edge_passive (i := Bus.idle) (Or.inl rfl) hq.wfifo_le hq.rfifo_le h₁
  obtain ⟨es₀, es₁, hes, habs⟩ := hq.abs_pop h₁
  have hwait : (r.edge Transfer.readData.bus h₁).waitrequest = false := by rw [edge_readData hq]
  have hread : (r.edge Transfer.readData.bus h₁).read0 = true := by rw [edge_readData hq]
  have hwr : (r.edge Transfer.readData.bus h₁).fifoWr = false := by rw [edge_readData hq, hidle]
  have hw : (r.edge Transfer.readData.bus h₁).wfifo.length ≤ fifoDepth := by
    rw [edge_readData hq]
    exact (hq.edge_idle h₁).1.wfifo_le
  have hr : (r.edge Transfer.readData.bus h₁).rfifo.length ≤ fifoDepth := by
    have hle := hq.rfifo_le
    rw [edge_readData hq, send_rfifo hle]
    split_ifs with hsend
    · have hlt := hsend.2
      simp
      omega
    · simp
      omega
  have hword := readdata_dataWord hw hr hread
  have hsecond : (r.exec (.transfer .readData h₁ h₂)).2.abs =
      ((r.abs.envs es₀).pop.envs es₁).readData.2.envs h₂.acts := by
    rw [← habs]
    show (Rtl.edge (r.edge Transfer.readData.bus h₁) Transfer.readData.bus h₂).abs = _
    rw [abs_passive (Or.inr hwait) hw hr hwr, hread, Bool.not_true, Bool.and_false]
    rfl
  refine ⟨Quiet.of_passive (Or.inr hwait) (by simpa [hwr] using hw) hr h₂,
    exec_of_order (.readData h₂ hes) ?_ ?_ ?_⟩
  · simp only [Device.shown_append, Device.word_host, Device.shown, Device.acts_host, Device.act,
      Device.word, List.append_nil, List.nil_append, ← habs]
    exact congrArg (fun w => [w]) hword
  · -- neither the pop nor the end of the read touches what the host takes
    have hfirst : Device.shown Device.gives r.abs (es₀.map .host) ++
        Device.shown Device.gives (r.abs.envs es₀).pop (es₁.map .host) = r.taken h₁ := by
      rw [taken_eq h₁ (d := r.abs) rfl, hes, List.map_append, Device.shown_append, Device.acts_host]
      exact congrArg _ (Device.gives_congr
        (show (r.abs.envs es₀).pop.wfifo = (r.abs.envs es₀).wfifo from rfl) es₁)
    have htaken : Device.shown Device.gives ((r.abs.envs es₀).pop.envs es₁).readData.2
        (h₂.acts.map .host) = (r.edge Transfer.readData.bus h₁).taken h₂ := by
      rw [← habs]
      exact (taken_eq h₂ rfl).symm
    simp only [Device.shown_append, Device.shown, Device.acts_host, Device.act, Device.gives,
      List.nil_append]
    rw [← List.append_assoc, hfirst, htaken]
    rfl
  · rw [hsecond, Device.acts_append, Device.acts_host]
    show _ = (r.abs.envs es₀).pop.acts (es₁.map .host ++ .data :: h₂.acts.map .host)
    rw [Device.acts_append, Device.acts_host]
    show _ = ((r.abs.envs es₀).pop.envs es₁).readData.2.acts (h₂.acts.map .host)
    rw [Device.acts_host]

/-- A byte is only pushed into a FIFO that has room. -/
theorem Quiet.room (hq : r.Quiet) (w : BitVec 32) (h : Host)
    (hwr : (r.edge (Transfer.writeData w).bus h).fifoWr = true) :
    (r.edge (Transfer.writeData w).bus h).wfifo.length < fifoDepth := by
  obtain ⟨-, habs⟩ := hq.edge_idle h
  rw [edge_writeData hq] at hwr ⊢
  have hnot : r.wfifo.length ≠ fifoDepth := by simpa [fifoFF] using hwr
  refine lt_of_le_of_lt ?_ (lt_of_le_of_ne hq.wfifo_le hnot)
  have hle := Device.envs_wfifo_le r.abs h.acts
  rwa [← habs] at hle

/-- A byte written while the FIFO is full is lost in the first cycle, any other gets in in the
second. -/
theorem Quiet.writeData (hq : r.Quiet) (w : BitVec 32) (h₁ h₂ : Host) :
    (r.exec (.transfer (.writeData w) h₁ h₂)).2.Quiet ∧
      r.abs.Exec (.transfer (.writeData w) h₁ h₂) (r.exec (.transfer (.writeData w) h₁ h₂)).1
        (r.exec (.transfer (.writeData w) h₁ h₂)).2.abs := by
  obtain ⟨hq', habs⟩ := hq.edge_idle h₁
  have hroom := hq.room w h₁
  have hw₁ : (r.edge (Transfer.writeData w).bus h₁).wfifo = (r.abs.envs h₁.acts).wfifo := by
    rw [← habs, edge_writeData hq]
    rfl
  -- what the host takes in the two cycles
  have htaken : r.taken h₁ ++ (r.edge (Transfer.writeData w).bus h₁).taken h₂ =
      Device.shown Device.gives r.abs ((h₁.acts ++ h₂.acts).map .host) := by
    rw [List.map_append, Device.shown_append, Device.acts_host, taken_eq h₁ (d := r.abs) rfl,
      taken_eq h₂ hw₁.symm]
  by_cases hfull : r.wfifo.length = fifoDepth
  · have hff : r.fifoFF = true := decide_eq_true hfull
    have hlost : r.abs.writeData (w.setWidth 8) = { r.abs with woverflow := true } :=
      if_neg (Nat.not_lt.2 hfull.ge)
    have hq₁ : Quiet { r.edge Bus.idle h₁ with fifoWr := false, woverflow := true } :=
      { hq' with fifoWr := rfl }
    obtain ⟨hq'', habs'⟩ := hq₁.edge_second (i := (Transfer.writeData w).bus) h₂
    refine ⟨?_, exec_of_order (.writeData w (List.nil_append _).symm) ?_ ?_ ?_⟩
    · simpa only [exec, edge_writeData hq, hff, Bool.not_true] using hq''
    · simp only [List.map_nil, List.nil_append, Device.shown, Device.word_host]
      rfl
    · refine htaken.trans (Device.gives_congr ?_ _)
      show _ = (r.abs.writeData (w.setWidth 8)).wfifo
      rw [hlost]
    · show _ = (r.abs.writeData (w.setWidth 8)).acts _
      rw [Device.acts_host, Device.envs_append, hlost]
      simp only [exec, edge_writeData hq, hff, Bool.not_true]
      rw [habs']
      refine congrArg (Device.envs · h₂.acts) ?_
      show { (r.edge Bus.idle h₁).abs with woverflow := true } = _
      rw [habs, ← Device.envs_woverflow]
  · have hff : r.fifoFF = false := decide_eq_false hfull
    have hlt : (r.edge Bus.idle h₁).wfifo.length < fifoDepth := by
      rw [edge_writeData hq, hff] at hroom
      exact hroom rfl
    have hpush := abs_push
      (r := { r.edge Bus.idle h₁ with fifoWr := true, woverflow := false, waitrequest := false })
      (i := (Transfer.writeData w).bus) (Or.inr rfl) hlt hq'.rfifo_le rfl hq'.read0 rfl h₂
    have hes : h₁.acts ++ h₂.acts = (h₁.acts ++ .sample :: (h₂.pauses ++ h₂.takes)) ++ h₂.sends := by
      rw [List.append_assoc]
      rfl
    refine ⟨?_, exec_of_order (.writeData w hes) ?_ ?_ ?_⟩
    · simp only [exec, edge_writeData hq, hff, Bool.not_false]
      exact Quiet.of_passive
        (r := { r.edge Bus.idle h₁ with fifoWr := true, woverflow := false, waitrequest := false })
        (Or.inr rfl) hlt hq'.rfifo_le h₂
    · simp only [Device.shown_append, Device.shown, Device.word_host]
      rfl
    · refine htaken.trans ?_
      rw [hes, List.map_append, Device.shown_append, Device.shown_append, Device.gives_sends]
      simp only [Device.shown, Device.gives_sends, Device.gives, List.append_nil]
    · have hroom' := lt_of_le_of_lt (Device.envs_wfifo_le (r.edge Bus.idle h₁).abs
        (.sample :: (h₂.pauses ++ h₂.takes))) hlt
      rw [Device.acts_append, Device.acts_host, Device.envs_append, ← habs]
      show _ = (Device.writeData _ (w.setWidth 8)).acts _
      rw [Device.acts_host]
      simp only [exec, edge_writeData hq, hff, Bool.not_false]
      rw [hpush]
      refine congrArg (Device.envs · h₂.sends) ?_
      show Device.writeData (Device.envs { (r.edge Bus.idle h₁).abs with woverflow := false } _) _ = _
      rw [Device.envs_woverflow, Device.writeData, Device.writeData, if_pos hroom', if_pos hroom']
      rfl

/-- One operation of the master is one of `Device`'s. -/
theorem Quiet.exec_refines (hq : r.Quiet) (op : Op) :
    (r.exec op).2.Quiet ∧ r.abs.Exec op (r.exec op).1 (r.exec op).2.abs := by
  cases op with
  | idle h => exact hq.idle h
  | transfer t h₁ h₂ =>
    cases t with
    | readControl => exact hq.readControl h₁ h₂
    | readData => exact hq.readData h₁ h₂
    | writeControl w => exact hq.writeControl w h₁ h₂
    | writeData w => exact hq.writeData w h₁ h₂

theorem run_refines (hq : r.Quiet) (ops : List Op) :
    (r.run ops).2.Quiet ∧ r.abs.Run ops (r.run ops).1 (r.run ops).2.abs := by
  induction ops generalizing r with
  | nil => exact ⟨hq, Device.Run.nil _⟩
  | cons op ops ih =>
    obtain ⟨hq', hexec⟩ := hq.exec_refines op
    obtain ⟨hq'', hrun⟩ := ih hq'
    exact ⟨hq'', Device.Run.cons hexec hrun⟩

theorem reset_quiet : Rtl.reset.Quiet :=
  ⟨rfl, rfl, rfl, Nat.zero_le _, Nat.zero_le _⟩

/-- `altera_avalon_jtag_uart.sv` refines `Device`. Whatever the master asks for and whatever the
host does in each cycle from reset on, there is a run of `Device` with the same operations and the
same moves of the host that shows the same words, the same bytes taken and, after each operation,
the same interrupt line, and ends in the same registers and FIFO contents. -/
theorem reset_refines (ops : List Op) :
    Device.reset.Run ops (Rtl.reset.run ops).1 (Rtl.reset.run ops).2.abs :=
  (run_refines reset_quiet ops).2

end Rtl

/-! ## The device in the system -/

/-- The host's moves are actions of `System`. -/
def Env.action : Env → Action
  | .sample => .sample
  | .take => .hostTake
  | .send b => .hostSend b
  | .pause => .hostPause

/-- From `s` to `s'` nothing happens to the device but acts of `DevAct`, and the host gets what they
give. -/
def Touches (s s' : System) : Prop :=
  ∃ as, s'.dev = s.dev.acts as ∧ s'.hostGot = s.hostGot ++ Device.shown Device.gives s.dev as

theorem Touches.none {s s' : System} (hdev : s'.dev = s.dev) (hgot : s'.hostGot = s.hostGot) :
    Touches s s' :=
  ⟨[], hdev, by simp [Device.shown, hgot]⟩

theorem Touches.one {s s' : System} (a : DevAct) (hdev : s'.dev = s.dev.act a)
    (hgot : s'.hostGot = s.hostGot ++ s.dev.gives a) : Touches s s' :=
  ⟨[a], hdev, by simp [Device.shown, hgot]⟩

/-- A transfer gives the host nothing. -/
theorem Touches.transfer {s s' : System} {a : DevAct} (ha : s.dev.gives a = [])
    (hdev : s'.dev = s.dev.act a) (hgot : s'.hostGot = s.hostGot) : Touches s s' :=
  Touches.one a hdev (by rw [ha, List.append_nil, hgot])

theorem step_env (s : System) (e : Env) : Touches s (step s e.action) := by
  cases e with
  | take => exact Touches.one (.host .take) rfl rfl
  | sample => exact Touches.transfer (a := .host .sample) rfl rfl rfl
  | send b => exact Touches.transfer (a := .host (.send b)) rfl rfl rfl
  | pause => exact Touches.transfer (a := .host .pause) rfl rfl rfl

theorem writeStep_touches (s : System) (c : WriteCall) : Touches s (writeStep s c) := by
  unfold writeStep
  cases c.pc with
  | loop =>
    simp only
    split_ifs
    · exact Touches.none rfl rfl
    · exact Touches.none rfl rfl
    · exact Touches.none rfl rfl
  | copy pos n j =>
    simp only
    split_ifs
    · exact Touches.none rfl rfl
    · exact Touches.none rfl rfl
  | kick => exact Touches.transfer (a := .writeControl (s.uart.irqEnable ||| weMsk)) rfl rfl rfl
  | test =>
    simp only
    split_ifs
    · exact Touches.none rfl rfl
    · exact Touches.none rfl rfl
    · exact Touches.none rfl rfl
  | checkHost =>
    simp only
    split_ifs
    · exact Touches.none rfl rfl
    · exact Touches.none rfl rfl
  | disable | enable | spinOut | spinHost => exact Touches.none rfl rfl

theorem readStep_touches (s : System) (c : ReadCall) : Touches s (readStep s c) := by
  unfold readStep
  cases c.pc with
  | fetch =>
    simp only
    split_ifs
    · exact Touches.none rfl rfl
    · exact Touches.none rfl rfl
  | copy pos n j =>
    simp only
    split_ifs
    · exact Touches.none rfl rfl
    · exact Touches.none rfl rfl
    · exact Touches.none rfl rfl
  | after =>
    simp only
    split_ifs
    · exact Touches.none rfl rfl
    · exact Touches.none rfl rfl
    · exact Touches.none rfl rfl
  | recheck =>
    simp only
    split_ifs
    · exact Touches.none rfl rfl
    · exact Touches.none rfl rfl
  | kick => exact Touches.transfer (a := .writeControl (s.uart.irqEnable ||| reMsk)) rfl rfl rfl
  | loop | spinIn | spinHost | disable | enable => exact Touches.none rfl rfl

theorem isrStep_touches (s : System) (f : Frame) : Touches s (isrStep s f) := by
  unfold isrStep
  cases f.pc with
  | top => exact Touches.transfer (a := .host .sample) rfl rfl rfl
  | topRead =>
    simp only
    split_ifs
    · exact Touches.transfer (a := .control) rfl rfl rfl
    · exact Touches.transfer (a := .control) rfl rfl rfl
    · exact Touches.transfer (a := .control) rfl rfl rfl
  | rxLoop =>
    simp only
    split_ifs
    · exact Touches.none rfl rfl
    · exact Touches.transfer (a := .pop) rfl rfl rfl
  | rxRead =>
    simp only
    split_ifs
    · exact Touches.transfer (a := .data) rfl rfl rfl
    · exact Touches.transfer (a := .data) rfl rfl rfl
  | rxAfter =>
    simp only
    split_ifs
    · exact Touches.transfer (a := .writeControl (s.uart.irqEnable &&& ~~~reMsk)) rfl rfl rfl
    · exact Touches.none rfl rfl
  | txCheck =>
    simp only
    split_ifs
    · exact Touches.none rfl rfl
    · exact Touches.none rfl rfl
  | txLoop =>
    simp only
    split_ifs
    · exact Touches.transfer (a := .writeData (s.uart.tx.buf s.uart.tx.outPos)) rfl rfl rfl
    · exact Touches.none rfl rfl
  | txAfter =>
    simp only
    split_ifs
    · exact Touches.transfer (a := .writeControl (s.uart.irqEnable &&& ~~~weMsk)) rfl rfl rfl
    · exact Touches.none rfl rfl

/-- The system of `JtagUart` does nothing else to its device. -/
theorem step_touches (s : System) (a : Action) : Touches s (step s a) := by
  cases a with
  | callWrite buffer nonblock =>
    simp only [step, callWrite]
    split
    · exact Touches.none rfl rfl
    · exact Touches.none rfl rfl
  | callRead space nonblock =>
    simp only [step, callRead]
    split
    · exact Touches.none rfl rfl
    · exact Touches.none rfl rfl
  | thread =>
    simp only [step, threadStep]
    split
    · exact writeStep_touches s _
    · exact readStep_touches s _
    · exact Touches.none rfl rfl
  | irq =>
    simp only [step]
    split_ifs
    · exact Touches.none rfl rfl
    · exact Touches.none rfl rfl
  | isr =>
    simp only [step]
    split
    · exact isrStep_touches s _
    · exact Touches.none rfl rfl
  | timeout =>
    simp only [step, timeoutRoutine]
    split_ifs
    · exact Touches.transfer (a := .writeControl (s.uart.irqEnable ||| acMsk)) rfl rfl rfl
    · exact Touches.none rfl rfl
    · exact Touches.none rfl rfl
    · exact Touches.none rfl rfl
  | sample => exact step_env s .sample
  | hostTake => exact step_env s .take
  | hostSend b => exact step_env s (.send b)
  | hostPause => exact step_env s .pause

end KyberNeorv32.JtagUart
