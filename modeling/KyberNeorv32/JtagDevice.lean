import KyberNeorv32.Lib.Words

/-!
# The JTAG UART as its driver sees it

The registers of `altera_avalon_jtag_uart.sv`, by what a bus transfer does to them. The host sits at
the other end of the two hardware FIFOs: it takes bytes from the write FIFO (`r_ena`), puts bytes
into the read FIFO (`t_ena`) and may ask for a pause interrupt (`t_pause`). The threshold flags
`fifo_AE` and `fifo_AF` are registers: `sample` is the clock edge that refreshes them. The FIFOs
themselves are the megafunction `scfifo`, which the source only instantiates; a FIFO is the list of
what it holds, and `JtagRtl` says what that takes for granted.

`control_*` and `dataWord_*` read the two bus words through the driver's masks
(`altera_avalon_jtag_uart_regs.h`).
-/

namespace KyberNeorv32.JtagUart

abbrev Byte := BitVec 8

/-- `writeBufferDepth` and `readBufferDepth`. -/
def fifoDepth : ℕ := 64

/-- `writeIRQThreshold` and `readIRQThreshold`. -/
def irqThreshold : ℕ := 8

/-- FIFO contents are listed oldest first. `rdata` is the output register of the read FIFO. -/
structure Device where
  wfifo : List Byte
  rfifo : List Byte
  rdata : Byte
  ienAE : Bool
  ienAF : Bool
  fifoAE : Bool
  fifoAF : Bool
  pauseIrq : Bool
  rvalid : Bool
  woverflow : Bool
  ac : Bool
deriving DecidableEq, Repr

/-- After `rst_n`. -/
def Device.reset : Device where
  wfifo := []
  rfifo := []
  rdata := 0
  ienAE := false
  ienAF := false
  fifoAE := false
  fifoAF := false
  pauseIrq := false
  rvalid := false
  woverflow := false
  ac := false

/-! ## The driver's masks -/

def dataMsk : BitVec 32 := 0x000000FF
def rvalidMsk : BitVec 32 := 0x00008000
def ravailMsk : BitVec 32 := 0xFFFF0000
def reMsk : BitVec 32 := 0x00000001
def weMsk : BitVec 32 := 0x00000002
def riMsk : BitVec 32 := 0x00000100
def wiMsk : BitVec 32 := 0x00000200
def acMsk : BitVec 32 := 0x00000400
def wspaceMsk : BitVec 32 := 0xFFFF0000

namespace Device
variable (d : Device)

def ipenAE : Bool := d.ienAE && d.fifoAE
def ipenAF : Bool := d.ienAF && (d.pauseIrq || d.fifoAF)

/-- `av_irq`. -/
def irq : Bool := d.ipenAE || d.ipenAF

/-- Bits 15 to 8 of both words. -/
def flags : BitVec 8 :=
  BitVec.ofBool d.rvalid ++ BitVec.ofBool d.woverflow ++
    BitVec.ofBool (decide (d.wfifo.length < fifoDepth)) ++ BitVec.ofBool (!d.rfifo.isEmpty) ++ 0#1 ++
    BitVec.ofBool d.ac ++ BitVec.ofBool d.ipenAE ++ BitVec.ofBool d.ipenAF

/-- `read_0_false`. -/
def control : BitVec 32 :=
  BitVec.ofNat 16 (fifoDepth - d.wfifo.length) ++
    (d.flags ++ (0#6 ++ BitVec.ofBool d.ienAE ++ BitVec.ofBool d.ienAF))

/-- `read_0_true`. -/
def dataWord : BitVec 32 := BitVec.ofNat 16 d.rfifo.length ++ (d.flags ++ d.rdata)

/-! ### The bus

A transfer takes two cycles. A read takes effect at the edge between them (of the control register:
`sample`, of the data register: `pop`) and returns the word of the second one, so the host may act
in between. -/

/-- First cycle of a read of the data register: a byte leaves the read FIFO, if there is one. -/
def pop : Device :=
  { d with rfifo := d.rfifo.tail, rdata := d.rfifo.headD d.rdata, rvalid := !d.rfifo.isEmpty }

/-- Second cycle of a read of the data register. -/
def readData : BitVec 32 × Device := (d.dataWord, { d with pauseIrq := false })

def writeControl (w : BitVec 32) : Device :=
  { d with
    ienAF := w.getLsbD 0
    ienAE := w.getLsbD 1
    ac := d.ac && !w.getLsbD 10 }

/-- A byte written to a full FIFO is lost and sets `woverflow`. -/
def writeData (b : Byte) : Device :=
  if d.wfifo.length < fifoDepth then { d with wfifo := d.wfifo ++ [b], woverflow := false }
  else { d with woverflow := true }

/-- A clock edge refreshes the threshold flags. -/
def sample : Device :=
  { d with
    fifoAE := decide (d.wfifo.length ≤ irqThreshold)
    fifoAF := decide (fifoDepth - d.rfifo.length ≤ irqThreshold) }

/-! ### The host's side -/

def hostTake : Device := { d with wfifo := d.wfifo.tail }

/-- A byte sent to a full read FIFO does not get in. -/
def hostSend (b : Byte) : Device :=
  { d with
    rfifo := if d.rfifo.length < fifoDepth then d.rfifo ++ [b] else d.rfifo
    ac := true }

def hostPause : Device := { d with pauseIrq := d.pauseIrq || !d.rfifo.isEmpty, ac := true }

end Device

/-! ## The words through the masks -/

section
variable (d : Device)

theorem control_wi : d.control &&& wiMsk = 0 ↔ d.ipenAE = false := by
  rw [show wiMsk = BitVec.twoPow 32 9 by decide, Words.and_twoPow_eq_zero _ (by norm_num)]
  simp only [Device.control, Device.flags, BitVec.getLsbD_append]
  simp

theorem control_ri : d.control &&& riMsk = 0 ↔ d.ipenAF = false := by
  rw [show riMsk = BitVec.twoPow 32 8 by decide, Words.and_twoPow_eq_zero _ (by norm_num)]
  simp only [Device.control, Device.flags, BitVec.getLsbD_append]
  simp

theorem dataWord_rvalid : d.dataWord &&& rvalidMsk = 0 ↔ d.rvalid = false := by
  rw [show rvalidMsk = BitVec.twoPow 32 15 by decide, Words.and_twoPow_eq_zero _ (by norm_num)]
  simp only [Device.dataWord, Device.flags, BitVec.getLsbD_append]
  simp

/-- `WSPACE`: the free room of the write FIFO. -/
theorem control_wspace : ((d.control &&& wspaceMsk) >>> 16).toNat = fifoDepth - d.wfifo.length := by
  have hle : fifoDepth - d.wfifo.length ≤ 64 := Nat.sub_le _ _
  rw [Device.control, show wspaceMsk = BitVec.allOnes 16 ++ 0#16 by decide, Words.append_and_high,
    Words.toNat_append_zero_ushiftRight, BitVec.toNat_ofNat]
  omega

theorem dataWord_data : (d.dataWord &&& dataMsk).setWidth 8 = d.rdata := by
  rw [Device.dataWord, show dataMsk = 0#16 ++ (0#8 ++ BitVec.allOnes 8) by decide]
  exact Words.setWidth_and_low _ _ _

end

end KyberNeorv32.JtagUart
