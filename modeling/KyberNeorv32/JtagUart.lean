import KyberNeorv32.JtagDevice
import KyberNeorv32.Lib.RingBuf

/-!
# The JTAG UART driver and its device

The interrupt-driven driver of `altera_avalon_jtag_uart_{init,read,write}.c` over the device of
`JtagDevice`, every access to what the two sides share in a step of its own.

| here | there |
| --- | --- |
| `Uart` | `altera_avalon_jtag_uart_state` (`altera_avalon_jtag_uart.h:89`) |
| `init` | `altera_avalon_jtag_uart_init` (`init.c:66`) |
| `writeStep` | `altera_avalon_jtag_uart_write` (`write.c:80`) |
| `readStep` | `altera_avalon_jtag_uart_read` (`read.c:97`) |
| `isrStep` | `altera_avalon_jtag_uart_irq` (`init.c:106`) |
| `timeoutRoutine` | `altera_avalon_jtag_uart_timeout` (`init.c:211`) |

There is no RTOS: one thread calls `read` and `write`, semaphores and event flags are no-ops. An
interrupt suspends the thread until the routine returns, so a step of the routine may touch all the
memory it needs and makes at most one bus access; a read of the routine, which the host can
interfere with halfway, is two steps. The host acts between any two steps.
-/

namespace KyberNeorv32.JtagUart

/-- `ALTERA_AVALON_JTAG_UART_BUF_LEN`. -/
def bufLen : ℕ := 2048

/-- `ALTERA_AVALON_JTAG_UART_DEFAULT_TIMEOUT`. -/
def defaultTimeout : ℕ := 10

def intMax : ℕ := 2147483647
def eio : ℤ := 5
def ewouldblock : ℤ := 11

/-- The driver's state. The alarm is `System.alarmOn`. -/
structure Uart where
  timeout : ℕ
  irqEnable : BitVec 32
  hostInactive : ℕ
  rx : RingBuf Byte
  tx : RingBuf Byte

/-! ## The thread -/

/-- Where `write` stands; `copy` is inside `memcpy(sp->tx_buf + pos, ptr, n)`. -/
inductive WritePc
  | loop
  | copy (pos n j : ℕ)
  | disable
  | kick
  | enable
  | test
  | spinOut
  | spinHost
  | checkHost
deriving DecidableEq

/-- A call of `write`: `ptr` counts from `start`, `count` is what is left of `buffer`. -/
structure WriteCall where
  buffer : List Byte
  nonblock : Bool
  ptr : ℕ
  out : ℕ
  context : Bool
  pc : WritePc

/-- Where `read` stands; `copy` is inside `memcpy(ptr, sp->rx_buf + pos, n)`. -/
inductive ReadPc
  | loop
  | fetch
  | copy (pos n j : ℕ)
  | after
  | spinIn
  | spinHost
  | recheck
  | disable
  | kick
  | enable
deriving DecidableEq

/-- A call of `read`: `asked` is the argument `space`, `space` what is left of it, `got` what
`buffer` holds up to `ptr`, `inp` the local `in`. -/
structure ReadCall where
  asked : ℕ
  space : ℕ
  nonblock : Bool
  got : List Byte
  inp : ℕ
  context : Bool
  pc : ReadPc

inductive Thread
  | idle
  | write (c : WriteCall)
  | read (c : ReadCall)

/-! ## The interrupt routine -/

inductive IsrPc
  | top
  | topRead
  | rxLoop
  | rxRead
  | rxAfter
  | txCheck
  | txLoop
  | txAfter
deriving DecidableEq

/-- The locals of the interrupt routine. -/
structure Frame where
  control : BitVec 32
  data : BitVec 32
  space : ℕ
  pc : IsrPc

/-! ## The system -/

structure Written where
  buffer : List Byte
  nonblock : Bool
  ret : ℤ

structure Received where
  asked : ℕ
  got : List Byte
  nonblock : Bool
  ret : ℤ

/-- `hostGot` and `hostSent` are what went over the cable, `writes` and `reads` the finished
calls. -/
structure System where
  uart : Uart
  dev : Device
  mie : Bool
  alarmOn : Bool
  thread : Thread
  isr : Option Frame
  hostGot : List Byte
  hostSent : List Byte
  writes : List Written
  reads : List Received

namespace System
variable (s : System)

def inWrite (c : WriteCall) : System := { s with thread := .write c }
def inRead (c : ReadCall) : System := { s with thread := .read c }
def inIsr (f : Frame) : System := { s with isr := some f }

/-- `irq_enable |= mask; IOWR_CONTROL(irq_enable)`. -/
def enableIrq (mask : BitVec 32) : System :=
  { s with
    uart := { s.uart with irqEnable := s.uart.irqEnable ||| mask }
    dev := s.dev.writeControl (s.uart.irqEnable ||| mask) }

/-- `irq_enable &= ~mask; IOWR_CONTROL(irq_enable)`. -/
def disableIrq (mask : BitVec 32) : System :=
  { s with
    uart := { s.uart with irqEnable := s.uart.irqEnable &&& ~~~mask }
    dev := s.dev.writeControl (s.uart.irqEnable &&& ~~~mask) }

def setTx (r : RingBuf Byte) : System := { s with uart := { s.uart with tx := r } }
def setRx (r : RingBuf Byte) : System := { s with uart := { s.uart with rx := r } }
def setDev (d : Device) : System := { s with dev := d }

/-- `write` returns. -/
def writeReturn (c : WriteCall) : System :=
  { s with
    thread := .idle
    writes := s.writes ++ [⟨c.buffer, c.nonblock,
      if c.ptr ≠ 0 then c.ptr else if c.nonblock then -ewouldblock else -eio⟩] }

/-- `read` returns. -/
def readReturn (c : ReadCall) : System :=
  { s with
    thread := .idle
    reads := s.reads ++ [⟨c.asked, c.got, c.nonblock,
      if c.got ≠ [] then c.got.length else if c.nonblock then -ewouldblock else -eio⟩] }

end System

/-- The longest run of free cells from `tx_in` on that does not wrap (`write.c:107-112`). -/
def txRoom (inp out : ℕ) : ℕ :=
  if inp < out then out - 1 - inp else if 0 < out then bufLen - inp else bufLen - 1 - inp

/-- The longest run of received bytes from `rx_out` on that does not wrap (`read.c:124-127`). -/
def rxRun (inp out : ℕ) : ℕ := if out ≤ inp then inp - out else bufLen - out

def writeStep (s : System) (c : WriteCall) : System :=
  match c.pc with
  | .loop =>
    if c.ptr < c.buffer.length then
      let inp := s.uart.tx.inPos
      let out := s.uart.tx.outPos
      if txRoom inp out = 0 then s.inWrite { c with out := out, pc := .disable }
      else
        let n := min (txRoom inp out) (c.buffer.length - c.ptr)
        s.inWrite { c with out := out, pc := .copy inp n 0 }
    else s.inWrite { c with pc := .disable }
  | .copy pos n j =>
    if j < n then
      (s.setTx (s.uart.tx.store (pos + j) (c.buffer.getD (c.ptr + j) 0))).inWrite
        { c with pc := .copy pos n (j + 1) }
    else
      (s.setTx { s.uart.tx with inPos := (pos + n) % bufLen }).inWrite
        { c with ptr := c.ptr + n, pc := .loop }
  | .disable => { s with mie := false }.inWrite { c with context := s.mie, pc := .kick }
  | .kick => (s.enableIrq weMsk).inWrite { c with pc := .enable }
  | .enable => { s with mie := s.mie || c.context }.inWrite { c with pc := .test }
  | .test =>
    if c.ptr < c.buffer.length then
      if c.nonblock then s.writeReturn c else s.inWrite { c with pc := .spinOut }
    else s.writeReturn c
  | .spinOut =>
    s.inWrite { c with pc := if c.out = s.uart.tx.outPos then .spinHost else .checkHost }
  | .spinHost =>
    s.inWrite { c with pc := if s.uart.hostInactive < s.uart.timeout then .spinOut else .checkHost }
  | .checkHost =>
    if s.uart.hostInactive ≠ 0 then s.writeReturn c else s.inWrite { c with pc := .loop }

def readStep (s : System) (c : ReadCall) : System :=
  match c.pc with
  | .loop => s.inRead { c with pc := if 0 < c.space then .fetch else .after }
  | .fetch =>
    let inp := s.uart.rx.inPos
    let out := s.uart.rx.outPos
    if rxRun inp out = 0 then s.inRead { c with inp := inp, pc := .after }
    else s.inRead { c with inp := inp, pc := .copy out (min (rxRun inp out) c.space) 0 }
  | .copy pos n j =>
    if j < n then
      s.inRead { c with got := c.got ++ [s.uart.rx.buf (pos + j)], pc := .copy pos n (j + 1) }
    else
      (s.setRx { s.uart.rx with outPos := (pos + n) % bufLen }).inRead
        { c with space := c.space - n, pc := if 0 < c.space - n then .fetch else .after }
  | .after =>
    if c.got ≠ [] then s.inRead { c with pc := .disable }
    else if c.nonblock ∨ c.space = 0 then s.readReturn c
    else s.inRead { c with pc := .spinIn }
  | .spinIn => s.inRead { c with pc := if c.inp = s.uart.rx.inPos then .spinHost else .recheck }
  | .spinHost =>
    s.inRead { c with pc := if s.uart.hostInactive < s.uart.timeout then .spinIn else .recheck }
  | .recheck =>
    if c.inp = s.uart.rx.inPos then s.readReturn c else s.inRead { c with pc := .loop }
  | .disable => { s with mie := false }.inRead { c with context := s.mie, pc := .kick }
  | .kick => (s.enableIrq reMsk).inRead { c with pc := .enable }
  | .enable => { s with mie := s.mie || c.context }.readReturn c

def isrStep (s : System) (f : Frame) : System :=
  match f.pc with
  | .top => (s.setDev s.dev.sample).inIsr { f with pc := .topRead }
  | .topRead =>
    let control := s.dev.control
    if control &&& (riMsk ||| wiMsk) = 0 then { s with isr := none }
    else if control &&& riMsk ≠ 0 then
      s.inIsr { f with control := control, data := 1#32 <<< 16, pc := .rxLoop }
    else s.inIsr { f with control := control, pc := .txCheck }
  | .rxLoop =>
    if (s.uart.rx.inPos + 1) % bufLen = s.uart.rx.outPos then s.inIsr { f with pc := .rxAfter }
    else (s.setDev s.dev.pop).inIsr { f with pc := .rxRead }
  | .rxRead =>
    let rx := s.uart.rx
    let data := s.dev.readData.1
    let s := s.setDev s.dev.readData.2
    if data &&& rvalidMsk = 0 then s.inIsr { f with data := data, pc := .rxAfter }
    else
      (s.setRx ((rx.store rx.inPos ((data &&& dataMsk).setWidth 8)).publish bufLen 1)).inIsr
        { f with data := data, pc := .rxLoop }
  | .rxAfter =>
    if f.data &&& ravailMsk ≠ 0 then (s.disableIrq reMsk).inIsr { f with pc := .txCheck }
    else s.inIsr { f with pc := .txCheck }
  | .txCheck =>
    if f.control &&& wiMsk ≠ 0 then
      s.inIsr { f with space := ((f.control &&& wspaceMsk) >>> 16).toNat, pc := .txLoop }
    else s.inIsr { f with pc := .top }
  | .txLoop =>
    let tx := s.uart.tx
    if 0 < f.space ∧ tx.outPos ≠ tx.inPos then
      ((s.setDev (s.dev.writeData (tx.buf tx.outPos))).setTx (tx.free bufLen 1)).inIsr
        { f with space := f.space - 1 }
    else s.inIsr { f with pc := .txAfter }
  | .txAfter =>
    if 0 < f.space then (s.disableIrq weMsk).inIsr { f with pc := .top }
    else s.inIsr { f with pc := .top }

/-- Called from the timer interrupt, once a second while the alarm is set. -/
def timeoutRoutine (s : System) : System :=
  if s.dev.control &&& acMsk ≠ 0 then
    { s with
      dev := s.dev.writeControl (s.uart.irqEnable ||| acMsk)
      uart := { s.uart with hostInactive := 0 } }
  else if s.uart.hostInactive < intMax - 2 then
    { s with uart := { s.uart with hostInactive := s.uart.hostInactive + 1 } }
  else s

/-- `callWrite` and `callRead` are the program's; `irq` and `timeout` the processor's; the rest are
the device's clock (`sample`) and the host. -/
inductive Action
  | callWrite (buffer : List Byte) (nonblock : Bool)
  | callRead (space : ℕ) (nonblock : Bool)
  | thread
  | irq
  | isr
  | timeout
  | sample
  | hostTake
  | hostSend (b : Byte)
  | hostPause

/-- The thread runs while no interrupt routine does. -/
def threadStep (s : System) : System :=
  match s.isr, s.thread with
  | none, .write c => writeStep s c
  | none, .read c => readStep s c
  | _, _ => s

def callWrite (s : System) (buffer : List Byte) (nonblock : Bool) : System :=
  match s.isr, s.thread with
  | none, .idle => s.inWrite ⟨buffer, nonblock, 0, 0, false, .loop⟩
  | _, _ => s

def callRead (s : System) (space : ℕ) (nonblock : Bool) : System :=
  match s.isr, s.thread with
  | none, .idle => s.inRead ⟨space, space, nonblock, [], 0, false, .loop⟩
  | _, _ => s

def step (s : System) : Action → System
  | .callWrite buffer nonblock => callWrite s buffer nonblock
  | .callRead space nonblock => callRead s space nonblock
  | .thread => threadStep s
  | .irq => if s.mie ∧ s.isr.isNone ∧ s.dev.irq then s.inIsr ⟨0, 0, 0, .top⟩ else s
  | .isr =>
    match s.isr with
    | some f => isrStep s f
    | none => s
  | .timeout => if s.mie ∧ s.isr.isNone ∧ s.alarmOn then timeoutRoutine s else s
  | .sample => s.setDev s.dev.sample
  | .hostTake => { s with dev := s.dev.hostTake, hostGot := s.hostGot ++ s.dev.wfifo.take 1 }
  | .hostSend b =>
    { s with
      dev := s.dev.hostSend b
      hostSent := if s.dev.rfifo.length < fifoDepth then s.hostSent ++ [b] else s.hostSent }
  | .hostPause => s.setDev s.dev.hostPause

def run (s : System) (as : List Action) : System := as.foldl step s

/-- `altera_avalon_jtag_uart_init` after reset. `alt_alarm_start` refuses when the tick rate is 0;
then the host is taken to be there. -/
def init (ticksPerSecond : ℕ) : System where
  uart :=
    { timeout := if ticksPerSecond = 0 then intMax else defaultTimeout
      irqEnable := reMsk
      hostInactive := 0
      rx := ⟨fun _ => 0, 0, 0⟩
      tx := ⟨fun _ => 0, 0, 0⟩ }
  dev := Device.reset.writeControl reMsk
  mie := true
  alarmOn := decide (ticksPerSecond ≠ 0)
  thread := .idle
  isr := none
  hostGot := []
  hostSent := []
  writes := []
  reads := []

/-- In this firmware `alt_sys_init` sets the UART up before the timer, while `_alt_tick_rate` is
0. -/
def boot : System := init 0

end KyberNeorv32.JtagUart
