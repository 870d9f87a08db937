import KyberNeorv32.Lib.Words
import KyberNeorv32.Lib.Reduction
import KyberNeorv32.Lib.PairNet
import KyberNeorv32.Lib.PolySplit
import KyberNeorv32.Lib.Clocked
import KyberNeorv32.Lib.Rv32
import KyberNeorv32.Lib.Absorb
import KyberNeorv32.Lib.Laps
import KyberNeorv32.Lib.Numeral
import KyberNeorv32.Lib.RingBuf
import KyberNeorv32.Lib.LongDivision
import KyberNeorv32.Isa
import KyberNeorv32.InsnMachine
import KyberNeorv32.Verilog
import KyberNeorv32.Arith
import KyberNeorv32.Butterfly
import KyberNeorv32.Ranges
import KyberNeorv32.Schedule
import KyberNeorv32.KyberNtt
import KyberNeorv32.RoundTrip
import KyberNeorv32.SelfTest
import KyberNeorv32.Twiddle
import KyberNeorv32.Vhdl
import KyberNeorv32.Versions
import KyberNeorv32.FqMul
import KyberNeorv32.SelfTestRun
import KyberNeorv32.PqAluTb
import KyberNeorv32.KyberTb
import KyberNeorv32.Accounting
import KyberNeorv32.KyberBasic
import KyberNeorv32.BasicReport
import KyberNeorv32.KyberRun
import KyberNeorv32.Progress
import KyberNeorv32.Checksum
import KyberNeorv32.NiosReport
import KyberNeorv32.KyberNiosv
import KyberNeorv32.JtagDevice
import KyberNeorv32.JtagUart
import KyberNeorv32.JtagTransmit
import KyberNeorv32.JtagReceive
import KyberNeorv32.JtagWakeup
import KyberNeorv32.JtagRtl
import KyberNeorv32.JtagProgress
import KyberNeorv32.IbexMultDiv
import KyberNeorv32.IbexMult
import KyberNeorv32.IbexDiv
