import Inmojomni.Effect.Prog
import Inmojomni.Effect.History
import Inmojomni.Effect.RelyGuarantee
import Inmojomni.Effect.Frame
import Inmojomni.Effect.Fallible
import Inmojomni.Effect.Raising
import Inmojomni.Effect.Trace
import Inmojomni.Effect.Atomic
import Inmojomni.Bits
import Inmojomni.Fields
import Inmojomni.Mmio
import Inmojomni.Mmio.Bus
import Inmojomni.Mmio.SharedRegister
import Inmojomni.Mmio.Ram
import Inmojomni.Mmio.Interleaved
import Inmojomni.Chips
import Inmojomni.Gpio
import Inmojomni.Pwm
import Inmojomni.Pio.Asm
import Inmojomni.Pio.Fixups
import Inmojomni.Pio.Access
import Inmojomni.Pio.TwoPass
import Inmojomni.Pio.Registers
import Inmojomni.Pio.StateMachine
import Inmojomni.Pio.Effects
import Inmojomni.Pio.Coexist
import Inmojomni.Pio.Decode
import Inmojomni.Pio.RoundTrip
import Inmojomni.Pio.Run
import Inmojomni.Pio.PinConfig
import Inmojomni.Pio.Reload
import Inmojomni.Pio.Latency
import Inmojomni.Pio.Timing
import Inmojomni.SharedHandles
import Inmojomni.Gpio.Pads
import Inmojomni.Gpio.Isolation
import Inmojomni.Gpio.Events
import Inmojomni.Sync
import Inmojomni.Resync
import Inmojomni.Sync.Sections
import Inmojomni.Multicore
import Inmojomni.Time
import Inmojomni.Multicore.Launch
import Inmojomni.Clocks
import Inmojomni.Clocks.Safety
import Inmojomni.Timebase
import Inmojomni.Alarm
import Inmojomni.Rv32
import Inmojomni.TrapDispatch
import Inmojomni.Cyclic
import Inmojomni.Rtt
import Inmojomni.Rtt.Stream
import Inmojomni.Numeral
import Inmojomni.Rtt.Numbers
import Inmojomni.Rtt.Writers
import Inmojomni.Rtt.Scan
import Inmojomni.Text
import Inmojomni.Retarget
import Inmojomni.Retarget.Lines
import Inmojomni.Retarget.Attributes
import Inmojomni.Retarget.Constants
import Inmojomni.Crc
import Inmojomni.Blocks
import Inmojomni.Intervals
import Inmojomni.Elf
import Inmojomni.Elf.Reads
import Inmojomni.Elf.Boot2
import Inmojomni.Elf.Outcome
import Inmojomni.Elf.Bounds
import Inmojomni.Elf.MemoryMap
import Inmojomni.Elf.Reserves
import Inmojomni.Elf.RoundTrip
import Inmojomni.Elf.Overlaps
import Inmojomni.Bench
import Inmojomni.Bench.Freshness
import Inmojomni.Multicore.Timeouts
import Inmojomni.Multicore.Channel
import Inmojomni.Multicore.Pingpong
import Inmojomni.Quantiles
import Inmojomni.Bench.Reduce
import Inmojomni.IrqLatency
import Inmojomni.IrqLatency.Percentiles
import Inmojomni.Bench.Ratio
import Inmojomni.Bench.Qsort
import Inmojomni.Listing
import Inmojomni.Mmio.Copy
import Inmojomni.Startup
import Inmojomni.Startup.Rp2040
import Inmojomni.Startup.Agreement
import Inmojomni.Uart
import Inmojomni.Uart.Loopback
import Inmojomni.Ascii
import Inmojomni.Dap
import Inmojomni.Dap.Framing
import Inmojomni.Dap.Closed
import Inmojomni.Dap.Session
import Inmojomni.Shell
import Inmojomni.MemRoutines
import Inmojomni.Bootrom
import Inmojomni.Hil
