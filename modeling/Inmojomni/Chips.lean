import Inmojomni.Mmio

/-!
# Chip descriptors

The two chips the SDK runs on, with the facts about their silicon that the drivers use. A
driver takes the chip as a parameter, so that everything proved about a driver is proved for
both chips.
-/

/-- The chips that conform to the `Chip` trait. -/
inductive Chip
  | rp2040
  | rp2350
  deriving DecidableEq, Repr

namespace Chip

def numGpios : Chip → ℕ
  | rp2040 => 30
  | rp2350 => 30

def numPioBlocks : Chip → ℕ
  | rp2040 => 2
  | rp2350 => 3

/-- `init`/`sleep` use the 1 µs TIMER. -/
def usesHwTimer : Chip → Bool
  | rp2040 => true
  | rp2350 => false

/-- Pads power up isolated. -/
def hasPadIso : Chip → Bool
  | rp2040 => false
  | rp2350 => true

/-! ### RESETS block -/

def resetsReset : Chip → Word
  | rp2040 => 0x4000C000
  | rp2350 => 0x40020000

def resetsResetDone : Chip → Word
  | rp2040 => 0x4000C008
  | rp2350 => 0x40020008

/-- RESET bit for IO_BANK0. -/
def resetIoBank0 : Chip → Word
  | rp2040 => 1 <<< 5
  | rp2350 => 1 <<< 6

/-- RESET bit for PADS_BANK0. -/
def resetPadsBank0 : Chip → Word
  | rp2040 => 1 <<< 8
  | rp2350 => 1 <<< 9

/-! ### GPIO: the peripheral bases, and SIO at absolute addresses -/

def ioBank0Base : Chip → Word
  | rp2040 => 0x40014000
  | rp2350 => 0x40028000

def padsBank0Base : Chip → Word
  | rp2040 => 0x4001C000
  | rp2350 => 0x40038000

def sioGpioIn : Chip → Word
  | rp2040 => 0xD0000004
  | rp2350 => 0xD0000004

def sioGpioOut : Chip → Word
  | rp2040 => 0xD0000010
  | rp2350 => 0xD0000010

def sioGpioOutSet : Chip → Word
  | rp2040 => 0xD0000014
  | rp2350 => 0xD0000018

def sioGpioOutClr : Chip → Word
  | rp2040 => 0xD0000018
  | rp2350 => 0xD0000020

def sioGpioOutXor : Chip → Word
  | rp2040 => 0xD000001C
  | rp2350 => 0xD0000028

def sioGpioOe : Chip → Word
  | rp2040 => 0xD0000020
  | rp2350 => 0xD0000030

def sioGpioOeSet : Chip → Word
  | rp2040 => 0xD0000024
  | rp2350 => 0xD0000038

def sioGpioOeClr : Chip → Word
  | rp2040 => 0xD0000028
  | rp2350 => 0xD0000040

/-! ### Multicore: PSM reset and inter-core SIO FIFO -/

/-- The cores boot RISC-V. -/
def isRiscv : Chip → Bool
  | rp2040 => false
  | rp2350 => true

def psmFrceOff : Chip → Word
  | rp2040 => 0x40010004
  | rp2350 => 0x40018004

/-- FRCE_OFF bit for core 1. -/
def psmProc1 : Chip → Word
  | rp2040 => 1 <<< 16
  | rp2350 => 1 <<< 24

/-- VLD bit0, RDY bit1. -/
def sioFifoSt : Chip → Word
  | rp2040 => 0xD0000050
  | rp2350 => 0xD0000050

def sioFifoWr : Chip → Word
  | rp2040 => 0xD0000054
  | rp2350 => 0xD0000054

def sioFifoRd : Chip → Word
  | rp2040 => 0xD0000058
  | rp2350 => 0xD0000058

/-! ### TIMER -/

def timerBase : Chip → Word
  | rp2040 => 0x40054000
  | rp2350 => 0x400B0000

def timerIntrOff : Chip → Word
  | rp2040 => 0x34
  | rp2350 => 0x3C

def timerInteOff : Chip → Word
  | rp2040 => 0x38
  | rp2350 => 0x40

/-- TIMER0, on the RP2350. -/
def resetTimer : Chip → Word
  | rp2040 => 1 <<< 21
  | rp2350 => 1 <<< 23

/-! ### Clock generators -/

def xoscBase : Chip → Word
  | rp2040 => 0x40024000
  | rp2350 => 0x40048000

def clocksBase : Chip → Word
  | rp2040 => 0x40008000
  | rp2350 => 0x40010000

/-- The TICKS block feeds TIMER0. -/
def hasTicksBlock : Chip → Bool
  | rp2040 => false
  | rp2350 => true

/-- 0 where absent. -/
def ticksBase : Chip → Word
  | rp2040 => 0
  | rp2350 => 0x40108000

/-! ### PIO -/

/-- PIOn = pio0Base + n * 0x10_0000. -/
def pio0Base : Chip → Word
  | rp2040 => 0x50200000
  | rp2350 => 0x50200000

/-- RESETS bit index of PIO0 (PIOn = +n). -/
def resetPio0Shift : Chip → ℕ
  | rp2040 => 10
  | rp2350 => 11

/-! ### PWM -/

def pwmBase : Chip → Word
  | rp2040 => 0x40050000
  | rp2350 => 0x400A8000

def numPwmSlices : Chip → ℕ
  | rp2040 => 8
  | rp2350 => 12

def resetPwm : Chip → Word
  | rp2040 => 1 <<< 14
  | rp2350 => 1 <<< 16

/-! ### UART -/

def uart0Base : Chip → Word
  | rp2040 => 0x40034000
  | rp2350 => 0x40070000

def resetUart0 : Chip → Word
  | rp2040 => 1 <<< 22
  | rp2350 => 1 <<< 26

end Chip
