import Inmojomni.Gpio

/-!
# PWM driver

Slices of two channels; the slice and the channel of a GPIO are fixed by hardware, so a `Pwm`
derives both from its pin.
-/

open Mmio

/-- One PWM output, bound to a GPIO: the pin exists on the chip, and its slice mapping is known. -/
structure Pwm where
  chip : Chip
  pin : Fin chip.numGpios
  mapped : chip.numPwmSlices = 8 ∨ pin.val < 24

namespace Pwm

variable (p : Pwm)

def slice : ℕ := (p.pin.val >>> 1) % p.chip.numPwmSlices

/-- Channel B when the pin is odd. -/
def isB : Bool := p.pin.val &&& 1 = 1

def csr : Word := p.chip.pwmBase + BitVec.ofNat 32 (0x14 * p.slice)

def div : Word := p.csr + 0x04

def ctr : Word := p.csr + 0x08

def cc : Word := p.csr + 0x0C

def top : Word := p.csr + 0x10

/-- The GPIO of the output. -/
def gpio : Pin := ⟨p.chip, p.pin⟩

/-- Release the block from reset, and switch the GPIO over to it. -/
def construct : Firmware Unit := do
  write32Clr p.chip.resetsReset p.chip.resetPwm
  let _ ← Effect.Prog.poll (Op.read32 p.chip.resetsResetDone) fun (r : Word) =>
    decide (r &&& p.chip.resetPwm ≠ 0)
  p.gpio.construct
  p.gpio.setFunction Pin.functionPwm

/-- Wrap value: frequency = clk_sys / (div * (top + 1)). -/
def setTop (top : Word) : Firmware Unit := write32 p.top (top &&& 0xFFFF)

/-- Integer clock divider 1..255 (8.4 fixed point, frac = 0). -/
def setDivInt (div : Word) : Firmware Unit := write32 p.div ((div &&& 0xFF) <<< 4)

/-- Compare level for this pin's channel (duty = level/(top+1)). -/
def setLevel (level : Word) : Firmware Unit := do
  let cc ← read32 p.cc
  if p.isB then
    write32 p.cc ((cc &&& 0x0000FFFF#32) ||| ((level &&& 0xFFFF#32) <<< 16))
  else
    write32 p.cc ((cc &&& 0xFFFF0000#32) ||| (level &&& 0xFFFF#32))

def enable : Firmware Unit := write32Set p.csr 1

def disable : Firmware Unit := write32Clr p.csr 1

def counter : Firmware Word := do
  return (← read32 p.ctr) &&& 0xFFFF

end Pwm
