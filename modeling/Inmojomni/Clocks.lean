import Inmojomni.Chips
import Inmojomni.Mmio.Bus

/-!
# Clocks

`pico.init()`, `sys_clock_125mhz()` and `sys_clock_12mhz()`, and the clock tree of the RP2040 that
they switch: the crystal oscillator, PLL_SYS and the muxes of clk_ref and clk_sys, as their
registers and what the hardware does about them by itself.

A mux does not switch at once. `refSel` and `sysSel` are the sources that clk_ref and clk_sys run
from, which follow the SRC fields at some later time (`Tree.Step`), and the SELECTED registers
show them. So while a switch is under way two sources have to be running.
-/

namespace Clocks

open Mmio Effect

/-! ### Registers -/

/-- The registers of the clock tree. -/
inductive Reg
  | resetsReset | xoscCtrl | clkRefCtrl | clkSysCtrl | pllSysCs | pllSysPwr | pllSysFbdivInt
  | pllSysPrim
  deriving DecidableEq

def Reg.addr : Reg → Word
  | resetsReset => 0x4000C000#32
  | xoscCtrl => 0x40024000#32
  | clkRefCtrl => 0x40008030#32
  | clkSysCtrl => 0x4000803C#32
  | pllSysCs => 0x40028000#32
  | pllSysPwr => 0x40028004#32
  | pllSysFbdivInt => 0x40028008#32
  | pllSysPrim => 0x4002800C#32

def Reg.all : List Reg :=
  [resetsReset, xoscCtrl, clkRefCtrl, clkSysCtrl, pllSysCs, pllSysPwr, pllSysFbdivInt, pllSysPrim]

def resetsResetDone : Word := 0x4000C008#32

def xoscStatus : Word := 0x40024004#32

def xoscStartup : Word := 0x4002400C#32

def clkRefSelected : Word := 0x40008038#32

def clkSysSelected : Word := 0x40008044#32

def watchdogTick : Word := 0x4005802C#32

def resetPllSys : Word := 1#32 <<< 12

def resetTimer : Word := 1#32 <<< 21

/-- The magic "enable" key. -/
def xoscCtrlEnable : Word := 0xFAB#32 <<< 12

def xoscCtrlRange1To15mhz : Word := 0xAA0#32

def xoscStatusStable : Word := 1#32 <<< 31

def xoscStartupDelay : Word := 47#32

def clkRefSrcXosc : BitVec 2 := 2

def clkSysSrcClkRef : BitVec 1 := 0

/-- AUXSRC picks which. -/
def clkSysSrcAux : BitVec 1 := 1

/-- AUXSRC field, bits 7:5. -/
def clkSysAuxsrcPllSys : Word := 0#32 <<< 5

def pllCsLock : Word := 1#32 <<< 31

def pllPwrPd : Word := 1#32 <<< 0

def pllPwrPostdivpd : Word := 1#32 <<< 3

def pllPwrVcopd : Word := 1#32 <<< 5

def watchdogTickEnable : Word := 1#32 <<< 9

/-! ### The firmware -/

/-- `while (read32(addr) & mask) != mask: pass` -/
def waitAll (addr mask : Word) : Firmware Unit :=
  (Prog.poll (Op.read32 addr) fun (r : Word) => decide (r &&& mask = mask)).bind fun _ => .ret ()

/-- `while (read32(addr) & mask) == 0: pass` -/
def waitAny (addr mask : Word) : Firmware Unit :=
  (Prog.poll (Op.read32 addr) fun (r : Word) => decide (r &&& mask ≠ 0#32)).bind fun _ => .ret ()

/-- `while read32(addr) != value: pass` -/
def waitFor (addr value : Word) : Firmware Unit :=
  (Prog.poll (Op.read32 addr) fun (r : Word) => decide (r = value)).bind fun _ => .ret ()

/-- Bring the board to a known state, then leave the GPIO block ready. -/
def init (C : Chip) : Firmware Unit :=
  if C.usesHwTimer then do
    -- 1. Start the 12 MHz crystal oscillator and wait until it is stable.
    write32 xoscStartup xoscStartupDelay
    write32 Reg.xoscCtrl.addr (xoscCtrlEnable ||| xoscCtrlRange1To15mhz)
    waitAny xoscStatus xoscStatusStable
    -- 2. Glitchless clock switch: clk_ref <- XOSC, clk_sys <- clk_ref.
    write32 Reg.clkRefCtrl.addr (clkRefSrcXosc.setWidth 32)
    waitFor clkRefSelected (1#32 <<< clkRefSrcXosc.toNat)
    write32 Reg.clkSysCtrl.addr (clkSysSrcClkRef.setWidth 32)
    waitFor clkSysSelected (1#32 <<< clkSysSrcClkRef.toNat)
    -- 3. Release IO_BANK0, PADS_BANK0 and TIMER from reset.
    write32Clr Reg.resetsReset.addr (C.resetIoBank0 ||| C.resetPadsBank0 ||| resetTimer)
    waitAll resetsResetDone (C.resetIoBank0 ||| C.resetPadsBank0 ||| resetTimer)
    -- 4. TIMER counts the watchdog tick.
    write32 watchdogTick (watchdogTickEnable ||| 12#32)
  else do
    write32Clr C.resetsReset (C.resetIoBank0 ||| C.resetPadsBank0)
    waitAll C.resetsResetDone (C.resetIoBank0 ||| C.resetPadsBank0)

/-- clk_sys <- PLL_SYS at 125 MHz. -/
def sysClock125mhz : Firmware Unit := do
  -- 1. PLL_SYS through reset (also stops a PLL left running).
  write32Set Reg.resetsReset.addr resetPllSys
  write32Clr Reg.resetsReset.addr resetPllSys
  waitAny resetsResetDone resetPllSys
  -- 2. Reference divider 1, feedback divider 125 -> VCO 1500 MHz.
  write32 Reg.pllSysCs.addr 1#32
  write32 Reg.pllSysFbdivInt.addr 125#32
  -- 3. Power up PLL + VCO (post-divider stays off), wait for lock.
  write32Clr Reg.pllSysPwr.addr (pllPwrPd ||| pllPwrVcopd)
  waitAny Reg.pllSysCs.addr pllCsLock
  -- 4. Post-dividers 6 and 2 -> 125 MHz, then power them up.
  write32 Reg.pllSysPrim.addr (6#32 <<< 16 ||| 2#32 <<< 12)
  write32Clr Reg.pllSysPwr.addr pllPwrPostdivpd
  -- 5. Glitchless switch: AUXSRC = pll_sys while SRC is still clk_ref,
  --    then SRC = aux and wait for SELECTED to follow.
  write32 Reg.clkSysCtrl.addr clkSysAuxsrcPllSys
  write32Set Reg.clkSysCtrl.addr (clkSysSrcAux.setWidth 32)
  waitFor clkSysSelected (1#32 <<< clkSysSrcAux.toNat)

/-- Back to clk_sys = clk_ref (12 MHz XOSC) and PLL_SYS powered down. -/
def sysClock12mhz : Firmware Unit := do
  write32Clr Reg.clkSysCtrl.addr (clkSysSrcAux.setWidth 32)
  waitFor clkSysSelected (1#32 <<< clkSysSrcClkRef.toNat)
  write32Set Reg.pllSysPwr.addr (pllPwrPd ||| pllPwrVcopd ||| pllPwrPostdivpd)

/-! ### The hardware -/

/-- The clock tree: its registers, whether the crystal is stable and the PLL locked, and the
sources that clk_ref and clk_sys run from. -/
structure Tree where
  resetsReset : Word
  xoscCtrl : Word
  clkRefCtrl : Word
  clkSysCtrl : Word
  pllSysCs : Word
  pllSysPwr : Word
  pllSysFbdivInt : Word
  pllSysPrim : Word
  stable : Bool
  locked : Bool
  refSel : BitVec 2
  sysSel : BitVec 1

namespace Tree

variable (s : Tree)

/-- PLL_SYS is held in reset. -/
def InReset : Prop := s.resetsReset &&& resetPllSys ≠ 0#32

instance : Decidable s.InReset := inferInstanceAs (Decidable (_ ≠ _))

/-- The PLL and its VCO are powered. -/
def VcoOn : Prop := ¬ s.InReset ∧ s.pllSysPwr &&& (pllPwrPd ||| pllPwrVcopd) = 0#32

def refSrc : BitVec 2 := s.clkRefCtrl.extractLsb' 0 2

def sysSrc : BitVec 1 := s.clkSysCtrl.extractLsb' 0 1

def auxsrc : BitVec 3 := s.clkSysCtrl.extractLsb' 5 3

/-- The crystal oscillator runs while the key is in its ENABLE field. -/
def enabled (ctrl : Word) : Bool := ctrl &&& 0xFFF#32 <<< 12 = xoscCtrlEnable

def get : Reg → Word
  | .resetsReset => s.resetsReset
  | .xoscCtrl => s.xoscCtrl
  | .clkRefCtrl => s.clkRefCtrl
  | .clkSysCtrl => s.clkSysCtrl
  | .pllSysCs => s.pllSysCs
  | .pllSysPwr => s.pllSysPwr
  | .pllSysFbdivInt => s.pllSysFbdivInt
  | .pllSysPrim => s.pllSysPrim

/-- New contents `x` of a register, with what they do at once. In reset, the registers of the PLL
have their reset values and take no others; new dividers, or no power, lose the lock. -/
def put : Reg → Word → Tree
  | .resetsReset, x =>
    if x &&& resetPllSys = 0#32 then { s with resetsReset := x }
    else { s with resetsReset := x, pllSysCs := 1#32, pllSysPwr := 0x2D#32, pllSysFbdivInt := 0#32
                  pllSysPrim := 0x77000#32, locked := false }
  | .xoscCtrl, x => { s with xoscCtrl := x, stable := s.stable && enabled x }
  | .clkRefCtrl, x => { s with clkRefCtrl := x }
  | .clkSysCtrl, x => { s with clkSysCtrl := x }
  | .pllSysCs, x => if s.InReset then s else { s with pllSysCs := x, locked := false }
  | .pllSysPwr, x =>
    if s.InReset then s
    else { s with pllSysPwr := x
                  locked := s.locked && x &&& (pllPwrPd ||| pllPwrVcopd) = 0#32 }
  | .pllSysFbdivInt, x => if s.InReset then s else { s with pllSysFbdivInt := x, locked := false }
  | .pllSysPrim, x => if s.InReset then s else { s with pllSysPrim := x }

/-- A store, through an alias or not. Other registers are not part of the clock tree. -/
def write (addr v : Word) : Tree :=
  match Reg.all.find? (fun r => r.addr = register addr) with
  | some r => s.put r (combine addr (s.get r) v)
  | none => s

/-- What a load may answer, as far as the firmware looks at it. -/
def Reads (addr r : Word) : Prop :=
  if addr = xoscStatus then r &&& xoscStatusStable ≠ 0#32 ↔ s.stable = true
  else if addr = clkRefSelected then r = 1#32 <<< s.refSel.toNat
  else if addr = clkSysSelected then r = 1#32 <<< s.sysSel.toNat
  else if addr = Reg.pllSysCs.addr then r &&& pllCsLock ≠ 0#32 ↔ s.locked = true
  else if addr = resetsResetDone then r &&& s.resetsReset = 0#32
  else True

def access : (e : Op) → Tree → e.Answer → Tree → Prop
  | .read32 addr, s, (r : Word), s' => s' = s ∧ s.Reads addr r
  | .write32 addr v, s, _, s' => s' = s.write addr v
  | _, s, _, s' => s' = s

/-- What the hardware does by itself. -/
inductive Step : Tree → Tree → Prop
  | stable {s : Tree} (h : enabled s.xoscCtrl = true) : Step s { s with stable := true }
  | lock {s : Tree} (h : s.VcoOn) : Step s { s with locked := true }
  | ref {s : Tree} : Step s { s with refSel := s.refSrc }
  | sys {s : Tree} : Step s { s with sysSel := s.sysSrc }

end Tree

/-- One core on the clock tree. -/
def machine : Machine Unit Op.Answer Tree where
  access _ := Tree.access
  env := Tree.Step

end Clocks
