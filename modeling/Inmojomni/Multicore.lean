import Inmojomni.Chips
import Inmojomni.Mmio.Bus
import Inmojomni.Resync

/-!
# Dual-core support: launch core 1

After a reset, core 1 waits in the boot ROM for a wake-up sequence over the inter-core FIFO:
0, 0, 1, vector table, stack pointer, entry, and it sends every word back. `launch` resets core 1
and walks through the sequence, restarting on any unexpected echo.

The other side of the FIFO is `Step`: whatever core 1 ran before, then the boot ROM at a pace of
its own, then the application. Nothing of it is synchronized with `launch`, whose timeouts may
elapse at any time, so words and echoes of an earlier attempt may still be under way in a later
one.
-/

namespace Multicore

open Mmio Effect

/-- Arm: fixed link address. -/
def core1Meta : Word := 0x100001C0#32

/-- Arm: VTOR value. -/
def vectorTable : Word := 0x10000100#32

/-- Read side has data. -/
def stVld : Word := 1#32

/-- Write side has room. -/
def stRdy : Word := 2#32

/-! ### The firmware -/

/-- Wakes core 1 out of its boot ROM wait. -/
def sev : Firmware Unit := Prog.call (Op.external .picoSev)

def readMcycle : Firmware Word := Prog.call (Op.external .readMcycle)

def core1MetaWord (i : Word) : Firmware Word := Prog.call (Op.external (.core1MetaWord i))

/-- Microseconds since boot: TIMERAWL. -/
def timeUs (C : Chip) : Firmware Word := read32 (C.timerBase + 0x28#32)

def ticks (C : Chip) : Firmware Word :=
  if C.isRiscv then readMcycle else timeUs .rp2040

/-- mcycle runs at up to 16 MHz. -/
def toTicks (C : Chip) (timeoutUs : Word) : Word :=
  if C.isRiscv then timeoutUs * 16#32 else timeoutUs

def fifoDrain (C : Chip) : Firmware Unit := do
  let junk ← Prog.loop (fun junk : Word => do
    let st ← read32 C.sioFifoSt
    if st &&& stVld ≠ 0#32 then do
      let v ← read32 C.sioFifoRd
      return .inl (junk ^^^ v)
    else
      return .inr junk) 0#32
  if junk = 0x5AFEC0DE#32 then sev else return ()

/-- `while (read32(SIO_FIFO_ST) & bit) == 0`, which answers `false` when the budget is spent. -/
def fifoWait (C : Chip) (bit timeoutUs : Word) : Firmware Bool := do
  let budget := toTicks C timeoutUs
  let t0 ← ticks C
  Prog.loop (fun _ : Unit => do
    let st ← read32 C.sioFifoSt
    if st &&& bit = 0#32 then do
      let t ← ticks C
      if t - t0 > budget then return .inr false else return .inl ()
    else
      return .inr true) ()

def fifoPush (C : Chip) (v timeoutUs : Word) : Firmware Bool := do
  let ready ← fifoWait C stRdy timeoutUs
  if ready then do
    write32 C.sioFifoWr v
    sev
    return true
  else
    return false

def fifoPop (C : Chip) (timeoutUs : Word) : Firmware (Bool × Word) := do
  let valid ← fifoWait C stVld timeoutUs
  if valid then do
    let v ← read32 C.sioFifoRd
    return (true, v)
  else
    return (false, 0#32)

/-- Force core 1 off and back on through the power-on state machine. -/
def resetCore1 (C : Chip) : Firmware Unit := do
  write32Set C.psmFrceOff C.psmProc1
  let _ ← Prog.poll (Op.read32 C.psmFrceOff) fun (r : Word) => decide (r &&& C.psmProc1 ≠ 0#32)
  write32Clr C.psmFrceOff C.psmProc1

def cmd (C : Chip) (i : ℕ) : Firmware Word :=
  if i = 0 ∨ i = 1 then return 0#32
  else if i = 2 then return 1#32
  else if C.isRiscv then
    if i = 3 then core1MetaWord 2#32
    else if i = 4 then core1MetaWord 1#32
    else core1MetaWord 0#32
  else if i = 3 then return vectorTable
  else if i = 4 then read32 (core1Meta + 4#32)
  else read32 core1Meta

/-- Send one command and compare its echo. -/
def exchange (C : Chip) (i attempts : ℕ) (c : Word) : Firmware ((ℕ × ℕ) ⊕ Bool) := do
  let pushed ← fifoPush C c 1000#32
  if pushed then do
    let r ← fifoPop C 1000#32
    if r.1 && r.2 = c then return .inl (i + 1, attempts) else return .inl (0, attempts)
  else
    return .inr false

/-- One round of the loop of `launch`. -/
def round (C : Chip) : ℕ × ℕ → Firmware ((ℕ × ℕ) ⊕ Bool)
  | (i, attempts) =>
    if i < 6 then
      if attempts + 1 > 64 then return .inr false
      else do
        let c ← cmd C i
        if c = 0#32 then do
          fifoDrain C
          sev
          exchange C i (attempts + 1) c
        else
          exchange C i (attempts + 1) c
    else
      return .inr true

/-- Wake core 1 out of the boot ROM and start its main function. -/
def launch (C : Chip) : Firmware Bool := do
  resetCore1 C
  Prog.loop (round C) (0, 0)

/-! ### The other core -/

/-- The words the linker puts into the image, `core1_meta_word(0)`, `(1)` and `(2)` on RISC-V. -/
structure Image where
  entry : Word
  sp : Word
  mtvec : Word

/-- A chip with its image, and the number of words a FIFO holds. -/
structure Board where
  chip : Chip
  image : Image
  depth : ℕ

/-- What core 1 is told as its vector table. -/
def Board.vectorTable (b : Board) : Word :=
  if b.chip.isRiscv then b.image.mtvec else Multicore.vectorTable

/-- The non-zero words of the sequence. -/
def Board.words (b : Board) : List Word := [1#32, b.vectorTable, b.image.sp, b.image.entry]

/-- The command of index `i`: the sequence after two zeros. -/
def Board.command (b : Board) (i : ℕ) : Word :=
  if i < 2 then 0#32 else b.words.getD (i - 2) b.image.entry

/-- Core 1: some program of the time before the reset, powered off, the boot ROM, which discards
what is queued, greets with a 0 and then listens, with an echo to send or not, and what it has
started. -/
inductive Core1
  | running
  | off
  | discarding
  | greeting
  | listening (echo : Option Word) (q : Resync.Progress Word)
  | started (vectorTable sp entry : Word)
  deriving DecidableEq

/-- The FIFO towards core 0, the one towards core 1, the FRCE_OFF register and core 1. -/
structure State where
  rx : List Word
  tx : List Word
  frceOff : Word
  core1 : Core1

namespace State

/-- New contents of FRCE_OFF. -/
def power (C : Chip) (s : State) (x : Word) : State :=
  { s with
    frceOff := x
    core1 := if x &&& C.psmProc1 ≠ 0#32 then .off
      else if s.core1 = .off then .discarding else s.core1 }

/-- A load of FIFO_RD. -/
def Pops (s : State) (r : Word) (s' : State) : Prop :=
  match s.rx with
  | [] => s' = s
  | x :: xs => r = x ∧ s' = { s with rx := xs }

end State

namespace Board

variable (b : Board)

/-- What a load may answer, as far as the firmware looks at it. -/
def Reads (addr : Word) (s : State) (r : Word) : Prop :=
  if addr = b.chip.sioFifoSt then
    (r &&& stVld ≠ 0#32 ↔ s.rx ≠ []) ∧ (r &&& stRdy ≠ 0#32 ↔ s.tx.length < b.depth)
  else if addr = b.chip.psmFrceOff then r = s.frceOff
  else if addr = core1Meta then r = b.image.entry
  else if addr = core1Meta + 4#32 then r = b.image.sp
  else True

/-- A store. A full FIFO takes no word. -/
def write (addr v : Word) (s : State) : State :=
  if addr = b.chip.sioFifoWr then
    if s.tx.length < b.depth then { s with tx := s.tx ++ [v] } else s
  else if register addr = b.chip.psmFrceOff then
    s.power b.chip (combine addr s.frceOff v)
  else s

def access : (e : Op) → State → e.Answer → State → Prop
  | .read32 addr, s, (r : Word), s' =>
    if addr = b.chip.sioFifoRd then s.Pops r s' else s' = s ∧ b.Reads addr s r
  | .write32 addr v, s, _, s' => s' = b.write addr v s
  | .external (.core1MetaWord i), s, (r : Word), s' =>
    s' = s ∧ r = if i = 1#32 then b.image.sp else if i = 2#32 then b.image.mtvec else b.image.entry
  | _, s, _, s' => s' = s

/-- A boot ROM may know that a 1 comes first, and not more. -/
def MayTake (ts : List Word) (w : Word) : Prop := ts.length < 4 ∧ (ts = [] → w = 1#32)

/-- After the echo of a word: core 1 jumps on completing the sequence. -/
def echoed : Resync.Progress Word → Core1
  | some [_, vectorTable, sp, entry] => .started vectorTable sp entry
  | q => .listening none q

/-- A step of core 1. What ran before the reset may do anything to the FIFOs, and the application
may take words and sends none. -/
inductive Step : State → State → Prop
  | running {rx tx rx' tx' : List Word} {f : Word} :
      Step ⟨rx, tx, f, .running⟩ ⟨rx', tx', f, .running⟩
  | discard {rx tx : List Word} {f w : Word} :
      Step ⟨rx, w :: tx, f, .discarding⟩ ⟨rx, tx, f, .discarding⟩
  | discarded {rx : List Word} {f : Word} :
      Step ⟨rx, [], f, .discarding⟩ ⟨rx, [], f, .greeting⟩
  | greet {rx tx : List Word} {f : Word} (h : rx.length < b.depth) :
      Step ⟨rx, tx, f, .greeting⟩ ⟨rx ++ [0#32], tx, f, .listening none none⟩
  | read {rx tx : List Word} {f w : Word} {q q' : Resync.Progress Word}
      (h : Resync.Takes 0#32 b.words MayTake q w q') :
      Step ⟨rx, w :: tx, f, .listening none q⟩ ⟨rx, tx, f, .listening (some w) q'⟩
  | echo {rx tx : List Word} {f w : Word} {q : Resync.Progress Word} (h : rx.length < b.depth) :
      Step ⟨rx, tx, f, .listening (some w) q⟩ ⟨rx ++ [w], tx, f, echoed q⟩
  | application {rx tx : List Word} {f w vectorTable sp entry : Word} :
      Step ⟨rx, w :: tx, f, .started vectorTable sp entry⟩ ⟨rx, tx, f, .started vectorTable sp entry⟩

/-- Core 0, with core 1 on the other side. -/
def machine : Machine Unit Op.Answer State where
  access _ := b.access
  env := b.Step

end Board

end Multicore
