import Inmojomni.Effect.Prog

/-!
# Memory-mapped I/O primitives

Everything the SDK does funnels through volatile loads and stores, each one a single
instruction, never elided and never reordered. So firmware code is a program over these
operations, and a run of it is the sequence of accesses it makes: `Firmware α`.

What an access does is the business of the device behind the address. The models of devices
are elsewhere: a register file with atomic aliases, the memory of the RTT ring, the inter-core
FIFO, a hardware spinlock.
-/

/-- A machine word, and an address. -/
abbrev Word := BitVec 32

/-- A byte of memory. -/
abbrev Byte := BitVec 8

namespace Mmio

/-- The functions written in assembly that the SDK calls. -/
inductive External
  | picoSev
  | readMcycle
  | core1MetaWord (i : Word)
  deriving DecidableEq, Repr

/-- An access to the bus, or a call of a function written in assembly. -/
inductive Op
  | read32 (addr : Word)
  | write32 (addr value : Word)
  | read8 (addr : Word)
  | write8 (addr : Word) (value : Byte)
  | external (f : External)
  deriving DecidableEq, Repr

/-- What an operation answers. -/
def Op.Answer : Op → Type
  | read32 _ => Word
  | write32 _ _ => Unit
  | read8 _ => Byte
  | write8 _ _ => Unit
  | external .picoSev => Unit
  | external .readMcycle => Word
  | external (.core1MetaWord _) => Word

/-- Firmware code. -/
abbrev Firmware (α : Type) := Effect.Prog Op.Answer α

@[simp] theorem bind_eq {α β : Type} (p : Firmware α) (f : α → Firmware β) :
    p >>= f = Effect.Prog.bind p f := rfl

/-! RP2040 atomic register aliases (datasheet §2.1.2): writing to BASE + alias performs the
bitwise op in hardware, race-free. -/

def xorAlias : Word := 0x1000

def setAlias : Word := 0x2000

def clrAlias : Word := 0x3000

def read32 (addr : Word) : Firmware Word := Effect.Prog.call (Op.read32 addr)

def write32 (addr value : Word) : Firmware Unit := Effect.Prog.call (Op.write32 addr value)

def read8 (addr : Word) : Firmware Byte := Effect.Prog.call (Op.read8 addr)

def write8 (addr : Word) (value : Byte) : Firmware Unit :=
  Effect.Prog.call (Op.write8 addr value)

def write32Set (addr mask : Word) : Firmware Unit := write32 (addr + setAlias) mask

def write32Clr (addr mask : Word) : Firmware Unit := write32 (addr + clrAlias) mask

def write32Xor (addr mask : Word) : Firmware Unit := write32 (addr + xorAlias) mask

end Mmio
