import Inmojomni.Bits

/-!
# The PIO assembler

`Asm` is a PIO program under construction: at most 32 instruction words, the side-set
configuration, and the bookkeeping for forward labels. `future()` hands out a negative
handle, `bind()` places it at the current address and patches the jumps that were emitted
before, and a jump to a handle that is already bound resolves at once.

Firmware is built without bounds checks, so an index outside its array has no meaning: the
methods that index an array answer `none` there. Everything else is total, with one gap the
language leaves open: the value of a left shift by a negative count, which `_emit` computes
when the side-set declaration takes more than the five delay bits. `ShiftModel` stands for
that value, and nothing proved here depends on it.

Mojo's `Int` is `ℤ`: nothing in the assembler comes near the ends of a 32-bit integer.
-/

namespace Pio

/-- What `Int.__lshift__` answers for a negative count. -/
class ShiftModel where
  negative : ℤ → ℤ → ℤ

/-- `x << n`. -/
def lshift [ShiftModel] (x n : ℤ) : ℤ := if 0 ≤ n then x * 2 ^ n.toNat else ShiftModel.negative x n

/-- A PIO program under construction (max 32 instructions). -/
structure Asm where
  code : Vector (BitVec 16) 32
  len : ℕ
  /-- side-set configuration (applies to the whole program) -/
  sideCount : ℤ
  sideOpt : Bool
  sidePindirs : Bool
  /-- forward labels: handle -> bound address (-1 = unbound) -/
  fwAddr : Vector ℤ 8
  fwUsed : ℕ
  /-- per-instruction fixup table (value = handle index + 1) -/
  fixup : Vector ℕ 32
  pending : ℤ
  len_le : len ≤ 32

namespace Asm

/-- `Asm()`. -/
def init : Asm where
  code := Vector.replicate 32 0
  len := 0
  sideCount := 0
  sideOpt := false
  sidePindirs := false
  fwAddr := Vector.replicate 8 (-1)
  fwUsed := 0
  fixup := Vector.replicate 32 0
  pending := 0
  len_le := by omega

/-! ### Labels -/

/-- Reserve `count` of the 5 delay bits for side-set. -/
def sideSet (a : Asm) (count : ℤ) (optional pindirs : Bool) : Asm :=
  { a with
    sideCount := Int.land count 0x7
    sideOpt := optional
    sidePindirs := pindirs }

/-- Current address, a backward jump target. -/
def label (a : Asm) : ℤ := a.len

/-- Declare a label to `bind` later; the handle is negative. -/
def future (a : Asm) : Asm × ℤ := ({ a with fwUsed := a.fwUsed + 1 }, -((a.fwUsed : ℤ) + 1))

/-- `-handle - 1`, as an index of `_fw_addr`. -/
def fwIndex (handle : ℤ) : Option (Fin 8) :=
  if h : 0 ≤ -handle - 1 ∧ -handle - 1 < 8 then some ⟨(-handle - 1).toNat, by omega⟩ else none

/-- One round of `bind`'s loop: a jump at `i` that waits for handle index `id` gets the
current address. -/
def patch (id : Fin 8) (a : Asm) (i : ℕ) : Asm :=
  if a.fixup[i]?.getD 0 = id.val + 1 then
    { a with
      code := a.code.setIfInBounds i
        ((a.code[i]?.getD 0 &&& ~~~0x1F#16) ||| BitVec.ofInt 16 (Int.land a.len 0x1F))
      fixup := a.fixup.setIfInBounds i 0
      pending := a.pending - 1 }
  else a

/-- Place a `future` label here and patch earlier jumps to it. -/
def bind (a : Asm) (handle : ℤ) : Option Asm := do
  let id ← fwIndex handle
  let a := { a with fwAddr := a.fwAddr.set id (a.len : ℤ) }
  pure ((List.range a.len).foldl (patch id) a)

/-- Number of forward jumps still waiting for a `bind`. -/
def unresolved (a : Asm) : ℤ := a.pending

/-! ### Emitting -/

/-- How many of the bits 12:8 the side-set takes: its width, and one more for the enable bit
when it is optional. -/
def sBits (sideCount : ℤ) (sideOpt : Bool) : ℤ := sideCount + (if sideOpt then 1 else 0)

/-- The delay/side-set field of an instruction: `[enable?][side-set bits][delay bits]`. -/
def delayField [ShiftModel] (sideCount : ℤ) (sideOpt : Bool) (delay side : ℤ) : ℤ :=
  let field := Int.land delay (lshift 1 (5 - sBits sideCount sideOpt) - 1)
  if 0 < sideCount ∧ 0 ≤ side then
    let sv := Int.land side (lshift 1 sideCount - 1)
    if sideOpt then Int.lor field (Int.lor 0x10 (lshift sv (4 - sideCount)))
    else Int.lor field (lshift sv (5 - sideCount))
  else field

/-- The field as bits 12:8 of an instruction word. -/
def delayBits [ShiftModel] (sideCount : ℤ) (sideOpt : Bool) (delay side : ℤ) : BitVec 16 :=
  BitVec.ofInt 16 (Int.land (delayField sideCount sideOpt delay side) 0x1F) <<< 8

/-- Without side-set and delay, bits 12:8 are clear. -/
theorem delayBits_plain [ShiftModel] : delayBits 0 false 0 (-1) = 0 := by
  have hlimit : lshift 1 (5 - sBits 0 false) = 32 := rfl
  rw [delayBits, delayField, hlimit, if_neg (by decide)]
  decide

/-- Append one instruction word. -/
def emit [ShiftModel] (a : Asm) (instr : BitVec 16) (delay side : ℤ) : Option Asm :=
  if h : a.len < 32 then
    some { a with
      code := a.code.set a.len (instr ||| delayBits a.sideCount a.sideOpt delay side)
      len := a.len + 1
      len_le := h }
  else none

/-- The low bits of a jump; a handle that is not bound yet leaves a fixup at the address the
jump will have. -/
def jmpTarget (a : Asm) (target : ℤ) : Option (Asm × BitVec 16) :=
  if target < 0 then do
    let id ← fwIndex target
    if 0 ≤ a.fwAddr[id] then
      pure (a, BitVec.ofInt 16 (Int.land a.fwAddr[id] 0x1F))
    else if h : a.len < 32 then
      pure ({ a with
        fixup := a.fixup.set a.len (id.val + 1)
        pending := a.pending + 1 }, BitVec.ofInt 16 (Int.land 0 0x1F))
    else none
  else pure (a, BitVec.ofInt 16 (Int.land target 0x1F))

/-- `value & 0x1F`, as the low bits of an instruction. -/
def operand (value : ℤ) : BitVec 16 := BitVec.ofInt 16 (Int.land value 0x1F)

/-- The operand field holds the value modulo 32, whatever its sign. -/
theorem operand_eq (v : ℤ) : operand v = BitVec.ofNat 16 (v % 32).toNat := by
  have hcast : v % 32 = (((v % 32).toNat : ℕ) : ℤ) := (Int.toNat_of_nonneg (by omega)).symm
  rw [operand, show (0x1F : ℤ) = 2 ^ 5 - 1 by norm_num, Int.land_two_pow_sub_one,
    show (2 : ℤ) ^ 5 = 32 by norm_num, hcast]
  rfl

/-- The jump methods: resolve the target, then emit `instr` with it. -/
def emitJmp [ShiftModel] (a : Asm) (instr : BitVec 16) (target delay side : ℤ) : Option Asm := do
  let (a, t) ← a.jmpTarget target
  a.emit (instr ||| t) delay side

/-- The default of `side`, an instruction without side-set; `delay` defaults to 0. -/
def noSide : ℤ := -1

section Methods

variable [ShiftModel] (a : Asm)

/-! SET (§3.4.10): drive pins / load registers with a constant. -/

def setPins (value : ℤ) (delay side : ℤ) : Option Asm :=
  a.emit (0xE000#16 ||| operand value) delay side

def setPindirs (value : ℤ) (delay side : ℤ) : Option Asm :=
  a.emit (0xE080#16 ||| operand value) delay side

def setX (value : ℤ) (delay side : ℤ) : Option Asm :=
  a.emit (0xE020#16 ||| operand value) delay side

def setY (value : ℤ) (delay side : ℤ) : Option Asm :=
  a.emit (0xE040#16 ||| operand value) delay side

/-! JMP (§3.4.2): targets accept `label` addresses and `future` handles alike. -/

def jmp (target : ℤ) (delay side : ℤ) : Option Asm :=
  a.emitJmp 0x0000#16 target delay side

def jmpNotX (target : ℤ) (delay side : ℤ) : Option Asm :=
  a.emitJmp 0x0020#16 target delay side

/-- Jump while X non-zero, post-decrement. -/
def jmpXDec (target : ℤ) (delay side : ℤ) : Option Asm :=
  a.emitJmp 0x0040#16 target delay side

def jmpNotY (target : ℤ) (delay side : ℤ) : Option Asm :=
  a.emitJmp 0x0060#16 target delay side

def jmpYDec (target : ℤ) (delay side : ℤ) : Option Asm :=
  a.emitJmp 0x0080#16 target delay side

def jmpPin (target : ℤ) (delay side : ℤ) : Option Asm :=
  a.emitJmp 0x00C0#16 target delay side

/-! WAIT (§3.4.3). -/

/-- Stall until absolute GPIO `gpio` reads `polarity`. -/
def waitGpio (polarity gpio : ℤ) (delay side : ℤ) : Option Asm :=
  a.emit (0x2000#16 ||| (BitVec.ofInt 16 (Int.land polarity 1) <<< 7) ||| operand gpio) delay side

/-! IN / PUSH (§3.4.4, §3.4.6): registers -> ISR -> RX FIFO. -/

/-- Shift `count` bits (1..32) of X into the ISR. -/
def inX (count : ℤ) (delay side : ℤ) : Option Asm :=
  a.emit (0x4020#16 ||| operand count) delay side

/-- Push the ISR into the RX FIFO (stall while full). -/
def pushBlock (delay side : ℤ) : Option Asm :=
  a.emit 0x8020#16 delay side

/-! OUT / PULL (§3.4.5, §3.4.7): FIFO -> shift register -> pins. -/

def outPins (count : ℤ) (delay side : ℤ) : Option Asm :=
  a.emit (0x6000#16 ||| operand count) delay side

def outX (count : ℤ) (delay side : ℤ) : Option Asm :=
  a.emit (0x6020#16 ||| operand count) delay side

def pullBlock (delay side : ℤ) : Option Asm :=
  a.emit 0x80A0#16 delay side

def pullNoblock (delay side : ℤ) : Option Asm :=
  a.emit 0x8080#16 delay side

/-! MOV / NOP (§3.4.8). -/

def movPinsX (delay side : ℤ) : Option Asm :=
  a.emit 0xA001#16 delay side

def movXPins (delay side : ℤ) : Option Asm :=
  a.emit 0xA020#16 delay side

/-- X = ~NULL, the start value for a `jmpXDec` down-counter. -/
def movXNotNull (delay side : ℤ) : Option Asm :=
  a.emit 0xA02B#16 delay side

/-- mov y, y -/
def nop (delay side : ℤ) : Option Asm :=
  a.emit 0xA042#16 delay side

end Methods

end Asm

/-! ### The emit methods as one family -/

/-- An emit method with its operands, as it is called. -/
inductive Instr
  | setPins (value : ℤ)
  | setPindirs (value : ℤ)
  | setX (value : ℤ)
  | setY (value : ℤ)
  | jmp (target : ℤ)
  | jmpNotX (target : ℤ)
  | jmpXDec (target : ℤ)
  | jmpNotY (target : ℤ)
  | jmpYDec (target : ℤ)
  | jmpPin (target : ℤ)
  | waitGpio (polarity gpio : ℤ)
  | inX (count : ℤ)
  | pushBlock
  | outPins (count : ℤ)
  | outX (count : ℤ)
  | pullBlock
  | pullNoblock
  | movPinsX
  | movXPins
  | movXNotNull
  | nop
  deriving DecidableEq, Repr

namespace Instr

/-- Call the method. -/
def run [ShiftModel] (i : Instr) (delay side : ℤ) (a : Asm) : Option Asm :=
  match i with
  | setPins v => a.setPins v delay side
  | setPindirs v => a.setPindirs v delay side
  | setX v => a.setX v delay side
  | setY v => a.setY v delay side
  | jmp t => a.jmp t delay side
  | jmpNotX t => a.jmpNotX t delay side
  | jmpXDec t => a.jmpXDec t delay side
  | jmpNotY t => a.jmpNotY t delay side
  | jmpYDec t => a.jmpYDec t delay side
  | jmpPin t => a.jmpPin t delay side
  | waitGpio p g => a.waitGpio p g delay side
  | inX c => a.inX c delay side
  | pushBlock => a.pushBlock delay side
  | outPins c => a.outPins c delay side
  | outX c => a.outX c delay side
  | pullBlock => a.pullBlock delay side
  | pullNoblock => a.pullNoblock delay side
  | movPinsX => a.movPinsX delay side
  | movXPins => a.movXPins delay side
  | movXNotNull => a.movXNotNull delay side
  | nop => a.nop delay side

/-- The operand of a jump. -/
def target? : Instr → Option ℤ
  | jmp t | jmpNotX t | jmpXDec t | jmpNotY t | jmpYDec t | jmpPin t => some t
  | _ => none

/-- The word a method passes to `_emit`, without the target of a jump. -/
def word : Instr → BitVec 16
  | setPins v => 0xE000#16 ||| Asm.operand v
  | setPindirs v => 0xE080#16 ||| Asm.operand v
  | setX v => 0xE020#16 ||| Asm.operand v
  | setY v => 0xE040#16 ||| Asm.operand v
  | jmp _ => 0x0000#16
  | jmpNotX _ => 0x0020#16
  | jmpXDec _ => 0x0040#16
  | jmpNotY _ => 0x0060#16
  | jmpYDec _ => 0x0080#16
  | jmpPin _ => 0x00C0#16
  | waitGpio p g => 0x2000#16 ||| (BitVec.ofInt 16 (Int.land p 1) <<< 7) ||| Asm.operand g
  | inX c => 0x4020#16 ||| Asm.operand c
  | pushBlock => 0x8020#16
  | outPins c => 0x6000#16 ||| Asm.operand c
  | outX c => 0x6020#16 ||| Asm.operand c
  | pullBlock => 0x80A0#16
  | pullNoblock => 0x8080#16
  | movPinsX => 0xA001#16
  | movXPins => 0xA020#16
  | movXNotNull => 0xA02B#16
  | nop => 0xA042#16

/-- The methods that are not jumps only emit their word. -/
theorem run_of_target_eq_none [ShiftModel] {i : Instr} (h : i.target? = none) (delay side : ℤ)
    (a : Asm) : i.run delay side a = a.emit i.word delay side := by
  cases i <;> first | rfl | cases h

/-- The jump methods resolve their target first. -/
theorem run_of_target_eq_some [ShiftModel] {i : Instr} {t : ℤ} (h : i.target? = some t)
    (delay side : ℤ) (a : Asm) : i.run delay side a = a.emitJmp i.word t delay side := by
  cases i <;> first | cases h; rfl | cases h

end Instr

end Pio
