import Inmojomni.Pio.Asm
import Inmojomni.Mmio
import Mathlib.Tactic.FinCases

/-!
# Decoding PIO instructions

The instruction encoding of the RP2040 datasheet (§3.4.1), read the other way round: `decode`
splits an instruction word into its fields, and `Isa.method?` names the assembler method that
the fields belong to. What bits 12:8 mean is not in the word but in the registers of the state
machine: `SideConfig.read` takes it from PINCTRL and EXECCTRL.

`decode_word` is the half of the round trip that does not depend on the side-set: the word of
a method decodes to the method, with its operands cut to their fields.
-/

namespace Pio

/-! ### Instructions -/

/-- An instruction by its fields, bits 12:8 apart. -/
inductive Isa
  | jmp (condition : BitVec 3) (address : BitVec 5)
  | wait (polarity : Bool) (source : BitVec 2) (index : BitVec 5)
  | inp (source : BitVec 3) (bitCount : BitVec 5)
  | out (destination : BitVec 3) (bitCount : BitVec 5)
  | push (ifFull block : Bool)
  | pull (ifEmpty block : Bool)
  | mov (destination : BitVec 3) (op : BitVec 2) (source : BitVec 3)
  | irq (clear wait : Bool) (index : BitVec 5)
  | set (destination : BitVec 3) (data : BitVec 5)
  deriving DecidableEq, Repr

/-- The instruction in a word; bits 15:13 are the opcode. -/
def decode (w : BitVec 16) : Isa :=
  let hi := w.extractLsb' 5 3
  let lo := w.extractLsb' 0 5
  match w.extractLsb' 13 3 with
  | 0 => .jmp hi lo
  | 1 => .wait (w.getLsbD 7) (w.extractLsb' 5 2) lo
  | 2 => .inp hi lo
  | 3 => .out hi lo
  | 4 => if w.getLsbD 7 then .pull (w.getLsbD 6) (w.getLsbD 5) else .push (w.getLsbD 6) (w.getLsbD 5)
  | 5 => .mov hi (w.extractLsb' 3 2) (w.extractLsb' 0 3)
  | 6 => .irq (w.getLsbD 6) (w.getLsbD 5) lo
  | _ => .set hi lo

/-- A bit count of 32 is encoded as 0. -/
def bitCount (c : BitVec 5) : ℤ := if c = 0 then 32 else c.toNat

/-- The assembler method of an instruction, for the instructions that have one. -/
def Isa.method? : Isa → Option Instr
  | jmp 0 a => some (.jmp a.toNat)
  | jmp 1 a => some (.jmpNotX a.toNat)
  | jmp 2 a => some (.jmpXDec a.toNat)
  | jmp 3 a => some (.jmpNotY a.toNat)
  | jmp 4 a => some (.jmpYDec a.toNat)
  | jmp 6 a => some (.jmpPin a.toNat)
  | wait p 0 i => some (.waitGpio p.toNat i.toNat)
  | inp 1 c => some (.inX (bitCount c))
  | out 0 c => some (.outPins (bitCount c))
  | out 1 c => some (.outX (bitCount c))
  | push false true => some .pushBlock
  | pull false true => some .pullBlock
  | pull false false => some .pullNoblock
  | mov 0 0 1 => some .movPinsX
  | mov 1 0 0 => some .movXPins
  | mov 1 1 3 => some .movXNotNull
  | mov 2 0 2 => some .nop
  | set 0 v => some (.setPins v.toNat)
  | set 1 v => some (.setX v.toNat)
  | set 2 v => some (.setY v.toNat)
  | set 4 v => some (.setPindirs v.toNat)
  | _ => none

/-! ### Words of the assembler -/

namespace Instr

/-- The word of a method with its operand in place, without delay and side-set. -/
def fullWord (i : Instr) : BitVec 16 :=
  match i.target? with
  | some t => i.word ||| Asm.operand t
  | none => i.word

/-- The method with its operands cut to their fields. -/
def cut : Instr → Instr
  | setPins v => setPins (v % 32)
  | setPindirs v => setPindirs (v % 32)
  | setX v => setX (v % 32)
  | setY v => setY (v % 32)
  | jmp t => jmp (t % 32)
  | jmpNotX t => jmpNotX (t % 32)
  | jmpXDec t => jmpXDec (t % 32)
  | jmpNotY t => jmpNotY (t % 32)
  | jmpYDec t => jmpYDec (t % 32)
  | jmpPin t => jmpPin (t % 32)
  | waitGpio p g => waitGpio (p % 2) (g % 32)
  | inX c => inX (if c % 32 = 0 then 32 else c % 32)
  | outPins c => outPins (if c % 32 = 0 then 32 else c % 32)
  | outX c => outX (if c % 32 = 0 then 32 else c % 32)
  | i => i

/-- The operands fit their fields: 5-bit immediates, GPIOs and targets, shift counts 1..32. -/
def InRange : Instr → Prop
  | setPins v | setPindirs v | setX v | setY v => 0 ≤ v ∧ v < 32
  | jmp t | jmpNotX t | jmpXDec t | jmpNotY t | jmpYDec t | jmpPin t => 0 ≤ t ∧ t < 32
  | waitGpio p g => (0 ≤ p ∧ p < 2) ∧ 0 ≤ g ∧ g < 32
  | inX c | outPins c | outX c => 1 ≤ c ∧ c ≤ 32
  | _ => True

theorem cut_of_inRange {i : Instr} (h : i.InRange) : i.cut = i := by
  cases i <;> simp only [InRange] at h <;> simp only [cut] <;> congr 1 <;> omega

end Instr

/-- A method with one 5-bit operand decodes when it does for each value of the field. -/
theorem decode_operand {b : BitVec 16} {f : ℤ → Instr}
    (h : ∀ k : Fin 32, (decode (b ||| BitVec.ofNat 16 k)).method? = some (f k)) (v : ℤ) :
    (decode (b ||| Asm.operand v)).method? = some (f (v % 32)) := by
  have hlt : (v % 32).toNat < 32 := by omega
  have hk := h ⟨(v % 32).toNat, hlt⟩
  have hcast : (((v % 32).toNat : ℕ) : ℤ) = v % 32 := Int.toNat_of_nonneg (by omega)
  rw [Asm.operand_eq, hk]
  simp only [hcast]

/-- **The word of a method decodes to the method.** -/
theorem Instr.decode_fullWord (i : Instr) : (decode i.fullWord).method? = some i.cut := by
  cases i with
  | setPins v => exact decode_operand (f := .setPins) (by decide) v
  | setPindirs v => exact decode_operand (f := .setPindirs) (by decide) v
  | setX v => exact decode_operand (f := .setX) (by decide) v
  | setY v => exact decode_operand (f := .setY) (by decide) v
  | jmp t => exact decode_operand (b := 0x0000#16) (f := .jmp) (by decide) t
  | jmpNotX t => exact decode_operand (b := 0x0020#16) (f := .jmpNotX) (by decide) t
  | jmpXDec t => exact decode_operand (b := 0x0040#16) (f := .jmpXDec) (by decide) t
  | jmpNotY t => exact decode_operand (b := 0x0060#16) (f := .jmpNotY) (by decide) t
  | jmpYDec t => exact decode_operand (b := 0x0080#16) (f := .jmpYDec) (by decide) t
  | jmpPin t => exact decode_operand (b := 0x00C0#16) (f := .jmpPin) (by decide) t
  | inX c => exact decode_operand (f := fun c => .inX (if c = 0 then 32 else c)) (by decide) c
  | outPins c => exact decode_operand (f := fun c => .outPins (if c = 0 then 32 else c)) (by decide) c
  | outX c => exact decode_operand (f := fun c => .outX (if c = 0 then 32 else c)) (by decide) c
  | waitGpio p g =>
    have hland : Int.land p 1 = p % 2 := Int.land_two_pow_sub_one p 1
    have hword : (waitGpio p g).fullWord
        = 0x2000#16 ||| (BitVec.ofInt 16 (p % 2) <<< 7) ||| Asm.operand g := by
      rw [← hland]
      rfl
    rw [hword]
    -- one word for each polarity
    rcases Int.emod_two_eq_zero_or_one p with hp | hp
    · rw [hp, cut, hp]
      exact decode_operand (f := .waitGpio 0) (by decide) g
    · rw [hp, cut, hp]
      exact decode_operand (f := .waitGpio 1) (by decide) g
  | _ => decide

/-! ### The delay and side-set field -/

/-- How a state machine reads bits 12:8: PINCTRL.SIDESET_COUNT, EXECCTRL.SIDE_EN and
EXECCTRL.SIDE_PINDIR. -/
structure SideConfig where
  count : BitVec 3
  en : Bool
  pindir : Bool

/-- The configuration in the registers. -/
def SideConfig.read (pinctrl execctrl : Word) : SideConfig where
  count := pinctrl.extractLsb' 29 3
  en := execctrl.getLsbD 30
  pindir := execctrl.getLsbD 29

/-- The side value in the top `count` bits of the field; with SIDE_EN the first of them says
whether there is one. -/
def SideConfig.side (cfg : SideConfig) (field : ℕ) : Option ℕ :=
  let bits := field / 2 ^ (5 - cfg.count.toNat)
  if cfg.en then
    if bits / 2 ^ (cfg.count.toNat - 1) % 2 = 1 then some (bits % 2 ^ (cfg.count.toNat - 1)) else none
  else some bits

/-- The delay in the bits of the field below the side-set. -/
def SideConfig.delay (cfg : SideConfig) (field : ℕ) : ℕ := field % 2 ^ (5 - cfg.count.toNat)

/-- A decoded instruction: the method, its delay, its side value if it has one, and whether
the side-set drives pin directions. -/
structure Decoded where
  method : Instr
  delay : ℕ
  side : Option ℕ
  pindirs : Bool
  deriving DecidableEq, Repr

/-- Decode an instruction word under a side-set configuration. -/
def decodeWord (cfg : SideConfig) (w : BitVec 16) : Option Decoded :=
  let field := (w.extractLsb' 8 5).toNat
  (decode w).method?.map fun i => ⟨i, cfg.delay field, cfg.side field, cfg.pindir⟩

/-- The instruction does not depend on bits 12:8. -/
theorem decode_congr {w w' : BitVec 16}
    (h : ∀ i, i < 8 ∨ 13 ≤ i → w.getLsbD i = w'.getLsbD i) : decode w = decode w' := by
  have hex : ∀ start len, start + len ≤ 8 ∨ 13 ≤ start →
      w.extractLsb' start len = w'.extractLsb' start len := by
    intro start len hs
    refine BitVec.eq_of_getLsbD_eq fun i hi => ?_
    rw [BitVec.getLsbD_extractLsb', BitVec.getLsbD_extractLsb', h (start + i) (by omega)]
  simp only [decode, hex 13 3 (by omega), hex 5 3 (by omega), hex 0 5 (by omega),
    hex 5 2 (by omega), hex 3 2 (by omega), hex 0 3 (by omega), h 7 (by omega), h 6 (by omega),
    h 5 (by omega)]

end Pio
