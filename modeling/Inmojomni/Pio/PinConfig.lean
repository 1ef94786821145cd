import Inmojomni.Fields
import Inmojomni.Pio.Coexist
import Inmojomni.Pio.Run

/-!
# The pin configuration of a state machine

Four methods read PINCTRL, change some of its seven fields and write it back, and two methods
write EXECCTRL. `pinConfig_eq` says what is in the two registers after any sequence of methods:
every field holds what the last method that has it as its own wrote there, cut to the width of
the field, and a field that no method has written is as it was.
-/

open Mmio Effect

namespace Pio

/-! ### The fields -/

/-- PINCTRL. -/
structure PinCtrl where
  sidesetCount : BitVec 3
  setCount : BitVec 3
  outCount : BitVec 6
  inBase : BitVec 5
  sidesetBase : BitVec 5
  setBase : BitVec 5
  outBase : BitVec 5
  deriving DecidableEq, Repr

/-- The fields in the register. -/
def PinCtrl.read (pinctrl : Word) : PinCtrl where
  sidesetCount := pinctrl.extractLsb' 29 3
  setCount := pinctrl.extractLsb' 26 3
  outCount := pinctrl.extractLsb' 20 6
  inBase := pinctrl.extractLsb' 15 5
  sidesetBase := pinctrl.extractLsb' 10 5
  setBase := pinctrl.extractLsb' 5 5
  outBase := pinctrl.extractLsb' 0 5

/-- The fields of EXECCTRL that the driver writes. -/
structure ExecCtrl where
  sideEn : Bool
  sidePindir : Bool
  jmpPin : BitVec 5
  wrap : Wrap
  deriving DecidableEq, Repr

/-- The fields in the register. -/
def ExecCtrl.read (execctrl : Word) : ExecCtrl where
  sideEn := execctrl.getLsbD 30
  sidePindir := execctrl.getLsbD 29
  jmpPin := execctrl.extractLsb' 24 5
  wrap := Wrap.read execctrl

/-! ### What a method writes -/

namespace Method

def sidesetCount? : Method → Option (BitVec 3)
  | load p => some (BitVec.ofInt 3 (Asm.sBits p.sideCount p.sideOpt))
  | _ => none

def setCount? : Method → Option (BitVec 3)
  | setSetPins _ count => some (BitVec.ofInt 3 count)
  | _ => none

def outCount? : Method → Option (BitVec 6)
  | setOutPins _ count => some (BitVec.ofInt 6 count)
  | _ => none

def sidesetBase? : Method → Option (BitVec 5)
  | setSidesetPins base => some (BitVec.ofInt 5 base)
  | _ => none

def setBase? : Method → Option (BitVec 5)
  | setSetPins base _ => some (BitVec.ofInt 5 base)
  | _ => none

def outBase? : Method → Option (BitVec 5)
  | setOutPins base _ => some (BitVec.ofInt 5 base)
  | _ => none

def sideEn? : Method → Option Bool
  | load p => some p.sideOpt
  | _ => none

def sidePindir? : Method → Option Bool
  | load p => some p.sidePindirs
  | _ => none

/-- `load` clears the jump pin. -/
def jmpPin? : Method → Option (BitVec 5)
  | load _ => some 0
  | setJmpPin gpio => some (BitVec.ofInt 5 gpio)
  | _ => none

def wrap? : Method → Option Wrap
  | load p => some ⟨BitVec.ofInt 5 ((p.len : ℤ) - 1), 0⟩
  | _ => none

end Method

/-- Each field as its last writer leaves it. No method writes IN_BASE. -/
def PinCtrl.lastWriter (p : PinCtrl) (ops : List Method) : PinCtrl where
  sidesetCount := lastWrite Method.sidesetCount? p.sidesetCount ops
  setCount := lastWrite Method.setCount? p.setCount ops
  outCount := lastWrite Method.outCount? p.outCount ops
  inBase := p.inBase
  sidesetBase := lastWrite Method.sidesetBase? p.sidesetBase ops
  setBase := lastWrite Method.setBase? p.setBase ops
  outBase := lastWrite Method.outBase? p.outBase ops

/-- Each field as its last writer leaves it. A jump pin is no writer of the others. -/
def ExecCtrl.lastWriter (e : ExecCtrl) (ops : List Method) : ExecCtrl where
  sideEn := lastWrite Method.sideEn? e.sideEn ops
  sidePindir := lastWrite Method.sidePindir? e.sidePindir ops
  jmpPin := lastWrite Method.jmpPin? e.jmpPin ops
  wrap := lastWrite Method.wrap? e.wrap ops

theorem PinCtrl.lastWriter_cons (p : PinCtrl) (op : Method) (ops : List Method) :
    p.lastWriter (op :: ops) = (p.lastWriter [op]).lastWriter ops := by
  simp only [lastWriter, ← lastWrite_append, List.singleton_append]

theorem ExecCtrl.lastWriter_cons (e : ExecCtrl) (op : Method) (ops : List Method) :
    e.lastWriter (op :: ops) = (e.lastWriter [op]).lastWriter ops := by
  simp only [lastWriter, ← lastWrite_append, List.singleton_append]

/-! ### One method -/

/-- The operands of the driver, as values of fields. -/
theorem ofInt_land_3 (v : ℤ) : BitVec.ofInt 32 (Int.land v 0x7) = (BitVec.ofInt 3 v).setWidth 32 :=
  BitVec.ofInt_land (w := 3) v (by decide)

theorem ofInt_land_5 (v : ℤ) : BitVec.ofInt 32 (Int.land v 0x1F) = (BitVec.ofInt 5 v).setWidth 32 :=
  BitVec.ofInt_land (w := 5) v (by decide)

theorem ofInt_land_6 (v : ℤ) : BitVec.ofInt 32 (Int.land v 0x3F) = (BitVec.ofInt 6 v).setWidth 32 :=
  BitVec.ofInt_land (w := 6) v (by decide)

/-- The side-set width goes to the top of the register, without a mask: what does not fit is
shifted out. -/
theorem ofInt_shiftLeft_29 (v : ℤ) :
    BitVec.ofInt 32 v <<< 29 = (BitVec.ofInt 3 v).setWidth 32 <<< 29 := by
  rw [← BitVec.ofInt_and (n := 32) v (by decide : 3 ≤ 32)]
  refine BitVec.eq_of_getLsbD_eq fun i hi => ?_
  have hmask : ∀ i : Fin 3, (BitVec.ofNat 32 (2 ^ 3 - 1)).getLsbD i = true := by decide
  rw [BitVec.getLsbD_shiftLeft, BitVec.getLsbD_shiftLeft, BitVec.getLsbD_and]
  by_cases h : i < 29
  · simp [h]
  · rw [hmask ⟨i - 29, by omega⟩, Bool.and_true]

namespace Method

variable (m : StateMachine) (op : Method) (s : Regs)

/-- What one method does to PINCTRL. -/
theorem read_pinctrl : PinCtrl.read (op.effect m s (m.block.reg (.pinctrl m.sm)))
    = (PinCtrl.read (s (m.block.reg (.pinctrl m.sm)))).lastWriter [op] := by
  cases op
  case' load p =>
    rw [effect, StateMachine.putProgram, m.put_self, m.put_of_ne (by simp), m.putCode_of_ne (by simp),
      Register.kept, BitVec.and_allOnes, StateMachine.loadPinctrl, ofInt_shiftLeft_29]
  case' setSetPins base count =>
    rw [effect, m.put_self, Register.kept, BitVec.and_allOnes, ofInt_land_3, ofInt_land_5]
  case' setOutPins base count =>
    rw [effect, m.put_self, Register.kept, BitVec.and_allOnes, ofInt_land_6, ofInt_land_5,
      ← BitVec.shiftLeft_zero ((BitVec.ofInt 5 base).setWidth 32)]
  case' setSidesetPins base =>
    rw [effect, m.put_self, Register.kept, BitVec.and_allOnes, ofInt_land_5]
  case load | setSetPins | setOutPins | setSidesetPins =>
    simp (disch := decide) only [PinCtrl.read, BitVec.extractLsb'_or,
      BitVec.extractLsb'_and_not_of_eq_zero, BitVec.extractLsb'_and_not_of_eq_allOnes,
      BitVec.extractLsb'_setWidth_shiftLeft, BitVec.extractLsb'_setWidth_shiftLeft_of_disjoint,
      BitVec.zero_or, BitVec.or_zero]
    rfl
  all_goals
    rw [effect_of_writes m (by simp [writes])]
    rfl

/-- `load` wraps from the last instruction to the first, whatever the side-set. -/
theorem read_loadExecctrl (p : Asm) : ExecCtrl.read (StateMachine.loadExecctrl p &&& 0x7FFFFFFF) =
    ⟨p.sideOpt, p.sidePindirs, 0, ⟨BitVec.ofInt 5 ((p.len : ℤ) - 1), 0⟩⟩ := by
  have htop : BitVec.ofInt 32 ((p.len : ℤ) - 1) &&& 0x1F
      = (BitVec.ofInt 5 ((p.len : ℤ) - 1)).setWidth 32 := BitVec.ofInt_and (w := 5) _ (by decide)
  have hkept : (0x7FFFFFFF : Word) = ~~~0x80000000#32 := by decide
  obtain ⟨h30, h29⟩ := getLsbD_loadExecctrl p
  rw [ExecCtrl.read, hkept, BitVec.getLsbD_and, BitVec.getLsbD_and, h30, h29, Wrap.read]
  simp (disch := decide) only [BitVec.extractLsb'_and_not_of_eq_zero]
  rw [StateMachine.loadExecctrl, htop]
  cases p.sideOpt <;> cases p.sidePindirs <;>
    simp (disch := decide) [BitVec.extractLsb'_or, BitVec.extractLsb'_setWidth_shiftLeft,
      BitVec.extractLsb'_setWidth_shiftLeft_of_disjoint]

/-- What one method does to EXECCTRL. -/
theorem read_execctrl : ExecCtrl.read (op.effect m s (m.block.reg (.execctrl m.sm)))
    = (ExecCtrl.read (s (m.block.reg (.execctrl m.sm)))).lastWriter [op] := by
  cases op with
  | load p =>
    rw [effect, StateMachine.putProgram, m.put_of_ne (by simp), m.put_self, Register.kept,
      read_loadExecctrl]
    rfl
  | setJmpPin gpio =>
    have hkept : (0x7FFFFFFF : Word) = ~~~0x80000000#32 := by decide
    rw [effect, m.put_self, Register.kept, ofInt_land_5, hkept]
    simp (disch := decide) only [ExecCtrl.read, Wrap.read, BitVec.extractLsb'_or,
      BitVec.extractLsb'_and_not_of_eq_zero, BitVec.extractLsb'_and_not_of_eq_allOnes,
      BitVec.extractLsb'_setWidth_shiftLeft, BitVec.extractLsb'_setWidth_shiftLeft_of_disjoint,
      BitVec.zero_or, BitVec.or_zero]
    have hbit : ∀ (x : Word) (i : ℕ), i = 30 ∨ i = 29 → ((x &&& ~~~(0x1F#32 <<< 24) |||
        (BitVec.ofInt 5 gpio).setWidth 32 <<< 24) &&& ~~~0x80000000#32).getLsbD i
          = x.getLsbD i := by
      rintro x i (rfl | rfl) <;> simp
    rw [hbit _ 30 (.inl rfl), hbit _ 29 (.inr rfl)]
    rfl
  | _ =>
    rw [effect_of_writes m (by simp [writes])]
    rfl

/-- What several do to it. -/
theorem read_pinctrl_foldl (ops : List Method) :
    PinCtrl.read (ops.foldl (fun s op => op.effect m s) s (m.block.reg (.pinctrl m.sm)))
      = (PinCtrl.read (s (m.block.reg (.pinctrl m.sm)))).lastWriter ops := by
  induction ops generalizing s with
  | nil => rfl
  | cons op ops ih => rw [List.foldl_cons, ih, read_pinctrl, ← PinCtrl.lastWriter_cons]

theorem read_execctrl_foldl (ops : List Method) :
    ExecCtrl.read (ops.foldl (fun s op => op.effect m s) s (m.block.reg (.execctrl m.sm)))
      = (ExecCtrl.read (s (m.block.reg (.execctrl m.sm)))).lastWriter ops := by
  induction ops generalizing s with
  | nil => rfl
  | cons op ops ih => rw [List.foldl_cons, ih, read_execctrl, ← ExecCtrl.lastWriter_cons]

end Method

/-! ### Any sequence of methods -/

/-- **The last writer wins.** Any sequence of methods, with any arguments, ends in one state, in
which each field of PINCTRL and EXECCTRL holds what the last method that writes it wrote, cut to its
width, and what it held before where no method writes it. -/
theorem pinConfig_eq (m : StateMachine) (ops : List Method) (r : Regs) : ∃ r' : Regs,
    (∀ r₁, Exec m.hw.access (Prog.forEach (Method.run m) ops) r () r₁ ↔ r₁ = r') ∧
    PinCtrl.read (r' (m.block.reg (.pinctrl m.sm)))
      = (PinCtrl.read (r (m.block.reg (.pinctrl m.sm)))).lastWriter ops ∧
    ExecCtrl.read (r' (m.block.reg (.execctrl m.sm)))
      = (ExecCtrl.read (r (m.block.reg (.execctrl m.sm)))).lastWriter ops := by
  refine ⟨ops.foldl (fun s op => op.effect m s) r, fun _ => Method.exec_forEach_run m, ?_, ?_⟩
  · exact Method.read_pinctrl_foldl m r ops
  · exact Method.read_execctrl_foldl m r ops

/-- A program is loaded over another one whose pins are configured; arguments out of range are
cut. -/
theorem pinConfig_eq_reload : ∃ r' : Regs,
    let m : StateMachine := ⟨.pio0, 0⟩
    let ops : List Method := [.load Asm.init, .setSetPins 33 (-1),
      .load (Asm.init.sideSet 1 false false), .setJmpPin 48]
    Exec m.hw.access (Prog.forEach (Method.run m) ops) (fun _ => BitVec.allOnes 32) () r' ∧
    PinCtrl.read (r' (m.block.reg (.pinctrl m.sm))) = ⟨1, 7, 63, 31, 31, 1, 31⟩ ∧
    ExecCtrl.read (r' (m.block.reg (.execctrl m.sm))) = ⟨false, false, 16, ⟨31, 0⟩⟩ := by
  obtain ⟨r', hrun, hpin, hexec⟩ := pinConfig_eq ⟨.pio0, 0⟩ [.load Asm.init, .setSetPins 33 (-1),
    .load (Asm.init.sideSet 1 false false), .setJmpPin 48] fun _ => BitVec.allOnes 32
  exact ⟨r', (hrun r').mpr rfl, hpin, hexec⟩

end Pio
