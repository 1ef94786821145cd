import Inmojomni.Pio.StateMachine

/-!
# What the methods of a state machine leave in the registers

Every method of `StateMachine` that returns leaves the registers in one definite state, even
where a read answers bits that the hardware drives: `Method.effect`. Each method but `load`
changes at most one register; `load` fills the instruction memory from 0 on, and then writes
EXECCTRL and PINCTRL.
-/

open Mmio Effect

namespace Pio

/-- A method of a state machine, with its arguments. -/
inductive Method
  | construct
  | load (program : Asm)
  | setClkdiv (intPart frac : Word)
  | setSetPins (base count : ℤ)
  | setOutPins (base count : ℤ)
  | setJmpPin (gpio : ℤ)
  | setSidesetPins (base : ℤ)
  | exec (instr : BitVec 16)
  | enable
  | disable
  | restart
  | txPush (value : Word)
  | rxEmpty
  | rxPull
  | pc

namespace Method

/-- Call the method; the answers of the getters are dropped. -/
def run (m : StateMachine) : Method → Firmware Unit
  | construct => m.construct
  | load p => m.load p
  | setClkdiv i f => m.setClkdiv i f
  | setSetPins b c => m.setSetPins b c
  | setOutPins b c => m.setOutPins b c
  | setJmpPin g => m.setJmpPin g
  | setSidesetPins b => m.setSidesetPins b
  | exec i => m.exec i
  | enable => m.enable
  | disable => m.disable
  | restart => m.restart
  | txPush v => m.txPush v
  | rxEmpty => m.rxEmpty.bind fun _ => .ret ()
  | rxPull => m.rxPull.bind fun _ => .ret ()
  | pc => m.pc.bind fun _ => .ret ()

end Method

namespace StateMachine

variable (m : StateMachine) {s s' : Regs} {u : Unit}

/-- The register file of the state machine's chip. -/
abbrev hw : Hardware := m.block.chip.hardware

/-- The registers after a store to a register of the block. -/
def put (r : Register) (v : Word) (s : Regs) : Regs :=
  Function.update s (m.block.reg r) (v &&& r.kept)

@[simp] theorem put_self (r : Register) (v : Word) : m.put r v s (m.block.reg r) = v &&& r.kept :=
  Function.update_self _ _ _

theorem put_of_ne {r r' : Register} (h : r' ≠ r) (v : Word) :
    m.put r v s (m.block.reg r') = s (m.block.reg r') :=
  Function.update_of_ne (m.block.reg_injective.ne h) _ _

theorem exec_put {r : Register} {v : Word} :
    Exec m.hw.access (write32 (m.block.reg r) v) s u s' ↔ s' = m.put r v s := by
  rw [exec_write32 (m.block.plain_reg r), m.block.kept_reg, put]

/-- Reading a register of the block and writing back a function of it. -/
theorem exec_modify_reg {r : Register} {f : Word → Word}
    (hf : ∀ x y : Word, x &&& ~~~r.status = y &&& ~~~r.status → f x &&& r.kept = f y &&& r.kept) :
    Exec m.hw.access ((read32 (m.block.reg r)).bind fun cur => write32 (m.block.reg r) (f cur))
      s u s' ↔ s' = m.put r (f (s (m.block.reg r))) s := by
  rw [exec_modify (m.block.plain_reg r), m.block.kept_reg, put]
  rwa [m.block.status_reg, m.block.kept_reg]

/-- A read whose answer is dropped. -/
theorem exec_read_reg {r : Register} {p : Word → Firmware Unit} (hp : ∀ v, p v = Prog.ret ()) :
    Exec m.hw.access ((read32 (m.block.reg r)).bind p) s u s' ↔ s' = s := by
  rw [exec_bind]
  constructor
  · rintro ⟨v, t, hr, hret⟩
    rw [hp, exec_ret] at hret
    rw [hret.2]
    exact ((exec_read32 (m.block.plain_reg r)).mp hr).1
  · rintro rfl
    refine ⟨s' (m.block.reg r), s', (exec_read32 (m.block.plain_reg r)).mpr ⟨rfl, rfl⟩, ?_⟩
    rw [hp]
    exact exec_ret.mpr ⟨rfl, rfl⟩

/-- The instruction words of a program, as `load` stores them. -/
def putCode (program : Asm) (s : Regs) : Regs :=
  s.storeAll (fun i => m.base + instrMem0Offset + BitVec.ofNat 32 (i * 4))
    (fun i => (program.code[i]?.getD 0).setWidth 32) (List.range' 0 program.len)

/-- What `load` leaves in the registers. -/
def putProgram (program : Asm) (s : Regs) : Regs :=
  let s := m.put (.execctrl m.sm) (loadExecctrl program) (m.putCode program s)
  m.put (.pinctrl m.sm) (loadPinctrl program (s (m.block.reg (.pinctrl m.sm)))) s

end StateMachine

namespace Method

variable (m : StateMachine) {s s' : Regs} {u : Unit}

/-- What a method leaves in the registers. -/
def effect (m : StateMachine) (s : Regs) : Method → Regs
  | construct => Function.update s m.block.chip.resetsReset (s m.block.chip.resetsReset &&&
      ~~~(1#32 <<< (m.block.chip.resetPio0Shift + m.block.index)))
  | load p => m.putProgram p s
  | setClkdiv i f => m.put (.clkdiv m.sm) ((i <<< 16) ||| ((f &&& 0xFF) <<< 8)) s
  | setSetPins b c => m.put (.pinctrl m.sm)
      ((s (m.block.reg (.pinctrl m.sm)) &&& ~~~((7#32 <<< 26) ||| (0x1F#32 <<< 5))) |||
        (BitVec.ofInt 32 (Int.land c 0x7) <<< 26) ||| (BitVec.ofInt 32 (Int.land b 0x1F) <<< 5)) s
  | setOutPins b c => m.put (.pinctrl m.sm)
      ((s (m.block.reg (.pinctrl m.sm)) &&& ~~~0x3F0001F#32) |||
        (BitVec.ofInt 32 (Int.land c 0x3F) <<< 20) ||| BitVec.ofInt 32 (Int.land b 0x1F)) s
  | setJmpPin g => m.put (.execctrl m.sm)
      ((s (m.block.reg (.execctrl m.sm)) &&& ~~~(0x1F#32 <<< 24)) |||
        (BitVec.ofInt 32 (Int.land g 0x1F) <<< 24)) s
  | setSidesetPins b => m.put (.pinctrl m.sm)
      ((s (m.block.reg (.pinctrl m.sm)) &&& ~~~(0x1F#32 <<< 10)) |||
        (BitVec.ofInt 32 (Int.land b 0x1F) <<< 10)) s
  | exec i => m.put (.instr m.sm) (i.setWidth 32) s
  | enable => m.put .ctrl (s (m.block.reg .ctrl) ||| (1#32 <<< m.smWord)) s
  | disable => m.put .ctrl (s (m.block.reg .ctrl) &&& ~~~(1#32 <<< m.smWord)) s
  | restart => m.put .ctrl (s (m.block.reg .ctrl) ||| (1#32 <<< (m.smWord + 4))) s
  | txPush v => m.put (.txf m.sm) v s
  | rxEmpty | rxPull | pc => s

/-- The block comes out of reset; polling RESET_DONE changes nothing. -/
theorem exec_construct :
    Exec m.hw.access m.construct s u s' ↔ s' = construct.effect m s := by
  obtain ⟨hp, hpd⟩ := m.block.chip.plain_resets
  simp only [StateMachine.construct, Prog.bind_eq, Prog.pure_eq, exec_bind, exec_ret]
  constructor
  · rintro ⟨_, t, hw', _, t', hpoll, -, rfl⟩
    rw [exec_poll hpoll, (exec_write32Clr hp).mp hw', effect, Chip.kept_resetsReset,
      BitVec.and_allOnes]
  · rintro rfl
    refine ⟨(), construct.effect m s, (exec_write32Clr hp).mpr ?_, BitVec.allOnes 32, _,
      exec_poll_of_done hpd ?_ ?_, trivial, rfl⟩
    · rw [effect, Chip.kept_resetsReset, BitVec.and_allOnes]
    · rw [BitVec.allOnes_and]
      have hlt : m.block.chip.resetPio0Shift + m.block.index < 32 := by
        have hi := m.block.index_le
        have hs : m.block.chip.resetPio0Shift ≤ 11 := by cases m.block.chip <;> decide
        omega
      refine decide_eq_true fun h => ?_
      have hbit := congrArg (·.getLsbD (m.block.chip.resetPio0Shift + m.block.index)) h
      simp [hlt] at hbit
    · rw [Chip.status_resetsResetDone, BitVec.not_allOnes, BitVec.and_zero, BitVec.and_zero]

theorem exec_pinctrl {f : Word → Word} :
    Exec m.hw.access ((read32 (m.block.reg (.pinctrl m.sm))).bind fun cur =>
      write32 (m.block.reg (.pinctrl m.sm)) (f cur)) s u s' ↔
      s' = m.put (.pinctrl m.sm) (f (s (m.block.reg (.pinctrl m.sm)))) s := by
  refine m.exec_modify_reg fun x y h => ?_
  simp only [Register.status, BitVec.not_zero, BitVec.and_allOnes] at h
  rw [h]

theorem exec_ctrl {f : Word → Word} :
    Exec m.hw.access ((read32 (m.block.reg .ctrl)).bind fun cur =>
      write32 (m.block.reg .ctrl) (f cur)) s u s' ↔
      s' = m.put .ctrl (f (s (m.block.reg .ctrl))) s := by
  refine m.exec_modify_reg fun x y h => ?_
  simp only [Register.status, BitVec.not_zero, BitVec.and_allOnes] at h
  rw [h]

theorem exec_load (program : Asm) :
    Exec m.hw.access (m.load program) s u s' ↔ s' = m.putProgram program s := by
  have hcode : ∀ {t : Regs}, Exec m.hw.access (Prog.forRange (fun i =>
        write32 (m.base + instrMem0Offset + BitVec.ofNat 32 (i * 4))
          ((program.code[i]?.getD 0).setWidth 32)) 0 program.len) s u t ↔
      t = m.putCode program s := by
    intro t
    refine exec_storeAll fun i _ hi => ?_
    have hi32 : i < 32 := by
      have := program.len_le
      omega
    rw [m.base_instrMem hi32, m.block.kept_reg]
    refine ⟨m.block.plain_reg _, ?_⟩
    exact BitVec.setWidth_and_two_pow_sub_one _
  have hpin : ∀ {t : Regs}, Exec m.hw.access ((read32 (m.smReg pinctrlOffset)).bind fun cur =>
        write32 (m.smReg pinctrlOffset) (StateMachine.loadPinctrl program cur)) t u s' ↔
      s' = m.put (.pinctrl m.sm)
        (StateMachine.loadPinctrl program (t (m.block.reg (.pinctrl m.sm)))) t := by
    intro t
    rw [m.smReg_pinctrl]
    exact exec_pinctrl m
  rw [StateMachine.load, Prog.bind_eq, exec_bind]
  constructor
  · rintro ⟨_, t, hc, h⟩
    obtain ⟨_, t', he, hp⟩ := exec_bind.mp h
    rw [m.smReg_execctrl, m.exec_put, hcode.mp hc] at he
    rw [hpin.mp hp, he]
    rfl
  · rintro rfl
    refine ⟨(), _, hcode.mpr rfl, exec_bind.mpr ⟨(), _, ?_, hpin.mpr rfl⟩⟩
    rw [m.smReg_execctrl]
    exact m.exec_put.mpr rfl

/-- **Every method leaves the registers in its effect.** -/
theorem exec_run (op : Method) : Exec m.hw.access (op.run m) s u s' ↔ s' = op.effect m s := by
  cases op with
  | construct => exact exec_construct m
  | load p => exact exec_load m p
  | setClkdiv i f =>
    rw [run, StateMachine.setClkdiv, m.smReg_clkdiv]
    exact m.exec_put
  | setSetPins b c =>
    rw [run, StateMachine.setSetPins, m.smReg_pinctrl]
    exact exec_pinctrl m
  | setOutPins b c =>
    rw [run, StateMachine.setOutPins, m.smReg_pinctrl]
    exact exec_pinctrl m
  | setSidesetPins b =>
    rw [run, StateMachine.setSidesetPins, m.smReg_pinctrl]
    exact exec_pinctrl m
  | setJmpPin g =>
    rw [run, StateMachine.setJmpPin, m.smReg_execctrl]
    refine m.exec_modify_reg fun x y h => ?_
    have hmask : ~~~(Register.execctrl m.sm).status = (Register.execctrl m.sm).kept := by
      rw [Register.status, Register.kept]
      rfl
    rw [hmask] at h
    have hswap : ∀ a b c : Word, a &&& b &&& c = a &&& c &&& b := fun a b c => by
      rw [BitVec.and_assoc, BitVec.and_comm b, BitVec.and_assoc]
    rw [BitVec.and_or_distrib_right, BitVec.and_or_distrib_right, hswap, h, hswap]
  | exec i =>
    rw [run, StateMachine.exec, m.smReg_instr]
    exact m.exec_put
  | enable =>
    rw [run, StateMachine.enable, m.base_ctrl]
    exact exec_ctrl m
  | disable =>
    rw [run, StateMachine.disable, m.base_ctrl]
    exact exec_ctrl m
  | restart =>
    rw [run, StateMachine.restart, m.base_ctrl]
    exact exec_ctrl m
  | txPush v =>
    rw [run, StateMachine.txPush, m.base_txf]
    exact m.exec_put
  | rxEmpty =>
    rw [run, StateMachine.rxEmpty, m.base_fstat, Prog.bind_eq, Prog.bind_assoc]
    exact m.exec_read_reg fun _ => rfl
  | rxPull =>
    rw [run, StateMachine.rxPull, m.base_rxf]
    exact m.exec_read_reg fun _ => rfl
  | pc =>
    rw [run, StateMachine.pc, m.smReg_addr, Prog.bind_eq, Prog.bind_assoc]
    exact m.exec_read_reg fun _ => rfl

end Method

end Pio
