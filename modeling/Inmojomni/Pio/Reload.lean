import Inmojomni.Effect.Frame
import Inmojomni.Pio.Coexist
import Inmojomni.Pio.Run

/-!
# Programs loaded one after the other

`load` writes the instruction memory, the wrap and the side-set, `enable` and `disable` one bit of
CTRL. None of them stores an instruction to be executed, which is how the driver could move the
program counter (`Live.exec_method`), and there is no method that resets it. A state machine that is
given one program after the other therefore goes on, in the new program, at the address where it
stopped in the old one (`starts_where_stopped`): at instruction 0 in the first round, and later
exactly when it had stopped at address 0.

As on the RP2040, the program counter is 0 after reset and changes only in the cycles of an
enabled state machine.
-/

open Mmio Effect

namespace Pio

/-- The registers of the chip, and the core of one state machine. -/
structure Live where
  regs : Regs
  core : Core

/-- What happens to the state machine in a round. -/
inductive Event
  | load (program : Asm)
  | enable
  | cycle (inp : Inputs)
  | disable

/-- Load a program, enable the state machine, let it execute some cycles, and disable it. -/
structure Round where
  program : Asm
  inputs : List Inputs

/-- The events of a round. -/
def Round.events (k : Round) : List Event :=
  [.load k.program, .enable] ++ k.inputs.map .cycle ++ [.disable]

namespace Live

variable (m : StateMachine) (s : Live)

/-- The enable bit of the state machine. -/
def enabled : Bool := (s.regs (m.block.reg .ctrl)).getLsbD m.sm

/-- One event. A cycle of a disabled state machine leaves it as it is. -/
def step : Event → Live
  | .load p => { s with regs := (Method.load p).effect m s.regs }
  | .enable => { s with regs := Method.enable.effect m s.regs }
  | .disable => { s with regs := Method.disable.effect m s.regs }
  | .cycle inp =>
    if s.enabled m then { s with core := s.core.cycle (m.memory s.regs) (m.wrap s.regs) inp } else s

/-- The state after some events. -/
def run (events : List Event) : Live := events.foldl (step m) s

/-- The instructions that are executed, each with its address. -/
def executed : Live → List Event → List (BitVec 5 × BitVec 16)
  | _, [] => []
  | s, .cycle inp :: events =>
    (if s.enabled m then [(s.core.pc, m.memory s.regs s.core.pc)] else []) ++
      executed (s.step m (.cycle inp)) events
  | s, e :: events => executed (s.step m e) events

/-- The state after some rounds. -/
def rounds (ks : List Round) : Live := s.run m (ks.flatMap Round.events)

end Live

/-! ### The methods on the bus -/

/-- The method that an event is a call of. -/
def Event.method? : Event → Option Method
  | load p => some (.load p)
  | enable => some .enable
  | disable => some .disable
  | cycle _ => none

namespace Live

variable (m : StateMachine)

/-- Stores that reach the core: of an instruction, which is executed, and to RESETS. -/
def Reaches : Op → Prop
  | .write32 addr _ | .write8 addr _ =>
    register addr = m.block.reg (.instr m.sm) ∨ register addr = m.block.chip.resetsReset
  | _ => False

/-- An access of the driver. What a store does that reaches the core is left open. -/
def access (e : Op) (s : Live) (r : e.Answer) (s' : Live) : Prop :=
  m.hw.access e s.regs r s'.regs ∧ (¬ Reaches m e → s'.core = s.core)

variable {m} {s s' : Live}

/-- A program without such stores runs as on the registers alone. -/
theorem exec_of_only {α : Type} {p : Firmware α} {a : α} (hp : p.Only fun e => ¬ Reaches m e) :
    Exec (access m) p s a s' ↔ Exec m.hw.access p s.regs a s'.regs ∧ s'.core = s.core := by
  constructor
  · intro h
    induction h with
    | ret a s => exact ⟨.ret _ _, rfl⟩
    | op he _ ih =>
      obtain ⟨hk, hcore⟩ := ih (hp.2 _)
      exact ⟨.op he.1 hk, hcore.trans (he.2 hp.1)⟩
    | iter _ ih =>
      obtain ⟨hk, hcore⟩ := ih hp.unfold
      exact ⟨.iter hk, hcore⟩
  · obtain ⟨regs, core⟩ := s
    obtain ⟨regs', core'⟩ := s'
    rintro ⟨h, hcore⟩
    dsimp only at h hcore
    subst hcore
    induction h with
    | ret a regs => exact .ret _ _
    | @op e k regs regs₁ regs₂ r a he _ ih =>
      have ha : access m e ⟨regs, core'⟩ r ⟨regs₁, core'⟩ := ⟨he, fun _ => rfl⟩
      exact .op ha (ih (hp.2 r))
    | iter _ ih => exact .iter (ih hp.unfold)

theorem not_reaches {r : Register} (hr : r ≠ .instr m.sm) (v : Word) :
    ¬ Reaches m (.write32 (m.block.reg r) v) := by
  have hreg : register (m.block.reg r) = m.block.reg r := (m.block.plain_reg r).register_eq
  rintro (hinstr | hresets)
  · exact hr (m.block.reg_injective (hreg.symm.trans hinstr))
  · exact Method.reg_ne_resets m.block r (hreg.symm.trans hresets)

/-- The methods of a round store no instruction. -/
theorem only_method {e : Event} {op : Method} (h : e.method? = some op) :
    (op.run m).Only fun e => ¬ Reaches m e := by
  have hload : ∀ addr, (read32 addr).Only fun e => ¬ Reaches m e :=
    fun addr => Prog.only_call.mpr id
  have hstore : ∀ {r : Register}, r ≠ .instr m.sm → ∀ v,
      (write32 (m.block.reg r) v).Only fun e => ¬ Reaches m e :=
    fun hr v => Prog.only_call.mpr (not_reaches hr v)
  cases e with
  | load p =>
    obtain rfl := Option.some.inj h
    refine Prog.Only.bind (Prog.Only.forRange fun i _ hi => ?_) fun _ => ?_
    · have hi32 : i < 32 := by
        have := p.len_le
        omega
      rw [m.base_instrMem hi32]
      exact hstore (by simp) _
    · rw [m.smReg_execctrl, m.smReg_pinctrl]
      exact (hstore (by simp) _).bind fun _ => (hload _).bind fun _ => hstore (by simp) _
  | enable =>
    obtain rfl := Option.some.inj h
    rw [Method.run, StateMachine.enable, m.base_ctrl]
    exact (hload _).bind fun _ => hstore (by simp) _
  | disable =>
    obtain rfl := Option.some.inj h
    rw [Method.run, StateMachine.disable, m.base_ctrl]
    exact (hload _).bind fun _ => hstore (by simp) _
  | cycle inp => cases h

/-- **The methods are steps.** On the bus, a method of a round does what `step` says, and leaves the
core alone. -/
theorem exec_method {e : Event} {op : Method} (h : e.method? = some op) :
    Exec (access m) (op.run m) s () s' ↔ s' = s.step m e := by
  have hstep : s.step m e = ⟨op.effect m s.regs, s.core⟩ := by
    cases e with
    | load | enable | disable =>
      obtain rfl := Option.some.inj h
      rfl
    | cycle inp => cases h
  rw [exec_of_only (only_method h), Method.exec_run, hstep]
  constructor
  · rintro ⟨hregs, hcore⟩
    rw [← hregs, ← hcore]
  · rintro rfl
    exact ⟨rfl, rfl⟩

end Live

/-! ### One round -/

namespace Live

variable (m : StateMachine) (s : Live)

/-- The state at the first cycle of a round. -/
def ready (program : Asm) : Live :=
  ⟨Method.enable.effect m ((Method.load program).effect m s.regs), s.core⟩

theorem regs_ready (program : Asm) : (s.ready m program).regs
    = Method.enable.effect m ((Method.load program).effect m s.regs) := rfl

theorem ready_eq (program : Asm) : (s.step m (.load program)).step m .enable = s.ready m program :=
  rfl

/-- `enable` sets the enable bit. -/
theorem enableBit_enable (r : Regs) :
    (Method.enable.effect m r (m.block.reg .ctrl)).getLsbD m.sm = true := by
  have hbit : ∀ i : Fin 4, (1#32 <<< BitVec.ofNat 32 i).getLsbD i = true ∧
      Register.ctrl.kept.getLsbD i = true := by decide
  obtain ⟨hset, hkept⟩ := hbit m.sm
  rw [Method.effect, m.put_self, BitVec.getLsbD_and, BitVec.getLsbD_or, StateMachine.smWord, hset,
    hkept, Bool.or_true, Bool.and_true]

theorem enabled_ready (program : Asm) : (s.ready m program).enabled m = true :=
  enableBit_enable m _

/-- `enable` changes neither the program nor its wrap. -/
theorem ready_regs (program : Asm) :
    m.memory (s.ready m program).regs = m.memory ((Method.load program).effect m s.regs) ∧
      m.wrap (s.ready m program).regs = m.wrap ((Method.load program).effect m s.regs) := by
  have hkeep : ∀ r, r ≠ Register.ctrl → (s.ready m program).regs (m.block.reg r)
      = (Method.load program).effect m s.regs (m.block.reg r) := by
    intro r hr
    rw [regs_ready]
    exact Method.effect_of_writes m (by simpa [Method.writes] using hr)
  constructor
  · funext pc
    rw [StateMachine.memory, hkeep _ (by simp), StateMachine.memory]
  · rw [StateMachine.wrap, hkeep _ (by simp), StateMachine.wrap]

/-- Enabled, every cycle executes an instruction, and changes the core only. -/
theorem run_cycles (hen : s.enabled m = true) (inputs : List Inputs) :
    s.run m (inputs.map .cycle) =
      ⟨s.regs, s.core.after (m.memory s.regs) (m.wrap s.regs) inputs⟩ := by
  induction inputs generalizing s with
  | nil => rfl
  | cons inp inputs ih =>
    have hstep : s.step m (.cycle inp)
        = ⟨s.regs, s.core.cycle (m.memory s.regs) (m.wrap s.regs) inp⟩ := if_pos hen
    exact (congrArg (fun s => run m s (inputs.map .cycle)) hstep).trans (ih ⟨s.regs, _⟩ hen)

/-- What a round does to the core: nothing but its cycles. -/
theorem core_round (k : Round) : (s.run m k.events).core = s.core.after
    (m.memory ((Method.load k.program).effect m s.regs))
    (m.wrap ((Method.load k.program).effect m s.regs)) k.inputs := by
  obtain ⟨hmem, hwrap⟩ := s.ready_regs m k.program
  have hrun : s.run m k.events
      = ((s.ready m k.program).run m (k.inputs.map .cycle)).step m .disable := by
    rw [Round.events, run, List.foldl_append, List.foldl_append, List.foldl_cons, List.foldl_cons,
      List.foldl_nil, List.foldl_cons, List.foldl_nil, ready_eq, run]
  rw [hrun, run_cycles m _ (s.enabled_ready m k.program), hmem, hwrap]
  rfl

/-- The first instruction that a round executes: the one at the program counter. -/
theorem head_executed (k : Round) : (s.executed m k.events).head? = k.inputs.head?.map fun _ =>
    (s.core.pc, m.memory ((Method.load k.program).effect m s.regs) s.core.pc) := by
  have hexec : s.executed m k.events
      = (s.ready m k.program).executed m (k.inputs.map .cycle ++ [.disable]) := by
    rw [Round.events, List.append_assoc, List.cons_append, List.singleton_append, executed,
      executed, ready_eq] <;> exact nofun
  rw [hexec, ← (s.ready_regs m k.program).1]
  cases k.inputs with
  | nil => rfl
  | cons inp inputs =>
    rw [List.map_cons, List.cons_append, executed, if_pos (s.enabled_ready m k.program)]
    rfl

theorem rounds_concat (ks : List Round) (k : Round) :
    s.rounds m (ks ++ [k]) = (s.rounds m ks).run m k.events := by
  rw [rounds, rounds, run, run, run, List.flatMap_append, List.flatMap_singleton, List.foldl_append]

end Live

/-! ### Any number of rounds -/

/-- The round starts with instruction 0 of its program, if it executes anything. -/
def StartsAtZero (m : StateMachine) (s : Live) (k : Round) : Prop :=
  ∀ x, (s.executed m k.events).head? = some x → x.1 = 0 ∧ k.program.code[0]? = some x.2

/-- **A program goes on where the one before it stopped.** From reset, in any sequence of rounds:
the first instruction of a round is the one at the address that the cycles of the rounds before
have left, which is 0 in the first round; and every round starts with instruction 0 of its program
if and only if the state machine stood at address 0 before every round. -/
theorem starts_where_stopped (m : StateMachine) {s : Live} (hreset : s.core.pc = 0)
    {ks : List Round} (hlen : ∀ k ∈ ks, 1 ≤ k.program.len) :
    (∀ past k rest, ks = past ++ k :: rest →
      ((s.rounds m past).executed m k.events).head? = k.inputs.head?.map (fun _ =>
        ((s.rounds m past).core.pc, m.memory
          ((Method.load k.program).effect m (s.rounds m past).regs) (s.rounds m past).core.pc)) ∧
      (s.rounds m (past ++ [k])).core = (s.rounds m past).core.after
        (m.memory ((Method.load k.program).effect m (s.rounds m past).regs))
        (m.wrap ((Method.load k.program).effect m (s.rounds m past).regs)) k.inputs) ∧
    (s.rounds m []).core.pc = 0 ∧
    ((∀ past k rest, ks = past ++ k :: rest → StartsAtZero m (s.rounds m past) k) ↔
      ∀ past k rest, ks = past ++ k :: rest → k.inputs ≠ [] → (s.rounds m past).core.pc = 0) := by
  have hhead : ∀ t : Live, ∀ k ∈ ks,
      StartsAtZero m t k ↔ k.inputs ≠ [] → t.core.pc = 0 := by
    intro t k hk
    rw [StartsAtZero, t.head_executed]
    cases k.inputs with
    | nil => exact ⟨fun _ h => absurd rfl h, fun _ _ h => nomatch h⟩
    | cons inp inputs =>
      refine ⟨fun h _ => (h _ rfl).1, ?_⟩
      rintro h _ ⟨⟩
      have hpc := h (List.cons_ne_nil _ _)
      refine ⟨hpc, ?_⟩
      have hlt : t.core.pc.toNat < k.program.len := by
        rw [hpc]
        exact hlen k hk
      have hcode := m.memory_load k.program t.regs hlt
      rwa [hpc] at hcode ⊢
  refine ⟨fun past k rest _ => ⟨Live.head_executed m _ k, ?_⟩, hreset, ?_⟩
  · rw [Live.rounds_concat, Live.core_round]
  · constructor
    · intro h past k rest hks
      exact (hhead _ k (hks ▸ List.mem_append_right _ List.mem_cons_self)).mp (h past k rest hks)
    · intro h past k rest hks
      exact (hhead _ k (hks ▸ List.mem_append_right _ List.mem_cons_self)).mpr (h past k rest hks)

/-- Two `nop`s, as the assembler makes them. -/
def twoNops : Asm where
  code := ((Vector.replicate 32 0).set 0 0xA042).set 1 0xA042
  len := 2
  sideCount := 0
  sideOpt := false
  sidePindirs := false
  fwAddr := Vector.replicate 8 (-1)
  fwUsed := 0
  fixup := Vector.replicate 32 0
  pending := 0
  len_le := by decide

theorem assemble_twoNops [ShiftModel] :
    ((Asm.init.nop 0 Asm.noSide).bind fun a => a.nop 0 Asm.noSide) = some twoNops := by
  simp [Asm.nop, Asm.emit, Asm.init, Asm.noSide, Asm.delayBits_plain, twoNops]

/-- One cycle of the program at address 0 leads to address 1. -/
theorem cycle_twoNops (m : StateMachine) (r : Regs) (inp : Inputs) :
    ((⟨0, 0, 0⟩ : Core).after (m.memory ((Method.load twoNops).effect m r))
      (m.wrap ((Method.load twoNops).effect m r)) [inp]).pc = 1 := by
  have hnop : ∀ (mem : BitVec 5 → BitVec 16) (w : Wrap), mem 0 = 0xA042 →
      ((⟨0, 0, 0⟩ : Core).after mem w [inp]).pc = w.next 0 := by
    intro mem w hword
    have hdecode : decode (mem 0) = .mov 2 0 2 := by
      rw [hword]
      rfl
    change (Core.cycle mem w inp ⟨0, 0, 0⟩).pc = w.next 0
    rw [Core.cycle, hdecode]
    rfl
  have hlt : (0 : BitVec 5).toNat < twoNops.len := by decide
  have hcode : twoNops.code[(0 : BitVec 5).toNat]? = some 0xA042 := by decide
  rw [hnop, m.wrap_load twoNops (by decide)]
  · rfl
  · rw [← Option.some_inj, ← m.memory_load twoNops r hlt, hcode]

/-- The same program loaded a second time, after one cycle, starts with its second instruction. -/
theorem reload_starts_at_one :
    let m : StateMachine := ⟨.pio0, 0⟩
    let s : Live := ⟨fun _ => 0, ⟨0, 0, 0⟩⟩
    let k : Round := ⟨twoNops, [⟨false, false, false, 0, ⟨0, 0, 0⟩⟩]⟩
    (s.rounds m [k]).core.pc = 1 ∧ ¬ StartsAtZero m (s.rounds m [k]) k := by
  intro m s k
  have hpc : (s.rounds m [k]).core.pc = 1 := by
    rw [← List.nil_append [k], Live.rounds_concat, Live.core_round]
    exact cycle_twoNops m _ _
  refine ⟨hpc, fun h => ?_⟩
  have hstart := (h _ (Live.head_executed m _ k)).1
  rw [hpc] at hstart
  exact absurd hstart (by decide)

/-- The first instruction of the second round is the one at address 1. -/
theorem starts_where_stopped_twoNops :
    let m : StateMachine := ⟨.pio0, 0⟩
    let s : Live := ⟨fun _ => 0, ⟨0, 0, 0⟩⟩
    let k : Round := ⟨twoNops, [⟨false, false, false, 0, ⟨0, 0, 0⟩⟩]⟩
    (s.rounds m []).core.pc = 0 ∧
      ∃ word, ((s.rounds m [k]).executed m k.events).head? = some (1, word) := by
  intro m s k
  have hlen : ∀ k' ∈ [k, k], 1 ≤ k'.program.len := by
    intro k' hk'
    obtain rfl : k' = k := by simpa using hk'
    exact Nat.le_succ 1
  obtain ⟨hrounds, hfirst, -⟩ := starts_where_stopped m (s := s) rfl hlen
  obtain ⟨-, hcore⟩ := hrounds [] k [k] rfl
  obtain ⟨hhead, -⟩ := hrounds [k] k [] rfl
  have hpc : (s.rounds m [k]).core.pc = 1 := (congrArg Core.pc hcore).trans (cycle_twoNops m _ _)
  rw [hpc] at hhead
  exact ⟨hfirst, _, hhead⟩

end Pio
