import Inmojomni.Pio.Effects

/-!
# State machines of one block side by side

The four state machines of a block have their own register groups, and share CTRL and the
instruction memory. Operations on one of them leave the group and the enable bit of another
alone (`Method.effect_of_writes`, `Method.effect_enableBit`). The instruction memory has no
such owner: `load` always fills it from address 0 on, so a program keeps a word only until a
later load on the block reaches it (`coexist`), and loading a second program takes the first
one's words away (`load_overwrites`).
-/

open Mmio Effect

namespace Pio

/-! ### Frames -/

namespace StateMachine

variable (m : StateMachine) {s : Regs}

theorem putCode_of_ne {program : Asm} {r : Register} (h : ∀ k, r ≠ .instrMem k) :
    m.putCode program s (m.block.reg r) = s (m.block.reg r) := by
  refine Regs.storeAll_of_ne (fun i hi => ?_) s
  have hi32 : i < 32 := by
    have := program.len_le
    have := List.mem_range'_1.mp hi
    omega
  rw [m.base_instrMem hi32]
  exact m.block.reg_injective.ne (h _)

/-- The instruction memory after storing a program: its words, and behind them what was
there. -/
theorem putCode_instrMem (program : Asm) (k : Fin 32) :
    m.putCode program s (m.block.reg (.instrMem k)) =
      if k < program.len then (program.code[k]).setWidth 32
      else s (m.block.reg (.instrMem k)) := by
  have hlen := program.len_le
  have haddr : ∀ i ∈ List.range' 0 program.len, ∃ h : i < 32,
      m.base + instrMem0Offset + BitVec.ofNat 32 (i * 4) = m.block.reg (.instrMem ⟨i, h⟩) :=
    fun i hi => ⟨by have := List.mem_range'_1.mp hi; omega, m.base_instrMem _⟩
  by_cases hk : k < program.len
  · have hinj : ∀ i ∈ List.range' 0 program.len, ∀ j ∈ List.range' 0 program.len,
        m.base + instrMem0Offset + BitVec.ofNat 32 (i * 4) =
          m.base + instrMem0Offset + BitVec.ofNat 32 (j * 4) → i = j := by
      intro i hi j hj h
      obtain ⟨hi, hi'⟩ := haddr i hi
      obtain ⟨hj, hj'⟩ := haddr j hj
      rw [hi', hj'] at h
      have h' := m.block.reg_injective h
      exact congrArg Fin.val (Register.instrMem.inj h')
    have hmem : k.val ∈ List.range' 0 program.len := List.mem_range'_1.mpr ⟨k.val.zero_le, by omega⟩
    rw [if_pos hk, ← m.base_instrMem k.isLt, putCode, Regs.storeAll_mem hinj hmem]
    rw [Vector.getElem?_eq_getElem k.isLt]
    rfl
  · rw [if_neg hk]
    refine Regs.storeAll_of_ne (fun i hi => ?_) s
    obtain ⟨hi32, hi'⟩ := haddr i hi
    rw [hi']
    refine m.block.reg_injective.ne fun h => hk ?_
    rw [Register.instrMem.inj h]
    exact (List.mem_range'_1.mp hi).2.trans_eq (Nat.zero_add _)

end StateMachine

namespace Method

variable (m : StateMachine) {s : Regs}

/-- The registers of the block that a method may change. -/
def writes (m : StateMachine) : Method → List Register
  | construct | rxEmpty | rxPull | pc => []
  | load _ => .execctrl m.sm :: .pinctrl m.sm :: (List.finRange 32).map .instrMem
  | setClkdiv .. => [.clkdiv m.sm]
  | setSetPins .. | setOutPins .. | setSidesetPins _ => [.pinctrl m.sm]
  | setJmpPin _ => [.execctrl m.sm]
  | exec _ => [.instr m.sm]
  | enable | disable | restart => [.ctrl]
  | txPush _ => [.txf m.sm]

theorem reg_ne_resets (b : Block) (r : Register) : b.reg r ≠ b.chip.resetsReset := by
  intro h
  have h' := congrArg BitVec.toNat h
  have hlt : b.chip.resetsReset.toNat < 0x50200000 := by cases b.chip <;> decide
  rw [b.toNat_reg] at h'
  omega

/-- **Frame.** A method leaves every register of the block alone that it does not write. -/
theorem effect_of_writes {op : Method} {r : Register} (h : r ∉ op.writes m) :
    op.effect m s (m.block.reg r) = s (m.block.reg r) := by
  cases op with
  | construct => exact Function.update_of_ne (reg_ne_resets m.block r) _ _
  | load p =>
    simp only [writes, List.mem_cons, List.mem_map, List.mem_finRange, true_and, not_or,
      not_exists] at h
    obtain ⟨hexec, hpin, hcode⟩ := h
    rw [effect, StateMachine.putProgram, m.put_of_ne hpin, m.put_of_ne hexec,
      m.putCode_of_ne fun k => Ne.symm (hcode k)]
  | rxEmpty => rfl
  | rxPull => rfl
  | pc => rfl
  | _ =>
    simp only [writes, List.mem_singleton] at h
    exact m.put_of_ne h _

/-- No method on one state machine changes the enable bit of another. -/
theorem effect_enableBit {op : Method} {i : Fin 4} (hi : i ≠ m.sm) :
    (op.effect m s (m.block.reg .ctrl)).getLsbD i = (s (m.block.reg .ctrl)).getLsbD i := by
  have hkept : ∀ i : Fin 4, (Register.ctrl.kept).getLsbD i = true := by decide
  have hbit : ∀ i j : Fin 4, i ≠ j → (1#32 <<< BitVec.ofNat 32 j).getLsbD i = false ∧
      (1#32 <<< (BitVec.ofNat 32 j + 4)).getLsbD i = false := by decide
  obtain ⟨hen, hre⟩ := hbit i m.sm hi
  cases op with
  | enable =>
    rw [effect, m.put_self, BitVec.getLsbD_and, BitVec.getLsbD_or, StateMachine.smWord, hen, hkept,
      Bool.or_false, Bool.and_true]
  | disable =>
    rw [effect, m.put_self, BitVec.getLsbD_and, BitVec.getLsbD_and, BitVec.getLsbD_not,
      StateMachine.smWord, hen, hkept]
    simp
    omega
  | restart =>
    rw [effect, m.put_self, BitVec.getLsbD_and, BitVec.getLsbD_or, StateMachine.smWord, hre, hkept,
      Bool.or_false, Bool.and_true]
  | _ =>
    rw [effect_of_writes]
    simp [writes]

/-- The word at `k` of the instruction memory after a method. -/
def loaded (k : Fin 32) (w : Word) : Method → Word
  | load q => if k < q.len then (q.code[k]).setWidth 32 else w
  | _ => w

theorem effect_instrMem (op : Method) (k : Fin 32) :
    op.effect m s (m.block.reg (.instrMem k)) = op.loaded k (s (m.block.reg (.instrMem k))) := by
  cases op with
  | load q =>
    rw [effect, StateMachine.putProgram, m.put_of_ne (by simp), m.put_of_ne (by simp),
      m.putCode_instrMem]
    rfl
  | _ =>
    rw [effect_of_writes]
    · rfl
    · simp [writes]

/-! ### Sequences of methods -/

/-- A sequence of methods leaves the registers in the effects of its methods, one after the
other. -/
theorem exec_forEach_run {s s' : Regs} {u : Unit} {ops : List Method} :
    Exec m.hw.access (Prog.forEach (run m) ops) s u s' ↔
      s' = ops.foldl (fun s op => op.effect m s) s := by
  induction ops generalizing s with
  | nil => exact exec_ret.trans ⟨And.right, fun h => ⟨rfl, h⟩⟩
  | cons op ops ih =>
    refine exec_bind.trans ⟨?_, fun h => ⟨(), _, (exec_run m op).mpr rfl, ih.mpr h⟩⟩
    rintro ⟨_, t, ht, h⟩
    rw [(exec_run m op).mp ht] at h
    exact ih.mp h

/-- What every method keeps, a sequence of methods keeps. -/
theorem foldl_effect {γ : Type} {f : Regs → γ} (h : ∀ op s, f (effect m s op) = f s)
    (ops : List Method) (s : Regs) : f (ops.foldl (fun s op => op.effect m s) s) = f s := by
  induction ops generalizing s with
  | nil => rfl
  | cons op ops ih => exact (ih _).trans (h op s)

theorem foldl_instrMem (k : Fin 32) (ops : List Method) (s : Regs) :
    ops.foldl (fun s op => op.effect m s) s (m.block.reg (.instrMem k)) =
      ops.foldl (fun w op => op.loaded k w) (s (m.block.reg (.instrMem k))) := by
  induction ops generalizing s with
  | nil => rfl
  | cons op ops ih => rw [List.foldl_cons, ih, effect_instrMem, List.foldl_cons]

/-- Loads that agree with the word leave it. -/
theorem foldl_loaded {k : Fin 32} {w : Word} {ops : List Method}
    (h : ∀ q, load q ∈ ops → k < q.len → (q.code[k]).setWidth 32 = w) :
    ops.foldl (fun w op => op.loaded k w) w = w := by
  induction ops with
  | nil => rfl
  | cons op ops ih =>
    have hop : op.loaded k w = w := by
      cases op with
      | load q =>
        rw [loaded]
        split
        · next hk => exact h q List.mem_cons_self hk
        · rfl
      | _ => rfl
    rw [List.foldl_cons, hop]
    exact ih fun q hq => h q (List.mem_cons_of_mem _ hq)

end Method

/-! ### Coexistence -/

/-- The instruction memory holds the code of a program. -/
def Block.Holds (b : Block) (p : Asm) (s : Regs) : Prop :=
  ∀ k : Fin 32, k < p.len → s (b.reg (.instrMem k)) = (p.code[k]).setWidth 32

theorem holds_load (m : StateMachine) (p : Asm) (s : Regs) :
    m.block.Holds p ((Method.load p).effect m s) := by
  intro k hk
  rw [Method.effect_instrMem, Method.loaded, if_pos hk]

/-- **Coexistence.** After `load p` on state machine `i` and any methods on state machine `j`
of the block, `i` has its EXECCTRL, PINCTRL, CLKDIV and enable bit, and each word of its
program is that of the last load that reached it. So `p` is still there if the programs loaded
later agree with it where both have code. -/
theorem coexist {b : Block} {i j : Fin 4} (hij : i ≠ j) {p : Asm} {ops : List Method}
    {s s₁ s₂ : Regs} {u v : Unit}
    (h₁ : Exec b.chip.hardware.access ((Method.load p).run ⟨b, i⟩) s u s₁)
    (h₂ : Exec b.chip.hardware.access (Prog.forEach (Method.run ⟨b, j⟩) ops) s₁ v s₂) :
    s₂ (b.reg (.execctrl i)) = s₁ (b.reg (.execctrl i)) ∧
      s₂ (b.reg (.pinctrl i)) = s₁ (b.reg (.pinctrl i)) ∧
      s₂ (b.reg (.clkdiv i)) = s₁ (b.reg (.clkdiv i)) ∧
      (s₂ (b.reg .ctrl)).getLsbD i = (s₁ (b.reg .ctrl)).getLsbD i ∧
      (∀ k : Fin 32, k < p.len → s₂ (b.reg (.instrMem k)) =
        ops.foldl (fun w op => op.loaded k w) ((p.code[k]).setWidth 32)) ∧
      ((∀ q, Method.load q ∈ ops → ∀ k : Fin 32, k < p.len → k < q.len → q.code[k] = p.code[k]) →
        b.Holds p s₂) := by
  have hs₁ := (Method.exec_run ⟨b, i⟩ _).mp h₁
  have hs₂ := (Method.exec_forEach_run ⟨b, j⟩).mp h₂
  have hframe : ∀ r : Register, (∀ op : Method, r ∉ op.writes ⟨b, j⟩) →
      s₂ (b.reg r) = s₁ (b.reg r) := by
    intro r hr
    rw [hs₂]
    exact Method.foldl_effect ⟨b, j⟩ (f := fun s => s (b.reg r))
      (fun op s => Method.effect_of_writes ⟨b, j⟩ (hr op)) ops s₁
  have hword : ∀ k : Fin 32, k < p.len → s₂ (b.reg (.instrMem k)) =
      ops.foldl (fun w op => op.loaded k w) ((p.code[k]).setWidth 32) := by
    intro k hk
    rw [hs₂, Method.foldl_instrMem ⟨b, j⟩ k, hs₁, holds_load ⟨b, i⟩ p s k hk]
  refine ⟨hframe _ fun op => ?_, hframe _ fun op => ?_, hframe _ fun op => ?_, ?_, hword, ?_⟩
  · cases op <;> simp [Method.writes, hij]
  · cases op <;> simp [Method.writes, hij]
  · cases op <;> simp [Method.writes, hij]
  · rw [hs₂]
    exact Method.foldl_effect ⟨b, j⟩ (f := fun s => (s (b.reg .ctrl)).getLsbD i)
      (fun op s => Method.effect_enableBit ⟨b, j⟩ hij) ops s₁
  · intro hagree k hk
    rw [hword k hk]
    refine Method.foldl_loaded fun q hq hkq => ?_
    rw [hagree q hq k hk hkq]

/-- Both state machines run the same program, as two instances of one driver do. -/
theorem coexist_sameProgram :
    letI : ShiftModel := ⟨fun _ _ => 0⟩
    ∃ p s₁ s₂, Asm.init.setPins 1 0 Asm.noSide = some p ∧
      Exec Chip.rp2040.hardware.access ((Method.load p).run ⟨.pio0, 0⟩) (fun _ => 0) () s₁ ∧
      Exec Chip.rp2040.hardware.access
        (Prog.forEach (Method.run ⟨.pio0, 1⟩) [.load p, .enable, .disable]) s₁ () s₂ ∧
      Block.pio0.Holds p s₂ := by
  let shift : ShiftModel := ⟨fun _ _ => 0⟩
  obtain ⟨p, hp⟩ : ∃ p, Asm.init.setPins 1 0 Asm.noSide = some p := ⟨_, rfl⟩
  let ops : List Method := [.load p, .enable, .disable]
  let s₁ : Regs := (Method.load p).effect ⟨.pio0, 0⟩ fun _ => 0
  let s₂ : Regs := ops.foldl (fun s op => op.effect ⟨.pio0, 1⟩ s) s₁
  have h₁ : Exec Chip.rp2040.hardware.access ((Method.load p).run ⟨.pio0, 0⟩) (fun _ => 0) () s₁ :=
    (Method.exec_run ⟨.pio0, 0⟩ _).mpr rfl
  have h₂ : Exec Chip.rp2040.hardware.access (Prog.forEach (Method.run ⟨.pio0, 1⟩) ops) s₁ () s₂ :=
    (Method.exec_forEach_run ⟨.pio0, 1⟩).mpr rfl
  refine ⟨p, s₁, s₂, hp, h₁, h₂, (coexist (b := .pio0) (i := 0) (j := 1) (by decide) h₁ h₂).2.2.2.2.2
    fun q hq k _ _ => ?_⟩
  have hqp : q = p := by simpa [ops] using hq
  rw [hqp]

/-- Loading a second program on state machine 1 overwrites the program of state machine 0. -/
theorem load_overwrites :
    letI : ShiftModel := ⟨fun _ _ => 0⟩
    ∃ p q s₁ s₂, Asm.init.setPins 1 0 Asm.noSide = some p ∧
      Asm.init.setPins 0 0 Asm.noSide = some q ∧
      Exec Chip.rp2040.hardware.access ((Method.load p).run ⟨.pio0, 0⟩) (fun _ => 0) () s₁ ∧
      Exec Chip.rp2040.hardware.access
        (Prog.forEach (Method.run ⟨.pio0, 1⟩) [.load q]) s₁ () s₂ ∧
      ¬ Block.pio0.Holds p s₂ := by
  let shift : ShiftModel := ⟨fun _ _ => 0⟩
  refine ⟨_, _, _, _, rfl, rfl, (Method.exec_run ⟨.pio0, 0⟩ _).mpr rfl,
    (Method.exec_forEach_run ⟨.pio0, 1⟩).mpr rfl, fun h => ?_⟩
  have h0 := h 0 (by decide)
  rw [Method.foldl_instrMem ⟨.pio0, 1⟩] at h0
  exact absurd h0 (by decide)

end Pio
