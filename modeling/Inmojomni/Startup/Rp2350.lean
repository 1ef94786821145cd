import Inmojomni.Listing
import Inmojomni.Rv32
import Inmojomni.Startup

/-!
# The startup of the RP2350

`_reset` of `crt0_rv32.S` as it stands there, for a Hazard3 core, which has no loads or stores of
words that are not aligned: they end in a trap.
-/

namespace Startup.Rp2350

open Listing Mmio Rv32

/-- This startup uses more symbols. -/
structure Symbols extends Startup.Symbols where
  globalPointer : Word
  stackTop : Word
  trapDispatch : Word

inductive Label
  | reset | l1 | l2 | l3 | l4 | hang | mojoMain
deriving DecidableEq

inductive Instr
  | la (rd : Reg) (value : Word)
  | csrw (csr : ℕ) (rs : Reg)
  | addi (rd rs : Reg) (imm : Word)
  | lw (rd : Reg) (off : Word) (base : Reg)
  | sw (rs : Reg) (off : Word) (base : Reg)
  | bgeu (rs rs' : Reg) (target : Label)
  | j (target : Label)
  | call (f : Label)
  | wfi

structure Core where
  regs : Rv32.Regs
  csrs : ℕ → Word
  mem : Ram

namespace Core

variable (c : Core)

def get (r : Reg) : Word := if r = .zero then 0#32 else c.regs r

def set (r : Reg) (v : Word) : Core := { c with regs := Function.update c.regs r v }

end Core

/-- A call has no outcome: the run goes on outside of the listing. -/
def exec : Instr → Core → Option (Core × Next Label)
  | .la rd value, c => some (c.set rd value, .on)
  | .csrw csr rs, c => some ({ c with csrs := Function.update c.csrs csr (c.get rs) }, .on)
  | .addi rd rs imm, c => some (c.set rd (c.get rs + imm), .on)
  | .lw rd off base, c =>
    if Aligned (c.get base + off) then
      some (c.set rd (c.mem.read32 (c.get base + off)), .on)
    else none
  | .sw rs off base, c =>
    if Aligned (c.get base + off) then
      some ({ c with mem := c.mem.write32 (c.get base + off) (c.get rs) }, .on)
    else none
  | .bgeu rs rs' l, c => some (c, if c.get rs' ≤ c.get rs then .goto l else .on)
  | .j l, c => some (c, .goto l)
  | .call _, _ => none
  | .wfi, c => some (c, .on)

open Label Reg in
/-- `_reset` and `_hang`. -/
def code (y : Symbols) : List (Line Label Instr) :=
  [.label reset,
    .instr (.la gp y.globalPointer),
    .instr (.la sp y.stackTop),
    .instr (.la t0 y.trapDispatch),
    .instr (.csrw 0x305 t0),
    .instr (.csrw 0x320 zero),
    .instr (.la a0 y.sidata),
    .instr (.la a1 y.sdata),
    .instr (.la a2 y.edata),
    .label l1,
    .instr (.bgeu a1 a2 l2),
    .instr (.lw a3 0#32 a0),
    .instr (.sw a3 0#32 a1),
    .instr (.addi a0 a0 4#32),
    .instr (.addi a1 a1 4#32),
    .instr (.j l1),
    .label l2,
    .instr (.la a0 y.sbss),
    .instr (.la a1 y.ebss),
    .label l3,
    .instr (.bgeu a0 a1 l4),
    .instr (.sw zero 0#32 a0),
    .instr (.addi a0 a0 4#32),
    .instr (.j l3),
    .label l4,
    .instr (.call mojoMain),
    .label hang,
    .instr .wfi,
    .instr (.j hang)]

variable {y : Symbols} {ram : Set Word} {m : Ram} {c : Core} {k : ℕ}

/-- `k` words of `.data` have been copied. -/
structure Copying (y : Symbols) (m : Ram) (k : ℕ) (c : Core) : Prop where
  a0 : c.regs .a0 = word y.sidata k
  a1 : c.regs .a1 = word y.sdata k
  a2 : c.regs .a2 = y.edata
  mem : c.mem = m.copied y.sdata y.sidata (4 * k)

/-- `k` words of `.bss` have been cleared. -/
structure Clearing (y : Symbols) (m : Ram) (k : ℕ) (c : Core) : Prop where
  a0 : c.regs .a0 = word y.sbss k
  a1 : c.regs .a1 = y.ebss
  mem : c.mem = m.filled y.sbss (4 * k) 0

/-- A copy takes one word from the image to `.data`. -/
theorem Copying.round (h : Placed ram y.toSymbols) (hc : Copying y m k c)
    (hk : 4 * k < y.dataSize) :
    ∃ c', Steps exec (code y) (9, c) (9, c') ∧ Copying y m (k + 1) c' := by
  obtain ⟨h0, h1, h2, hm⟩ := hc
  have hgo : ¬ c.get .a2 ≤ c.get .a1 := by
    change ¬ c.regs .a2 ≤ c.regs .a1
    rw [h1, h2]
    exact h.not_edata_le hk
  let c₁ : Core := c.set .a3 (c.mem.read32 (c.regs .a0 + 0#32))
  let c₂ : Core := { c₁ with
    mem := c.mem.write32 (c.regs .a1 + 0#32) (c.mem.read32 (c.regs .a0 + 0#32)) }
  let c₃ : Core := (c₂.set .a0 (c.regs .a0 + 4#32)).set .a1 (c.regs .a1 + 4#32)
  have hbgeu : exec (.bgeu .a1 .a2 .l2) c = some (c, .on) := by
    rw [exec, if_neg hgo]
  have hlw : exec (.lw .a3 0#32 .a0) c = some (c₁, .on) := by
    refine if_pos ?_
    change Aligned (c.regs .a0 + 0#32)
    rw [BitVec.add_zero, h0]
    exact h.sidata_aligned.word k
  have hsw : exec (.sw .a3 0#32 .a1) c₁ = some (c₂, .on) := by
    refine if_pos ?_
    change Aligned (c.regs .a1 + 0#32)
    rw [BitVec.add_zero, h1]
    exact h.sdata_aligned.word k
  refine ⟨c₃, ?_, ?_, ?_, h2, ?_⟩
  · exact (steps_label rfl).trans <| (steps_on rfl hbgeu).trans <| (steps_on rfl hlw).trans <|
      (steps_on rfl hsw).trans <| (steps_on rfl rfl).trans <| (steps_on rfl rfl).trans
        (steps_goto rfl rfl rfl)
  · change c.regs .a0 + 4#32 = _
    rw [h0, word_succ]
  · change c.regs .a1 + 4#32 = _
    rw [h1, word_succ]
  · change c.mem.write32 (c.regs .a1 + 0#32) (c.mem.read32 (c.regs .a0 + 0#32)) = _
    rw [BitVec.add_zero, BitVec.add_zero, hm, h0, h1, h.copied_word hk]

/-- Clearing takes one word of `.bss`. -/
theorem Clearing.round (h : Placed ram y.toSymbols) (hc : Clearing y m k c)
    (hk : 4 * k < y.bssSize) :
    ∃ c', Steps exec (code y) (19, c) (19, c') ∧ Clearing y m (k + 1) c' := by
  obtain ⟨h0, h1, hm⟩ := hc
  have hgo : ¬ c.get .a1 ≤ c.get .a0 := by
    change ¬ c.regs .a1 ≤ c.regs .a0
    rw [h0, h1]
    exact h.not_ebss_le hk
  let c₁ : Core := { c with mem := c.mem.write32 (c.regs .a0 + 0#32) 0#32 }
  let c₂ : Core := c₁.set .a0 (c.regs .a0 + 4#32)
  have hbgeu : exec (.bgeu .a0 .a1 .l4) c = some (c, .on) := by
    rw [exec, if_neg hgo]
  have hsw : exec (.sw .zero 0#32 .a0) c = some (c₁, .on) := by
    refine if_pos ?_
    change Aligned (c.regs .a0 + 0#32)
    rw [BitVec.add_zero, h0]
    exact h.sbss_aligned.word k
  refine ⟨c₂, ?_, ?_, h1, ?_⟩
  · exact (steps_label rfl).trans <| (steps_on rfl hbgeu).trans <| (steps_on rfl hsw).trans <|
      (steps_on rfl rfl).trans (steps_goto rfl rfl rfl)
  · change c.regs .a0 + 4#32 = _
    rw [h0, word_succ]
  · change c.mem.write32 (c.regs .a0 + 0#32) 0#32 = _
    rw [BitVec.add_zero, hm, h0, h.filled_word hk]

/-- The first loop copies all of `.data`. -/
theorem Copying.steps (h : Placed ram y.toSymbols) (hc : Copying y m 0 c) :
    ∃ c', Steps exec (code y) (9, c) (16, c') ∧
      c'.mem = m.copied y.sdata y.sidata y.dataSize := by
  obtain ⟨c', hloop, -, h1, h2, hm⟩ := Steps.rounds (n := y.dataSize / 4)
    (fun k hk c hc => Copying.round h hc (by omega)) hc
  have hle : c'.regs .a2 ≤ c'.regs .a1 := by
    rw [h1, h2]
    exact h.edata_le
  have hdone : exec (.bgeu .a1 .a2 .l2) c' = some (c', .goto .l2) :=
    congrArg (fun n => some (c', n)) (if_pos hle)
  refine ⟨c', hloop.trans ((steps_label rfl).trans (steps_goto rfl hdone rfl)), ?_⟩
  rw [hm, h.dataSize_eq]

/-- The second loop clears all of `.bss`. -/
theorem Clearing.steps (h : Placed ram y.toSymbols) (hc : Clearing y m 0 c) :
    ∃ c', Steps exec (code y) (19, c) (24, c') ∧ c'.mem = m.filled y.sbss y.bssSize 0 := by
  obtain ⟨c', hloop, h0, h1, hm⟩ := Steps.rounds (n := y.bssSize / 4)
    (fun k hk c hc => Clearing.round h hc (by omega)) hc
  have hle : c'.regs .a1 ≤ c'.regs .a0 := by
    rw [h0, h1]
    exact h.ebss_le
  have hdone : exec (.bgeu .a0 .a1 .l4) c' = some (c', .goto .l4) :=
    congrArg (fun n => some (c', n)) (if_pos hle)
  refine ⟨c', hloop.trans ((steps_label rfl).trans (steps_goto rfl hdone rfl)), ?_⟩
  rw [hm, h.bssSize_eq]

/-- `_reset` gets to the call of `mojo_main` with memory initialised. -/
theorem exists_stops (h : Placed ram y.toSymbols) (c : Core) :
    ∃ c', Stops exec (code y) (target (code y) .reset, c) (25, c') ∧
      c'.mem = initialise y.toSymbols c.mem := by
  let c₀ : Core := ((c.set .gp y.globalPointer).set .sp y.stackTop).set .t0 y.trapDispatch
  let c₁ : Core := { c₀ with
    csrs := Function.update (Function.update c.csrs 0x305 y.trapDispatch) 0x320 0#32 }
  let c₂ : Core := ((c₁.set .a0 y.sidata).set .a1 y.sdata).set .a2 y.edata
  have hstart : Steps exec (code y) (0, c) (9, c₂) :=
    (steps_label rfl).trans <| (steps_on rfl rfl).trans <| (steps_on rfl rfl).trans <|
      (steps_on rfl rfl).trans <| (steps_on rfl rfl).trans <| (steps_on rfl rfl).trans <|
      (steps_on rfl rfl).trans <| (steps_on rfl rfl).trans (steps_on rfl rfl)
  have hcopy : Copying y c.mem 0 c₂ := by
    refine ⟨?_, ?_, rfl, ?_⟩
    · rw [word_zero]
      rfl
    · rw [word_zero]
      rfl
    · rw [Nat.mul_zero, Ram.copied_zero]
      rfl
  obtain ⟨c₃, hcopied, hm⟩ := hcopy.steps h
  let c₄ : Core := (c₃.set .a0 y.sbss).set .a1 y.ebss
  have hmiddle : Steps exec (code y) (16, c₃) (19, c₄) :=
    (steps_label rfl).trans <| (steps_on rfl rfl).trans (steps_on rfl rfl)
  have hclear : Clearing y c₃.mem 0 c₄ := by
    refine ⟨?_, rfl, ?_⟩
    · rw [word_zero]
      rfl
    · rw [Nat.mul_zero, Ram.filled_zero]
      rfl
  obtain ⟨c₅, hcleared, hm'⟩ := hclear.steps h
  refine ⟨c₅, ⟨?_, rfl⟩, ?_⟩
  · exact hstart.trans <| hcopied.trans <| hmiddle.trans <| hcleared.trans (steps_label rfl)
  · rw [hm', hm, initialise]

end Startup.Rp2350
