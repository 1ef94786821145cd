import Inmojomni.Listing
import Inmojomni.Startup

/-!
# The startup of the RP2040

`reset_handler` of `crt0.S` as it stands there, for a Cortex-M0+. Of the flags only the carry is
read, which `cmp` sets when nothing was borrowed. A load or store of a word that is not aligned ends
in a fault.
-/

namespace Startup.Rp2040

open Listing Mmio

inductive Reg
  | r0 | r1 | r2 | r3 | r4 | r5 | r6 | r7
deriving DecidableEq

inductive Label
  | resetHandler | l1 | l2 | l3 | l4 | hang | mojoMain
deriving DecidableEq

/-- `ldr rd value` is `ldr rd, =value`. Loads and stores are of one register, with writeback. -/
inductive Instr
  | ldr (rd : Reg) (value : Word)
  | movs (rd : Reg) (imm : Word)
  | cmp (rn rm : Reg)
  | ldmia (rn rd : Reg)
  | stmia (rn rd : Reg)
  | bcs (target : Label)
  | b (target : Label)
  | bl (f : Label)
  | wfi

structure Cpu where
  regs : Reg → Word
  carry : Bool
  mem : Ram

def Cpu.set (c : Cpu) (r : Reg) (v : Word) : Cpu := { c with regs := Function.update c.regs r v }

/-- A call has no outcome: the run goes on outside of the listing. -/
def exec : Instr → Cpu → Option (Cpu × Next Label)
  | .ldr rd value, c => some (c.set rd value, .on)
  | .movs rd imm, c => some (c.set rd imm, .on)
  | .cmp rn rm, c => some ({ c with carry := decide (c.regs rm ≤ c.regs rn) }, .on)
  | .ldmia rn rd, c =>
    if Aligned (c.regs rn) then
      some ((c.set rn (c.regs rn + 4#32)).set rd (c.mem.read32 (c.regs rn)), .on)
    else none
  | .stmia rn rd, c =>
    if Aligned (c.regs rn) then
      some ({ c.set rn (c.regs rn + 4#32) with mem := c.mem.write32 (c.regs rn) (c.regs rd) }, .on)
    else none
  | .bcs l, c => some (c, if c.carry then .goto l else .on)
  | .b l, c => some (c, .goto l)
  | .bl _, _ => none
  | .wfi, c => some (c, .on)

open Label Reg in
/-- `reset_handler`, up to the line after `hang`. -/
def code (y : Symbols) : List (Line Label Instr) :=
  [.label resetHandler,
    .instr (.ldr r0 y.sidata),
    .instr (.ldr r1 y.sdata),
    .instr (.ldr r2 y.edata),
    .label l1,
    .instr (.cmp r1 r2),
    .instr (.bcs l2),
    .instr (.ldmia r0 r3),
    .instr (.stmia r1 r3),
    .instr (.b l1),
    .label l2,
    .instr (.ldr r1 y.sbss),
    .instr (.ldr r2 y.ebss),
    .instr (.movs r3 0#32),
    .label l3,
    .instr (.cmp r1 r2),
    .instr (.bcs l4),
    .instr (.stmia r1 r3),
    .instr (.b l3),
    .label l4,
    .instr (.bl mojoMain),
    .label hang,
    .instr .wfi,
    .instr (.b hang)]

variable {y : Symbols} {ram : Set Word} {m : Ram} {c : Cpu} {k : ℕ}

/-- `k` words of `.data` have been copied. -/
structure Copying (y : Symbols) (m : Ram) (k : ℕ) (c : Cpu) : Prop where
  r0 : c.regs .r0 = word y.sidata k
  r1 : c.regs .r1 = word y.sdata k
  r2 : c.regs .r2 = y.edata
  mem : c.mem = m.copied y.sdata y.sidata (4 * k)

/-- `k` words of `.bss` have been cleared. -/
structure Clearing (y : Symbols) (m : Ram) (k : ℕ) (c : Cpu) : Prop where
  r1 : c.regs .r1 = word y.sbss k
  r2 : c.regs .r2 = y.ebss
  r3 : c.regs .r3 = 0#32
  mem : c.mem = m.filled y.sbss (4 * k) 0

/-- A copy takes one word from the image to `.data`. -/
theorem Copying.round (h : Placed ram y) (hc : Copying y m k c) (hk : 4 * k < y.dataSize) :
    ∃ c', Steps exec (code y) (4, c) (4, c') ∧ Copying y m (k + 1) c' := by
  obtain ⟨h0, h1, h2, hm⟩ := hc
  have hgo : ¬ c.regs .r2 ≤ c.regs .r1 := by
    rw [h1, h2]
    exact h.not_edata_le hk
  let c₁ : Cpu := { c with carry := decide (c.regs .r2 ≤ c.regs .r1) }
  let c₂ : Cpu := (c₁.set .r0 (c.regs .r0 + 4#32)).set .r3 (c.mem.read32 (c.regs .r0))
  let c₃ : Cpu := { c₂.set .r1 (c.regs .r1 + 4#32) with
    mem := c.mem.write32 (c.regs .r1) (c.mem.read32 (c.regs .r0)) }
  have hcmp : exec (.cmp .r1 .r2) c = some (c₁, .on) := rfl
  have hbcs : exec (.bcs .l2) c₁ = some (c₁, .on) := by
    rw [exec, if_neg]
    rwa [decide_eq_true_iff]
  have hldm : exec (.ldmia .r0 .r3) c₁ = some (c₂, .on) := by
    refine if_pos ?_
    change Aligned (c.regs .r0)
    rw [h0]
    exact h.sidata_aligned.word k
  have hstm : exec (.stmia .r1 .r3) c₂ = some (c₃, .on) := by
    refine if_pos ?_
    change Aligned (c.regs .r1)
    rw [h1]
    exact h.sdata_aligned.word k
  refine ⟨c₃, ?_, ?_, ?_, h2, ?_⟩
  · exact (steps_label rfl).trans <| (steps_on rfl hcmp).trans <| (steps_on rfl hbcs).trans <|
      (steps_on rfl hldm).trans <| (steps_on rfl hstm).trans (steps_goto rfl rfl rfl)
  · change c.regs .r0 + 4#32 = _
    rw [h0, word_succ]
  · change c.regs .r1 + 4#32 = _
    rw [h1, word_succ]
  · change c.mem.write32 (c.regs .r1) (c.mem.read32 (c.regs .r0)) = _
    rw [hm, h0, h1, h.copied_word hk]

/-- Clearing takes one word of `.bss`. -/
theorem Clearing.round (h : Placed ram y) (hc : Clearing y m k c) (hk : 4 * k < y.bssSize) :
    ∃ c', Steps exec (code y) (14, c) (14, c') ∧ Clearing y m (k + 1) c' := by
  obtain ⟨h1, h2, h3, hm⟩ := hc
  have hgo : ¬ c.regs .r2 ≤ c.regs .r1 := by
    rw [h1, h2]
    exact h.not_ebss_le hk
  let c₁ : Cpu := { c with carry := decide (c.regs .r2 ≤ c.regs .r1) }
  let c₂ : Cpu := { c₁.set .r1 (c.regs .r1 + 4#32) with
    mem := c.mem.write32 (c.regs .r1) (c.regs .r3) }
  have hcmp : exec (.cmp .r1 .r2) c = some (c₁, .on) := rfl
  have hbcs : exec (.bcs .l4) c₁ = some (c₁, .on) := by
    rw [exec, if_neg]
    rwa [decide_eq_true_iff]
  have hstm : exec (.stmia .r1 .r3) c₁ = some (c₂, .on) := by
    refine if_pos ?_
    change Aligned (c.regs .r1)
    rw [h1]
    exact h.sbss_aligned.word k
  refine ⟨c₂, ?_, ?_, h2, h3, ?_⟩
  · exact (steps_label rfl).trans <| (steps_on rfl hcmp).trans <| (steps_on rfl hbcs).trans <|
      (steps_on rfl hstm).trans (steps_goto rfl rfl rfl)
  · change c.regs .r1 + 4#32 = _
    rw [h1, word_succ]
  · change c.mem.write32 (c.regs .r1) (c.regs .r3) = _
    rw [hm, h1, h3, h.filled_word hk]

/-- The end of a loop: the branch is taken. -/
theorem steps_exit (pc : ℕ) {l : Label} {pc' : ℕ}
    (hcmp : (code y)[pc]? = some (.instr (.cmp .r1 .r2)))
    (hbcs : (code y)[pc + 1]? = some (.instr (.bcs l))) (hl : target (code y) l = pc')
    (hend : c.regs .r2 ≤ c.regs .r1) :
    Steps exec (code y) (pc, c) (pc', { c with carry := true }) := by
  have htest : exec (.cmp .r1 .r2) c = some ({ c with carry := true }, .on) := by
    rw [exec, decide_eq_true hend]
  exact (steps_on hcmp htest).trans (steps_goto hbcs rfl hl)

/-- The first loop copies all of `.data`. -/
theorem Copying.steps (h : Placed ram y) (hc : Copying y m 0 c) :
    ∃ c', Steps exec (code y) (4, c) (10, c') ∧
      c'.mem = m.copied y.sdata y.sidata y.dataSize := by
  obtain ⟨c', hloop, -, h1, h2, hm⟩ := Steps.rounds (n := y.dataSize / 4)
    (fun k hk c hc => Copying.round h hc (by omega)) hc
  have hle : c'.regs .r2 ≤ c'.regs .r1 := by
    rw [h1, h2]
    exact h.edata_le
  have hexit := (steps_label rfl).trans (steps_exit (y := y) 5 rfl rfl rfl hle)
  exact ⟨{ c' with carry := true }, hloop.trans hexit, hm.trans (by rw [h.dataSize_eq])⟩

/-- The second loop clears all of `.bss`. -/
theorem Clearing.steps (h : Placed ram y) (hc : Clearing y m 0 c) :
    ∃ c', Steps exec (code y) (14, c) (19, c') ∧ c'.mem = m.filled y.sbss y.bssSize 0 := by
  obtain ⟨c', hloop, h1, h2, -, hm⟩ := Steps.rounds (n := y.bssSize / 4)
    (fun k hk c hc => Clearing.round h hc (by omega)) hc
  have hle : c'.regs .r2 ≤ c'.regs .r1 := by
    rw [h1, h2]
    exact h.ebss_le
  have hexit := (steps_label rfl).trans (steps_exit (y := y) 15 rfl rfl rfl hle)
  exact ⟨{ c' with carry := true }, hloop.trans hexit, hm.trans (by rw [h.bssSize_eq])⟩

/-- `reset_handler` gets to the call of `mojo_main` with memory initialised. -/
theorem exists_stops (h : Placed ram y) (c : Cpu) :
    ∃ c', Stops exec (code y) (target (code y) .resetHandler, c) (20, c') ∧
      c'.mem = initialise y c.mem := by
  let c₁ : Cpu := ((c.set .r0 y.sidata).set .r1 y.sdata).set .r2 y.edata
  have hstart : Steps exec (code y) (0, c) (4, c₁) :=
    (steps_label rfl).trans <| (steps_on rfl rfl).trans <|
      (steps_on rfl rfl).trans (steps_on rfl rfl)
  have hcopy : Copying y c.mem 0 c₁ := by
    refine ⟨?_, ?_, rfl, ?_⟩
    · rw [word_zero]
      rfl
    · rw [word_zero]
      rfl
    · rw [Nat.mul_zero, Ram.copied_zero]
      rfl
  obtain ⟨c₂, hcopied, hm⟩ := hcopy.steps h
  let c₃ : Cpu := ((c₂.set .r1 y.sbss).set .r2 y.ebss).set .r3 0#32
  have hmiddle : Steps exec (code y) (10, c₂) (14, c₃) :=
    (steps_label rfl).trans <| (steps_on rfl rfl).trans <|
      (steps_on rfl rfl).trans (steps_on rfl rfl)
  have hclear : Clearing y c₂.mem 0 c₃ := by
    refine ⟨?_, rfl, rfl, ?_⟩
    · rw [word_zero]
      rfl
    · rw [Nat.mul_zero, Ram.filled_zero]
      rfl
  obtain ⟨c₄, hcleared, hm'⟩ := hclear.steps h
  refine ⟨c₄, ⟨?_, rfl⟩, ?_⟩
  · exact hstart.trans <| hcopied.trans <| hmiddle.trans <| hcleared.trans (steps_label rfl)
  · rw [hm', hm, initialise]

end Startup.Rp2040
