import Inmojomni.Listing
import Inmojomni.Mmio.Ram
import Mathlib.Data.List.Nodup

/-!
# RISC-V assembly

Listings of RISC-V instructions: the integer registers, memory, a device behind the control and
status registers, and calls of functions outside the listing, of which only the calling convention
is known (`Callee`).

The two blocks that an interrupt handler begins and ends with, saving and restoring a list of
registers, have closed forms (`straight_saves`, `straight_loads`).
-/

namespace Rv32

open Mmio Listing

inductive Reg
  | zero | ra | sp | gp | tp | t0 | t1 | t2 | s0 | s1
  | a0 | a1 | a2 | a3 | a4 | a5 | a6 | a7
  | s2 | s3 | s4 | s5 | s6 | s7 | s8 | s9 | s10 | s11
  | t3 | t4 | t5 | t6
deriving DecidableEq

/-- The registers a function restores before it returns. -/
def Reg.calleeSaved : Reg → Bool
  | .sp | .gp | .tp | .s0 | .s1 | .s2 | .s3 | .s4 | .s5 | .s6 | .s7 | .s8 | .s9 | .s10 | .s11 => true
  | _ => false

abbrev Regs := Reg → Word

/-- An instruction of a listing with labels `L`. -/
inductive Instr (L : Type)
  | addi (rd rs : Reg) (imm : Word)
  | srli (rd rs : Reg) (shamt : ℕ)
  | li (rd : Reg) (imm : Word)
  | sw (rs : Reg) (off : Word) (base : Reg)
  | lw (rd : Reg) (off : Word) (base : Reg)
  | csrr (rd : Reg) (csr : ℕ)
  | bne (rs rs' : Reg) (target : L)
  | bltz (rs : Reg) (target : L)
  | j (target : L)
  | call (f : L)
  | mret

/-- A function outside the listing. What it does may depend on how many calls came before; it
follows the calling convention, and leaves `frame` bytes from its stack pointer on alone. -/
structure Callee (frame : ℕ) where
  run : ℕ → Regs → Ram → Regs × Ram
  saves : ∀ n regs m r, r.calleeSaved = true → (run n regs m).1 r = regs r
  keeps : ∀ n regs m x, (x - regs .sp).toNat < frame → (run n regs m).2 x = m x

/-- What a listing runs in: the control and status registers of a device, the functions it calls,
and the addresses that its calls return to, one after the other. -/
structure Env (δ L : Type) (frame : ℕ) where
  csr : ℕ → δ → Option (Word × δ)
  callee : L → Callee frame
  link : ℕ → Word

/-- The state of the core, with the first argument of every call made and the address of every
word stored so far. -/
structure Cpu (δ : Type) where
  regs : Regs
  mem : Ram
  dev : δ
  calls : List Word
  stores : List Word

namespace Cpu

variable {δ : Type} (c : Cpu δ)

def get (r : Reg) : Word := if r = .zero then 0#32 else c.regs r

def set (r : Reg) (v : Word) : Cpu δ := { c with regs := Function.update c.regs r v }

end Cpu

/-- Nothing after `mret`. -/
def exec {δ L : Type} {frame : ℕ} (env : Env δ L frame) :
    Instr L → Cpu δ → Option (Cpu δ × Next L)
  | .addi rd rs imm, c => some (c.set rd (c.get rs + imm), .on)
  | .srli rd rs shamt, c => some (c.set rd (c.get rs >>> shamt), .on)
  | .li rd imm, c => some (c.set rd imm, .on)
  | .sw rs off base, c =>
    some ({ c with mem := c.mem.write32 (c.get base + off) (c.get rs)
                   stores := c.stores ++ [c.get base + off] }, .on)
  | .lw rd off base, c => some (c.set rd (c.mem.read32 (c.get base + off)), .on)
  | .csrr rd csr, c => (env.csr csr c.dev).map fun p => ({ c with dev := p.2 }.set rd p.1, .on)
  | .bne rs rs' l, c => some (c, if c.get rs ≠ c.get rs' then .goto l else .on)
  | .bltz rs l, c => some (c, if (c.get rs).msb then .goto l else .on)
  | .j l, c => some (c, .goto l)
  | .call f, c =>
    let res := (env.callee f).run c.calls.length (c.set .ra (env.link c.calls.length)).regs c.mem
    some ({ c with regs := res.1, mem := res.2, calls := c.calls ++ [c.get .a0] }, .on)
  | .mret, _ => none

theorem ne_of_calleeSaved {r r' : Reg} (hr : r.calleeSaved = true)
    (hr' : r'.calleeSaved = false) : r ≠ r' := by
  rintro rfl
  exact Bool.noConfusion (hr.symm.trans hr')

/-! ### Saving and restoring registers -/

section Frame

variable {δ L : Type} {frame : ℕ} {env : Env δ L frame} {c : Cpu δ} {base : Reg}
  {fs : List (Reg × Word)}

/-- Registers with the offset of the slot each is kept in. -/
def saves (base : Reg) (fs : List (Reg × Word)) : List (Instr L) := fs.map fun p => .sw p.1 p.2 base

def loads (base : Reg) (fs : List (Reg × Word)) : List (Instr L) := fs.map fun p => .lw p.1 p.2 base

/-- Where the slots are, and what goes there. -/
def Cpu.slots (c : Cpu δ) (base : Reg) (fs : List (Reg × Word)) : List (Word × Word) :=
  fs.map fun p => (c.get base + p.2, c.get p.1)

theorem straight_saves : straight (exec env) (saves base fs) c =
    some { c with mem := c.mem.storeAll (c.slots base fs)
                  stores := c.stores ++ (c.slots base fs).map Prod.fst } := by
  induction fs generalizing c with
  | nil =>
    rw [Cpu.slots, List.map_nil, List.map_nil, List.append_nil]
    rfl
  | cons p fs ih =>
    refine ih.trans ?_
    simp only [Cpu.slots, Cpu.get, Ram.storeAll, List.map_cons, List.foldl_cons,
      List.append_assoc, List.singleton_append]

/-- Registers after loading their slots. -/
def loadAll (v : Word → Word) (fs : List (Reg × Word)) (regs : Regs) : Regs :=
  fs.foldl (fun regs p => Function.update regs p.1 (v p.2)) regs

theorem straight_loads (hbase : base ∉ fs.map Prod.fst) : straight (exec env) (loads base fs) c =
    some { c with regs := loadAll (fun off => c.mem.read32 (c.get base + off)) fs c.regs } := by
  induction fs generalizing c with
  | nil => rfl
  | cons p fs ih =>
    rw [List.map_cons, List.mem_cons, not_or] at hbase
    obtain ⟨hne, hrest⟩ := hbase
    refine (ih hrest).trans ?_
    have hget : ∀ v, (c.set p.1 v).get base = c.get base := fun v => by
      rw [Cpu.get, Cpu.get]
      split
      · rfl
      · exact Function.update_of_ne hne _ _
    simp only [hget, loadAll, List.foldl_cons]
    rfl

theorem loadAll_of_notMem {v : Word → Word} {regs : Regs} {r : Reg} (h : r ∉ fs.map Prod.fst) :
    loadAll v fs regs r = regs r := by
  induction fs generalizing regs with
  | nil => rfl
  | cons p fs ih =>
    rw [List.map_cons, List.mem_cons, not_or] at h
    exact (ih h.2).trans (Function.update_of_ne h.1 _ _)

theorem loadAll_of_mem {v : Word → Word} {regs : Regs} (hfs : (fs.map Prod.fst).Nodup)
    {p : Reg × Word} (h : p ∈ fs) : loadAll v fs regs p.1 = v p.2 := by
  induction fs generalizing regs with
  | nil => exact absurd h List.not_mem_nil
  | cons q fs ih =>
    obtain ⟨hq, hfs⟩ := List.nodup_cons.mp hfs
    rcases List.mem_cons.mp h with rfl | h
    · exact (loadAll_of_notMem hq).trans (Function.update_self _ _ _)
    · exact ih hfs h

/-- The slots from `base` on hold these values. -/
def Kept (fs : List (Reg × Word)) (base : Word) (regs : Regs) (m : Ram) : Prop :=
  ∀ p ∈ fs, m.read32 (base + p.2) = regs p.1

/-- Slots that do not overlap hold what was stored. -/
theorem kept_storeAll {m : Ram} (hfs : fs.Pairwise fun p q => Ram.Apart q.2 p.2) :
    Kept fs (c.get base) c.get (m.storeAll (c.slots base fs)) := by
  have hpair : (c.slots base fs).Pairwise fun w w' => Ram.Apart w'.1 w.1 :=
    List.pairwise_map.mpr (hfs.imp fun h => h.add_left _)
  intro p hp
  have hmem : (c.get base + p.2, c.get p.1) ∈ c.slots base fs := List.mem_map_of_mem hp
  have hread := Ram.read32_storeAll_mem (m := m) hpair hmem
  exact hread

/-- A callee that leaves the frame alone keeps what is in its slots. -/
theorem Kept.callee {f : Callee frame} {n : ℕ} {regs₀ regs : Regs} {m : Ram}
    (hfs : ∀ p ∈ fs, p.2.toNat + 4 ≤ frame) (hframe : frame < 2 ^ 32)
    (h : Kept fs (regs .sp) regs₀ m) : Kept fs (regs .sp) regs₀ (f.run n regs m).2 := by
  intro p hp
  rw [← h p hp]
  refine Ram.read32_congr fun x hx => f.keeps n regs m x ?_
  have hp := hfs p hp
  bv_omega

end Frame

end Rv32
