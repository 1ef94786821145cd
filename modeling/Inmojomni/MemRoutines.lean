import Inmojomni.Startup.Rp2350

/-!
# `memcpy` and `memset`

The two routines of `crt0_rv32.S` that compiled code calls to copy and to fill memory. Each is a
loop that counts the length in `a2` down to zero, one byte a round. `Counting` is what the loops
have in common, `Copying` and `Filling` add what is in memory after so many rounds.

What C asks for is `Copies` and `Fills` for memory, and `Kept` for the registers.
-/

namespace MemRoutines

open Listing Mmio Rv32
open Startup.Rp2350 (Core)

/-! ### The listings -/

inductive Label
  | memcpy | memset | l1 | l2
deriving DecidableEq

inductive Instr
  | mv (rd rs : Reg)
  | beqz (rs : Reg) (target : Label)
  | lbu (rd : Reg) (off : Word) (base : Reg)
  | sb (rs : Reg) (off : Word) (base : Reg)
  | addi (rd rs : Reg) (imm : Word)
  | j (target : Label)
  | ret

/-- A return has no outcome: the run goes on in the caller. -/
def exec : Instr → Core → Option (Core × Next Label)
  | .mv rd rs, c => some (c.set rd (c.get rs), .on)
  | .beqz rs l, c => some (c, if c.get rs = 0#32 then .goto l else .on)
  | .lbu rd off base, c => some (c.set rd ((c.mem (c.get base + off)).setWidth 32), .on)
  | .sb rs off base, c =>
    some ({ c with mem := c.mem.write8 (c.get base + off) (Ram.byte (c.get rs) 0) }, .on)
  | .addi rd rs imm, c => some (c.set rd (c.get rs + imm), .on)
  | .j l, c => some (c, .goto l)
  | .ret, _ => none

open Label Reg in
/-- `memcpy(dst, src, n)`, with its arguments in `a0`, `a1` and `a2`. -/
def memcpy : List (Line Label Instr) :=
  [.label Label.memcpy,
    .instr (.mv t0 a0),
    .label l1,
    .instr (.beqz a2 l2),
    .instr (.lbu t1 0#32 a1),
    .instr (.sb t1 0#32 t0),
    .instr (.addi a1 a1 1#32),
    .instr (.addi t0 t0 1#32),
    .instr (.addi a2 a2 (-1#32)),
    .instr (.j l1),
    .label l2,
    .instr .ret]

open Label Reg in
/-- `memset(dst, c, n)`. -/
def memset : List (Line Label Instr) :=
  [.label Label.memset,
    .instr (.mv t0 a0),
    .label l1,
    .instr (.beqz a2 l2),
    .instr (.sb a1 0#32 t0),
    .instr (.addi t0 t0 1#32),
    .instr (.addi a2 a2 (-1#32)),
    .instr (.j l1),
    .label l2,
    .instr .ret]

/-- A call of `f` gets to a return. -/
def Returns (code : List (Line Label Instr)) (f : Label) (c e : Core) : Prop :=
  ∃ pc, Stops exec code (target code f, c) (pc, e) ∧ code[pc]? = some (.instr .ret)

/-! ### What C asks for -/

/-- The addresses of `n` bytes. -/
def bytes (a : Word) (n : ℕ) : Set Word := {x | a.toNat ≤ x.toNat ∧ x.toNat < a.toNat + n}

/-- They do not wrap around. -/
def Fits (a : Word) (n : ℕ) : Prop := a.toNat + n ≤ 2 ^ 32

/-- From `m` to `m'`, `n` bytes have been copied and nothing else has happened. -/
structure Copies (dst src : Word) (n : ℕ) (m m' : Ram) : Prop where
  copied : ∀ k < n, m' (dst + BitVec.ofNat 32 k) = m (src + BitVec.ofNat 32 k)
  elsewhere : ∀ x ∉ bytes dst n, m' x = m x

structure Fills (dst : Word) (n : ℕ) (v : Byte) (m m' : Ram) : Prop where
  filled : ∀ k < n, m' (dst + BitVec.ofNat 32 k) = v
  elsewhere : ∀ x ∉ bytes dst n, m' x = m x

/-- The registers that a call may leave changed. -/
def clobbered : List Reg := [.a0, .a1, .a2, .t0, .t1]

/-- The registers of a call that returns its first argument. -/
structure Kept (c e : Core) : Prop where
  result : e.regs .a0 = c.regs .a0
  regs : ∀ r ∉ clobbered, e.regs r = c.regs r
  csrs : e.csrs = c.csrs

variable {m : Ram} {dst src a x : Word} {n k : ℕ} {c d e : Core} {v : Byte}

theorem Fits.le (h : Fits a n) : n ≤ 2 ^ 32 := (Nat.le_add_left _ _).trans h

theorem Fits.sub_lt_iff (h : Fits a n) : (x - a).toNat < n ↔ x ∈ bytes a n := by
  change _ ↔ a.toNat ≤ x.toNat ∧ x.toNat < a.toNat + n
  rw [Fits] at h
  bv_omega

theorem Fits.add_mem (h : Fits a n) (hk : k < n) : a + BitVec.ofNat 32 k ∈ bytes a n := by
  rw [← h.sub_lt_iff, Ram.toNat_add_ofNat_sub hk h.le]
  exact hk

theorem Fits.clear (hd : Fits dst n) (hs : Fits src n)
    (h : Disjoint (bytes dst n) (bytes src n)) : Ram.Clear dst src n := by
  intro k hk
  by_contra hlt
  exact Set.disjoint_left.mp h (hd.sub_lt_iff.mp (not_le.mp hlt)) (hs.add_mem hk)

theorem Fits.copies (h : Fits dst n) : Copies dst src n m (m.copied dst src n) where
  copied _ hk := Ram.copied_add_ofNat hk h.le
  elsewhere _ hx := if_neg fun hlt => hx (h.sub_lt_iff.mp hlt)

theorem Fits.fills (h : Fits dst n) : Fills dst n v m (m.filled dst n v) where
  filled _ hk := Ram.filled_add_ofNat hk h.le
  elsewhere _ hx := if_neg fun hlt => hx (h.sub_lt_iff.mp hlt)

/-- There is one state in which a call returns. -/
theorem Returns.iff {code : List (Line Label Instr)} {f : Label} (h : Returns code f c d) :
    Returns code f c e ↔ e = d := by
  obtain ⟨pc, hstops, hret⟩ := h
  constructor
  · rintro ⟨pc', hstops', -⟩
    exact congrArg Prod.snd (hstops.unique hstops')
  · rintro rfl
    exact ⟨pc, hstops, hret⟩

/-! ### The loops -/

/-- `k` bytes of a call in the state `c` are done. -/
structure Counting (c : Core) (k : ℕ) (e : Core) : Prop where
  t0 : e.regs .t0 = c.regs .a0 + BitVec.ofNat 32 k
  a2 : e.regs .a2 = c.regs .a2 - BitVec.ofNat 32 k
  regs : ∀ r ∉ [Reg.a1, .a2, .t0, .t1], e.regs r = c.regs r
  csrs : e.csrs = c.csrs

namespace Counting

/-- The loop goes on while there are bytes left. -/
theorem beqz_on (h : Counting c k e) (hk : k < (c.regs .a2).toNat) :
    exec (.beqz .a2 .l2) e = some (e, .on) := by
  have hne : ¬ e.get .a2 = 0#32 := by
    change ¬ e.regs .a2 = 0#32
    rw [h.a2]
    bv_omega
  rw [exec, if_neg hne]

theorem beqz_done (h : Counting c (c.regs .a2).toNat e) :
    exec (.beqz .a2 .l2) e = some (e, .goto .l2) := by
  have heq : e.get .a2 = 0#32 := by
    change e.regs .a2 = 0#32
    rw [h.a2, BitVec.ofNat_toNat, BitVec.setWidth_eq, BitVec.sub_self]
  rw [exec, if_pos heq]

theorem start (c : Core) : Counting c 0 (c.set .t0 (c.get .a0)) where
  t0 := (BitVec.add_zero _).symm
  a2 := (BitVec.sub_zero _).symm
  regs r hr := by
    refine Function.update_of_ne ?_ _ _
    rintro rfl
    exact hr (by decide)
  csrs := rfl

/-- The end of a round, in which `a1` and `t1` may have been changed before. -/
theorem succ (h : Counting c k e) {d : Core} (hregs : ∀ r ∉ [Reg.a1, .t1], d.regs r = e.regs r)
    (hcsrs : d.csrs = e.csrs) :
    Counting c (k + 1) ((d.set .t0 (d.get .t0 + 1#32)).set .a2 (d.get .a2 + -1#32)) where
  t0 := by
    change d.regs .t0 + 1#32 = _
    rw [hregs .t0 (by decide), h.t0, BitVec.add_assoc, ← BitVec.ofNat_add]
  a2 := by
    change d.regs .a2 + -1#32 = _
    rw [hregs .a2 (by decide), h.a2]
    bv_omega
  regs r hr := by
    simp only [List.mem_cons, List.not_mem_nil, or_false, not_or] at hr
    obtain ⟨h1, h2, h3, h4⟩ := hr
    change Function.update (Function.update d.regs .t0 _) .a2 _ r = _
    rw [Function.update_of_ne h2, Function.update_of_ne h3, hregs r (by simp [h1, h4]),
      h.regs r (by simp [h1, h2, h3, h4])]
  csrs := hcsrs.trans h.csrs

theorem kept (h : Counting c k e) : Kept c e where
  result := h.regs .a0 (by decide)
  regs r hr := h.regs r fun hmem => hr (List.mem_cons_of_mem _ hmem)
  csrs := h.csrs

end Counting

/-- `k` bytes have been copied. -/
structure Copying (c : Core) (k : ℕ) (e : Core) : Prop extends Counting c k e where
  a1 : e.regs .a1 = c.regs .a1 + BitVec.ofNat 32 k
  mem : e.mem = c.mem.copied (c.regs .a0) (c.regs .a1) k

/-- `k` bytes have been filled. -/
structure Filling (c : Core) (k : ℕ) (e : Core) : Prop extends Counting c k e where
  a1 : e.regs .a1 = c.regs .a1
  mem : e.mem = c.mem.filled (c.regs .a0) k (Ram.byte (c.regs .a1) 0)

/-- A round of `memcpy` takes one byte from the source to the destination. -/
theorem Copying.round (h : Copying c k e)
    (hclear : Ram.Clear (c.regs .a0) (c.regs .a1) (c.regs .a2).toNat)
    (hk : k < (c.regs .a2).toNat) :
    ∃ e', Steps exec memcpy (2, e) (2, e') ∧ Copying c (k + 1) e' := by
  let v : Byte := e.mem (e.regs .a1 + 0#32)
  let e₁ : Core := e.set .t1 (v.setWidth 32)
  let e₂ : Core := { e₁ with
    mem := e.mem.write8 (e.regs .t0 + 0#32) (Ram.byte (v.setWidth 32) 0) }
  let e₃ : Core := e₂.set .a1 (e.regs .a1 + 1#32)
  let e₄ : Core := (e₃.set .t0 (e₃.get .t0 + 1#32)).set .a2 (e₃.get .a2 + -1#32)
  have hregs : ∀ r ∉ [Reg.a1, .t1], e₃.regs r = e.regs r := by
    intro r hr
    simp only [List.mem_cons, List.not_mem_nil, or_false, not_or] at hr
    change Function.update (Function.update e.regs .t1 _) .a1 _ r = _
    rw [Function.update_of_ne hr.1, Function.update_of_ne hr.2]
  refine ⟨e₄, ?_, h.succ hregs rfl, ?_, ?_⟩
  · exact (steps_label rfl).trans <| (steps_on rfl (h.beqz_on hk)).trans <|
      (steps_on rfl rfl).trans <| (steps_on rfl rfl).trans <| (steps_on rfl rfl).trans <|
      (steps_on rfl rfl).trans <| (steps_on rfl rfl).trans (steps_goto rfl rfl rfl)
  · change e.regs .a1 + 1#32 = _
    rw [h.a1, BitVec.add_assoc, ← BitVec.ofNat_add]
  · change e.mem.write8 (e.regs .t0 + 0#32) (Ram.byte (v.setWidth 32) 0) = _
    rw [Ram.byte_setWidth]
    change e.mem.write8 (e.regs .t0 + 0#32) (e.mem (e.regs .a1 + 0#32)) = _
    rw [BitVec.add_zero, BitVec.add_zero, h.mem, h.t0, h.a1,
      Ram.copied_byte hclear (c.regs .a2).isLt.le hk]

/-- A round of `memset` fills one byte. -/
theorem Filling.round (h : Filling c k e) (hk : k < (c.regs .a2).toNat) :
    ∃ e', Steps exec memset (2, e) (2, e') ∧ Filling c (k + 1) e' := by
  let e₁ : Core := { e with
    mem := e.mem.write8 (e.regs .t0 + 0#32) (Ram.byte (e.regs .a1) 0) }
  let e₂ : Core := (e₁.set .t0 (e₁.get .t0 + 1#32)).set .a2 (e₁.get .a2 + -1#32)
  refine ⟨e₂, ?_, h.succ (d := e₁) (fun _ _ => rfl) rfl, h.a1, ?_⟩
  · exact (steps_label rfl).trans <| (steps_on rfl (h.beqz_on hk)).trans <|
      (steps_on rfl rfl).trans <| (steps_on rfl rfl).trans <| (steps_on rfl rfl).trans
        (steps_goto rfl rfl rfl)
  · have hlen : k + 1 ≤ 2 ^ 32 := hk.trans (c.regs .a2).isLt
    change e.mem.write8 (e.regs .t0 + 0#32) (Ram.byte (e.regs .a1) 0) = _
    rw [BitVec.add_zero, h.mem, h.t0, h.a1, Ram.filled_byte hlen]

/-- `memcpy` returns with all its bytes copied. -/
theorem exists_returns_memcpy
    (hclear : Ram.Clear (c.regs .a0) (c.regs .a1) (c.regs .a2).toNat) :
    ∃ e, Returns memcpy .memcpy c e ∧ Copying c (c.regs .a2).toNat e := by
  have hstart : Copying c 0 (c.set .t0 (c.get .a0)) :=
    { Counting.start c with
      a1 := (BitVec.add_zero _).symm
      mem := Ram.copied_zero.symm }
  obtain ⟨e, hloop, he⟩ := Steps.rounds (fun k hk e h => Copying.round h hclear hk) hstart
  have hgo : Steps exec memcpy (0, c) (2, c.set .t0 (c.get .a0)) :=
    (steps_label rfl).trans (steps_on rfl rfl)
  have hdone : Steps exec memcpy (2, e) (11, e) :=
    (steps_label rfl).trans <| (steps_goto rfl he.beqz_done rfl).trans (steps_label rfl)
  exact ⟨e, ⟨11, ⟨hgo.trans (hloop.trans hdone), rfl⟩, rfl⟩, he⟩

/-- `memset` returns with all its bytes filled. -/
theorem exists_returns_memset (c : Core) :
    ∃ e, Returns memset .memset c e ∧ Filling c (c.regs .a2).toNat e := by
  have hstart : Filling c 0 (c.set .t0 (c.get .a0)) :=
    { Counting.start c with
      a1 := rfl
      mem := Ram.filled_zero.symm }
  obtain ⟨e, hloop, he⟩ := Steps.rounds (fun k hk e h => Filling.round h hk) hstart
  have hgo : Steps exec memset (0, c) (2, c.set .t0 (c.get .a0)) :=
    (steps_label rfl).trans (steps_on rfl rfl)
  have hdone : Steps exec memset (2, e) (9, e) :=
    (steps_label rfl).trans <| (steps_goto rfl he.beqz_done rfl).trans (steps_label rfl)
  exact ⟨e, ⟨9, ⟨hgo.trans (hloop.trans hdone), rfl⟩, rfl⟩, he⟩

/-- **Both routines are exact.** If the ranges of bytes do not wrap around, and for `memcpy` do not
overlap, each call returns in one state only, with memory and the registers as C asks for. -/
theorem memcpy_memset_exact (c : Core) :
    (Fits (c.regs .a0) (c.regs .a2).toNat → Fits (c.regs .a1) (c.regs .a2).toNat →
      Disjoint (bytes (c.regs .a0) (c.regs .a2).toNat) (bytes (c.regs .a1) (c.regs .a2).toNat) →
      ∃ e, (∀ e', Returns memcpy .memcpy c e' ↔ e' = e) ∧
        Copies (c.regs .a0) (c.regs .a1) (c.regs .a2).toNat c.mem e.mem ∧ Kept c e) ∧
    (Fits (c.regs .a0) (c.regs .a2).toNat →
      ∃ e, (∀ e', Returns memset .memset c e' ↔ e' = e) ∧
        Fills (c.regs .a0) (c.regs .a2).toNat (Ram.byte (c.regs .a1) 0) c.mem e.mem ∧
        Kept c e) := by
  refine ⟨fun hdst hsrc hdisj => ?_, fun hdst => ?_⟩
  · obtain ⟨e, hreturns, he⟩ := exists_returns_memcpy (hdst.clear hsrc hdisj)
    refine ⟨e, fun _ => hreturns.iff, ?_, he.kept⟩
    rw [he.mem]
    exact hdst.copies
  · obtain ⟨e, hreturns, he⟩ := exists_returns_memset c
    refine ⟨e, fun _ => hreturns.iff, ?_, he.kept⟩
    rw [he.mem]
    exact hdst.fills

/-- A call for three bytes at the start of RAM. -/
def three : Core where
  regs
    | .a0 => 0x20000000#32
    | .a1 => 0x200001c5#32
    | .a2 => 3#32
    | _ => 0#32
  csrs _ := 0#32
  mem x := x.setWidth 8

theorem memcpy_memset_exact_three :
    (∃ e, (∀ e', Returns memcpy .memcpy three e' ↔ e' = e) ∧
      Copies 0x20000000#32 0x200001c5#32 3 three.mem e.mem ∧ Kept three e) ∧
    ∃ e, (∀ e', Returns memset .memset three e' ↔ e' = e) ∧
      Fills 0x20000000#32 3 0xc5#8 three.mem e.mem ∧ Kept three e := by
  have hdst : Fits 0x20000000#32 3 := by
    rw [Fits]
    decide
  have hsrc : Fits 0x200001c5#32 3 := by
    rw [Fits]
    decide
  have hdisj : Disjoint (bytes 0x20000000#32 3) (bytes 0x200001c5#32 3) := by
    refine Set.disjoint_left.mpr ?_
    rintro x ⟨-, hlt⟩ ⟨hle, -⟩
    change x.toNat < 0x20000003 at hlt
    change 0x200001c5 ≤ x.toNat at hle
    omega
  exact ⟨(memcpy_memset_exact three).1 hdst hsrc hdisj, (memcpy_memset_exact three).2 hdst⟩

end MemRoutines
