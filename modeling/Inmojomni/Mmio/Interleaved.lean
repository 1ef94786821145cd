import Inmojomni.Effect.Frame
import Inmojomni.Mmio.Ram
import Inmojomni.Mmio.SharedRegister

/-!
# Two contexts that only store

Two contexts store to registers, plainly or through the atomic aliases, and never read one. What a
store leaves in some bits of a register depends on those bits alone (`Regs.write_congr`). So where
the stores of one context leave some bits alone (`KeepsBits`), these bits are at every moment what
the stores that the other context has made, and no others, leave in them: `interleaved_bits`.

This is what a read-modify-write does not have: there the value stored depends on what the other
context's fields were at the read.
-/

open Effect
open Mmio.Ram (stores)

namespace Mmio

variable {hw : Hardware} {a m addr v : Word} {s s' : Regs}

/-- The registers after stores one after the other. -/
def Regs.writeAll (hw : Hardware) (s : Regs) (ws : List (Word × Word)) : Regs :=
  ws.foldl (fun s w => s.write hw w.1 w.2) s

/-- The store leaves the bits under `m` of register `a` as they are. -/
def KeepsBits (hw : Hardware) (a m : Word) (w : Word × Word) : Prop :=
  ∀ s : Regs, s.write hw w.1 w.2 a &&& m = s a &&& m

/-! ### One store -/

theorem combine_congr {x y : Word} (h : x &&& m = y &&& m) :
    combine addr x v &&& m = combine addr y v &&& m := by
  have hswap : ∀ z w : Word, z &&& w &&& m = z &&& m &&& w := fun z w => by
    rw [BitVec.and_assoc, BitVec.and_comm w, BitVec.and_assoc]
  have hxor : ∀ z : Word, (z ^^^ v) &&& m = (z &&& m) ^^^ (v &&& m) := fun z => by
    refine BitVec.eq_of_getLsbD_eq fun i _ => ?_
    simp only [BitVec.getLsbD_and, BitVec.getLsbD_xor]
    cases m.getLsbD i <;> simp
  rw [combine, combine]
  split
  · rw [hxor, hxor, h]
  split
  · rw [BitVec.and_or_distrib_right, BitVec.and_or_distrib_right, h]
  split
  · rw [hswap, hswap, h]
  · rfl

/-- **What a store leaves in some bits depends on these bits alone.** -/
theorem Regs.write_congr (h : s a &&& m = s' a &&& m) :
    s.write hw addr v a &&& m = s'.write hw addr v a &&& m := by
  rw [Regs.write, Regs.write]
  rcases eq_or_ne a (register addr) with rfl | hne
  · have hkept : ∀ x : Word, x &&& hw.kept (register addr) &&& m
        = x &&& m &&& hw.kept (register addr) := fun x => by
      rw [BitVec.and_assoc, BitVec.and_comm (hw.kept _), BitVec.and_assoc]
    rw [Function.update_self, Function.update_self, hkept, hkept, combine_congr h]
  · rw [Function.update_of_ne hne, Function.update_of_ne hne, h]

theorem keepsBits_of_ne (h : register addr ≠ a) : KeepsBits hw a m (addr, v) := fun s => by
  rw [Regs.write, Function.update_of_ne h.symm]

/-- A set of other bits of the register. -/
theorem keepsBits_set (ha : Plain a) (hkept : hw.kept a &&& m = m) (h : v &&& m = 0#32) :
    KeepsBits hw a m (a + setAlias, v) := fun s => by
  rw [Regs.write_set ha, Function.update_self, BitVec.and_assoc, hkept,
    BitVec.and_or_distrib_right, h, BitVec.or_zero]

/-- A clear of other bits of the register. -/
theorem keepsBits_clr (ha : Plain a) (hkept : hw.kept a &&& m = m) (h : v &&& m = 0#32) :
    KeepsBits hw a m (a + clrAlias, v) := fun s => by
  have hnot : ~~~v &&& m = m := by
    rw [BitVec.and_comm]
    exact BitVec.and_not_of_and_eq_zero ((BitVec.and_comm m v).trans h)
  rw [Regs.write_clr ha, Function.update_self, BitVec.and_assoc, hkept, BitVec.and_not_and hnot]

/-! ### Many stores -/

theorem writeAll_append (ws ws' : List (Word × Word)) :
    s.writeAll hw (ws ++ ws') = (s.writeAll hw ws).writeAll hw ws' := List.foldl_append

theorem writeAll_keepsBits {ws : List (Word × Word)} (h : ∀ w ∈ ws, KeepsBits hw a m w) (s : Regs) :
    s.writeAll hw ws a &&& m = s a &&& m := by
  induction ws generalizing s with
  | nil => rfl
  | cons w ws ih =>
    obtain ⟨hw', hws⟩ := List.forall_mem_cons.mp h
    exact (ih hws _).trans (hw' s)

theorem exec_stores {ws : List (Word × Word)} {u : Unit} :
    Exec hw.access (stores ws) s u s' ↔ s' = s.writeAll hw ws := by
  induction ws generalizing s with
  | nil => exact exec_ret.trans (and_iff_right rfl)
  | cons w ws ih =>
    refine exec_bind.trans ⟨?_, fun hs => ⟨(), _, exec_write.mpr rfl, ih.mpr hs⟩⟩
    rintro ⟨_, t, hw', hs⟩
    obtain rfl := exec_write.mp hw'
    exact ih.mp hs

theorem straight_stores (ws : List (Word × Word)) : (stores ws).Straight := by
  induction ws with
  | nil => trivial
  | cons w ws ih => exact fun _ => ih

/-- Stores that keep some bits, as operations. -/
theorem only_stores {ws : List (Word × Word)} {b : Word} (h : ∀ w ∈ ws, KeepsBits hw a m w) :
    (stores ws).Only (Keeps hw.access fun s => s a &&& m = b) := by
  refine Prog.Only.forEach fun w hw' => Prog.only_call.mpr ?_
  rintro s r s' rfl hI
  exact (h w hw' s).trans hI

/-! ### Side by side -/

/-- Where two contexts stand that make the stores `ws`: the stores that each has made, and what
they have come to in the bits that the other context leaves alone. -/
structure Interleaving (hw : Hardware) (ws : Bool → List (Word × Word)) (s₀ : Regs)
    (made left : Bool → List (Word × Word)) (c : Config Bool Op.Answer Unit Regs) : Prop where
  split : ∀ t, ws t = made t ++ left t
  threads : ∀ t, c.threads t = stores (left t)
  bits : ∀ t a m, (∀ w ∈ ws (!t), KeepsBits hw a m w) →
    c.shared a &&& m = s₀.writeAll hw (made t) a &&& m

variable {ws made left : Bool → List (Word × Word)} {s₀ : Regs}
  {c c' : Config Bool Op.Answer Unit Regs}

/-- **Step lemma.** The context that makes a step makes its next store. -/
theorem Interleaving.step (h : Interleaving hw ws s₀ made left c) {l : Label Bool}
    (hs : (busMachine hw).Step c l c') : ∃ made' left', Interleaving hw ws s₀ made' left' c' := by
  cases hs with
  | @unfold s ts t β γ body b k ht =>
    have hprog := (h.threads t).symm.trans ht
    rcases hleft : left t with _ | ⟨w, rest⟩ <;> rw [hleft] at hprog <;> cases hprog
  | env he => exact he.elim
  | @access s s' ts t e k r ht ha =>
    have hprog := (h.threads t).symm.trans ht
    rcases hleft : left t with _ | ⟨w, rest⟩
    · rw [hleft] at hprog
      cases hprog
    · rw [hleft] at hprog
      cases hprog
      have hsplit : ws t = (made t ++ [w]) ++ rest := by
        rw [h.split t, hleft, List.append_assoc, List.singleton_append]
      refine ⟨Function.update made t (made t ++ [w]), Function.update left t rest,
        fun u => ?_, fun u => ?_, fun u a m hkeep => ?_⟩
      · rcases eq_or_ne u t with rfl | hne
        · rw [Function.update_self, Function.update_self, hsplit]
        · rw [Function.update_of_ne hne, Function.update_of_ne hne, h.split u]
      · rcases eq_or_ne u t with rfl | hne
        · simp
          rfl
        · simpa [Function.update_of_ne hne] using h.threads u
      · obtain rfl : s' = s.write hw w.1 w.2 := ha
        rcases eq_or_ne u t with rfl | hne
        · rw [Function.update_self, writeAll_append]
          exact Regs.write_congr (h.bits u a m hkeep)
        · -- the store of the other context leaves the bits alone
          have hother : (!u) = t := by cases u <;> cases t <;> simp_all
          rw [Function.update_of_ne hne, ← h.bits u a m hkeep]
          refine hkeep w ?_ s
          rw [hother, hsplit]
          simp

/-- **Run lemma.** -/
theorem exists_interleaving (hc : (busMachine hw).Reach ⟨s₀, fun t => stores (ws t)⟩ c) :
    ∃ made left, Interleaving hw ws s₀ made left c := by
  refine hc.induction (P := fun c => ∃ made left, Interleaving hw ws s₀ made left c)
    ⟨fun _ => [], ws, fun _ => rfl, fun _ => rfl, fun _ _ _ _ => rfl⟩ ?_
  rintro c l c' - ⟨made, left, h⟩ hs
  exact h.step hs

/-- **Stores do not race.** When both contexts have finished, the bits that one context leaves
alone are as the other one's stores alone leave them. -/
theorem interleaved_bits (hc : (busMachine hw).Reach ⟨s₀, fun t => stores (ws t)⟩ c)
    (hdone : ∀ t, c.threads t = .ret ()) (t : Bool) (hkeep : ∀ w ∈ ws (!t), KeepsBits hw a m w) :
    c.shared a &&& m = s₀.writeAll hw (ws t) a &&& m := by
  obtain ⟨made, left, h⟩ := exists_interleaving hc
  have hleft : left t = [] := by
    have hprog := (h.threads t).symm.trans (hdone t)
    rcases hl : left t with _ | ⟨w, rest⟩
    · rfl
    · rw [hl] at hprog
      cases hprog
  rw [h.bits t a m hkeep, h.split t, hleft, List.append_nil]

end Mmio
