import Inmojomni.Mmio.SharedRegister
import Inmojomni.Pio.StateMachine
import Inmojomni.Pwm

/-!
# Handles that share a register

Two state machines of one block share CTRL, and the two channels of a PWM slice share CC.
`StateMachine.enable`, `StateMachine.disable` and `Pwm.set_level` update their part by reading
the register and writing it back, where the rest of the SDK uses the atomic SET and CLR aliases.
So two contexts with a handle each lose updates exactly where `Overwritten` says:
`noLostUpdate_iff`. The shortest case is two cores that enable a state machine each, and end
with one of them disabled (`enable_lost`).
-/

open Mmio Effect

/-- A handle whose register another handle may share. -/
inductive Handle
  | stateMachine (m : Pio.StateMachine)
  | pwm (p : Pwm)

namespace Handle

/-- A call of the handle: `true` for `enable` and `false` for `disable`, or the level that
`set_level` gets. -/
abbrev Call : Handle → Type
  | stateMachine _ => Bool
  | pwm _ => Word

/-- Make a call. -/
def run : (h : Handle) → h.Call → Firmware Unit
  | stateMachine m, on => if on then m.enable else m.disable
  | pwm p, level => p.setLevel level

/-- The chip the handle is on. -/
def chip : Handle → Chip
  | stateMachine m => m.block.chip
  | pwm p => p.chip

/-- The register a call updates. -/
def register : Handle → Word
  | stateMachine m => m.block.reg .ctrl
  | pwm p => p.cc

/-- The part of the register that belongs to the handle: its enable bit, or its half of CC. -/
def field : Handle → Word
  | stateMachine m => 1#32 <<< m.smWord
  | pwm p => if p.isB then 0xFFFF0000#32 else 0x0000FFFF#32

/-- What a call sets the part to. -/
def value : (h : Handle) → h.Call → Word
  | stateMachine m, on => if on then 1#32 <<< m.smWord else 0#32
  | pwm p, level => if p.isB then (level &&& 0xFFFF#32) <<< 16 else level &&& 0xFFFF#32

/-- The handles are two state machines of a block, or the two channels of a slice. -/
def Shares : Handle → Handle → Prop
  | stateMachine m, stateMachine m' => m.block = m'.block ∧ m.sm ≠ m'.sm
  | pwm p, pwm p' => p.chip = p'.chip ∧ p.slice = p'.slice ∧ p.isB ≠ p'.isB
  | _, _ => False

/-! ### A call updates its field -/

theorem pwm_masks : ~~~0xFFFF0000#32 = 0x0000FFFF#32 ∧ ~~~0x0000FFFF#32 = 0xFFFF0000#32 := by
  decide

/-- A value shifted into the upper half has no bits in the lower one. -/
theorem shiftLeft_and_low (x : Word) : (x <<< 16) &&& 0x0000FFFF#32 = 0#32 := by
  have hmask : ∀ i < 32, 16 ≤ i → (0x0000FFFF#32).getLsbD i = false := by decide
  refine BitVec.eq_of_getLsbD_eq fun i hi => ?_
  rw [BitVec.getLsbD_and, BitVec.getLsbD_shiftLeft, BitVec.getLsbD_zero]
  rcases Nat.lt_or_ge i 16 with hlt | hge
  · simp [hlt]
  · rw [hmask i hi hge, Bool.and_false]

/-- The value of a call lies in the field. -/
theorem value_subset (h : Handle) (k : h.Call) : h.value k &&& ~~~h.field = 0#32 := by
  cases h with
  | stateMachine m =>
    cases k with
    | true => exact BitVec.and_not_self _
    | false => exact BitVec.zero_and
  | pwm p =>
    rw [value, field]
    split
    · rw [pwm_masks.1]
      exact shiftLeft_and_low _
    · have hself : 0xFFFF#32 &&& ~~~0x0000FFFF#32 = 0#32 := BitVec.and_not_self _
      rw [BitVec.and_assoc, hself, BitVec.and_zero]

/-- Setting a bit, as an update of a field. -/
theorem or_eq_insertField (x b : Word) : x ||| b = insertField b b x := by
  refine BitVec.eq_of_getLsbD_eq fun i hi => ?_
  rw [insertField, BitVec.getLsbD_or, BitVec.getLsbD_or, BitVec.getLsbD_and, BitVec.getLsbD_not]
  cases b.getLsbD i <;> simp [hi]

/-- **A call is an update of its field.** -/
theorem run_eq (h : Handle) (k : h.Call) :
    h.run k = updateField h.register h.field (h.value k) := by
  cases h with
  | stateMachine m =>
    cases k with
    | true =>
      change ((read32 (m.block.reg .ctrl)).bind fun cur =>
        write32 (m.block.reg .ctrl) (cur ||| (1#32 <<< m.smWord))) = _
      simp only [or_eq_insertField]
      rfl
    | false =>
      change ((read32 (m.block.reg .ctrl)).bind fun cur =>
        write32 (m.block.reg .ctrl) (cur &&& ~~~(1#32 <<< m.smWord))) = _
      have hzero : ∀ x : Word, x &&& ~~~(1#32 <<< m.smWord) = insertField (1#32 <<< m.smWord) 0#32 x :=
        fun x => BitVec.or_zero.symm
      simp only [hzero]
      rfl
  | pwm p =>
    rw [run, Pwm.setLevel, updateField, register, field, value]
    split
    · simp only [insertField, pwm_masks.1]
      rfl
    · simp only [insertField, pwm_masks.2]
      rfl

/-- The calls of a context, as updates. -/
theorem forEach_run_eq (h : Handle) (calls : List h.Call) :
    Prog.forEach h.run calls = updateFields h.register h.field (calls.map h.value) := by
  induction calls with
  | nil => rfl
  | cons k ks ih =>
    rw [Prog.forEach, run_eq, ih]
    rfl

/-! ### The shared register -/

/-- The compare register of a slice: a plain address outside the PIO blocks. -/
theorem toNat_cc (p : Pwm) : p.chip.pwmBase.toNat ≤ p.cc.toNat ∧
    p.cc.toNat < p.chip.pwmBase.toNat + 0x1000 ∧ p.cc.toNat % 4 = 0 := by
  have hslice : p.slice < 12 := by
    refine (Nat.mod_lt _ ?_).trans_le ?_ <;> cases p.chip <;> decide
  have hbase : p.chip.pwmBase.toNat < 0x40100000 ∧ p.chip.pwmBase.toNat % 4 = 0 := by
    cases p.chip <;> decide
  have hcc : p.cc.toNat = p.chip.pwmBase.toNat + 0x14 * p.slice + 0xC := by
    rw [Pwm.cc, Pwm.csr, BitVec.toNat_add, BitVec.toNat_add, BitVec.toNat_ofNat,
      show BitVec.toNat (0x0C : Word) = 0x0C from rfl, Nat.mod_eq_of_lt (a := 0x14 * _) (by omega),
      Nat.mod_eq_of_lt (a := _ + 0x14 * _) (by omega), Nat.mod_eq_of_lt (by omega)]
  refine ⟨?_, ?_, ?_⟩ <;> omega

theorem plain_cc (p : Pwm) : Plain p.cc := by
  obtain ⟨hlo, hhi, -⟩ := toNat_cc p
  have hbase : p.chip.pwmBase.toNat % 0x4000 = 0 := by cases p.chip <;> decide
  refine plain_of_toNat ?_
  omega

/-- The compare register is an ordinary register. -/
theorem hardware_cc (p : Pwm) : p.chip.hardware.status p.cc = 0#32 ∧
    p.chip.hardware.kept p.cc = BitVec.allOnes 32 := by
  obtain ⟨hlo, hhi, -⟩ := toNat_cc p
  have hlt : p.chip.pwmBase.toNat + 0x1000 ≤ p.chip.pio0Base.toNat := by cases p.chip <;> decide
  have hreset : p.chip.resetsResetDone.toNat < p.chip.pwmBase.toNat := by cases p.chip <;> decide
  have hlocate : Pio.Block.locate p.chip p.cc = none := if_neg (by omega)
  have hne : p.cc ≠ p.chip.resetsResetDone := by
    intro heq
    rw [heq] at hlo
    omega
  simp only [Chip.hardware, hlocate, if_neg hne]
  exact ⟨rfl, trivial⟩

theorem enableBit_and (i j : Fin 4) : (1#32 <<< BitVec.ofNat 32 i) &&& 0xF#32 =
    1#32 <<< BitVec.ofNat 32 i ∧ (i ≠ j → (1#32 <<< BitVec.ofNat 32 i) &&&
      (1#32 <<< BitVec.ofNat 32 j) = 0#32) := by
  decide +revert

/-- Two handles that share a register own disjoint fields of it. -/
theorem Shares.fields {h : Bool → Handle} (hsh : (h false).Shares (h true)) :
    Fields (h false).chip.hardware (h false).register (fun t => (h t).field) ∧
      ∀ t, (h t).register = (h false).register := by
  -- what has to be checked, for each of the two contexts
  have key : Plain (h false).register → (h false).chip.hardware.status (h false).register = 0#32 →
      (∀ t, (h t).field &&& (h false).chip.hardware.kept (h false).register = (h t).field) →
      (h true).field &&& (h false).field = 0#32 → (h true).register = (h false).register →
      Fields (h false).chip.hardware (h false).register (fun t => (h t).field) ∧
        ∀ t, (h t).register = (h false).register :=
    fun hp hs hk hd hr => ⟨⟨hp, hs, hk, hd⟩, fun t => by cases t <;> [rfl; exact hr]⟩
  rcases h₀ : h false with m | p <;> rcases h₁ : h true with m' | p' <;> rw [h₀, h₁] at hsh
  · obtain ⟨hblock, hne⟩ := hsh
    rw [← h₀]
    refine key ?_ ?_ (fun t => ?_) ?_ ?_
    · rw [h₀]
      exact m.block.plain_reg _
    · rw [h₀]
      exact m.block.status_reg _
    · have hkept : (h false).chip.hardware.kept (h false).register = 0xF#32 := by
        rw [h₀]
        exact m.block.kept_reg _
      rw [hkept]
      cases t
      · rw [h₀]
        exact (enableBit_and m.sm m.sm).1
      · rw [h₁]
        exact (enableBit_and m'.sm m'.sm).1
    · rw [h₀, h₁]
      exact (enableBit_and m'.sm m.sm).2 hne.symm
    · rw [h₀, h₁, register, register, hblock]
  · exact hsh.elim
  · exact hsh.elim
  · obtain ⟨hchip, hslice, hne⟩ := hsh
    obtain ⟨hstatus, hkept⟩ := hardware_cc p
    rw [← h₀]
    refine key ?_ ?_ (fun t => ?_) ?_ ?_
    · rw [h₀]
      exact plain_cc p
    · rw [h₀]
      exact hstatus
    · have hkept' : (h false).chip.hardware.kept (h false).register = BitVec.allOnes 32 := by
        rw [h₀]
        exact hkept
      rw [hkept', BitVec.and_allOnes]
    · rw [h₀, h₁, field, field]
      revert hne
      cases p.isB <;> cases p'.isB <;> decide
    · rw [h₀, h₁, register, register, Pwm.cc, Pwm.csr, Pwm.cc, Pwm.csr, hchip, hslice]

/-- **Which calls survive.** Two contexts call their handles, which share a register. When both
have finished, each part of the register is as its handle's last call set it, exactly if no
context makes its last write while the other one holds an older value of that part, read
before and not written back yet. -/
theorem noLostUpdate_iff {h : Bool → Handle} (hsh : (h false).Shares (h true))
    (calls : ∀ t, List (h t).Call) {s₀ : Regs}
    {ls : List (Config Bool Op.Answer Unit Regs × Label Bool)} {c : Config Bool Op.Answer Unit Regs}
    (hrun : (busMachine (h false).chip.hardware).Run
      ⟨s₀, fun t => Prog.forEach (h t).run (calls t)⟩ ls c)
    (hdone : ∀ t, c.threads t = .ret ()) :
    (∀ u, ∀ k ∈ (calls u).getLast?,
        c.shared (h u).register &&& (h u).field = (h u).value k) ↔
      ∀ u, ∀ e ∈ ls, e.2 = .access u →
        ¬ Overwritten (h u).register (fun t => (h t).field) e.1 u := by
  obtain ⟨hf, hreg⟩ := hsh.fields
  have hthreads : (fun t => Prog.forEach (h t).run (calls t))
      = fun t => updateFields (h false).register (h t).field ((calls t).map (h t).value) := by
    funext t
    rw [forEach_run_eq, hreg t]
  rw [hthreads] at hrun
  have hvalue : ∀ t, ∀ v ∈ (calls t).map (h t).value, v &&& ~~~(h t).field = 0#32 := by
    intro t v hv
    obtain ⟨k, -, rfl⟩ := List.mem_map.mp hv
    exact (h t).value_subset k
  refine forall_congr' fun u => ?_
  rw [hreg u, ← finished_field_iff hf hvalue hrun hdone u, List.getLast?_map]
  simp

/-- The two channels of slice 7, one call after the other. -/
theorem noLostUpdate_iff_sequential :
    let h : Bool → Handle := fun t => .pwm (if t then ⟨.rp2040, ⟨15, by decide⟩, .inl rfl⟩
      else ⟨.rp2040, ⟨14, by decide⟩, .inl rfl⟩)
    let calls : ∀ t, List (h t).Call := fun _ => [500#32]
    ∃ ls c, (busMachine (h false).chip.hardware).Run
        ⟨fun _ => 0, fun t => Prog.forEach (h t).run (calls t)⟩ ls c ∧
      (∀ t, c.threads t = .ret ()) ∧
      ((∀ u, ∀ k ∈ (calls u).getLast?, c.shared (h u).register &&& (h u).field = (h u).value k) ↔
        ∀ u, ∀ e ∈ ls, e.2 = .access u →
          ¬ Overwritten (h u).register (fun t => (h t).field) e.1 u) := by
  intro h calls
  obtain ⟨ls, hrun⟩ := exists_run (h false).chip.hardware
    (c := ⟨fun _ => 0, fun t => Prog.forEach (h t).run (calls t)⟩) [false, false, true, true] rfl
  have hsh : (h false).Shares (h true) := ⟨rfl, by decide, by decide⟩
  exact ⟨ls, _, hrun, fun t => by cases t <;> rfl,
    noLostUpdate_iff hsh calls hrun fun t => by cases t <;> rfl⟩

/-- Two cores enable a state machine each: both read CTRL before either writes it back, and
state machine 0 ends up disabled. -/
theorem enable_lost :
    let h : Bool → Handle := fun t => .stateMachine ⟨.pio0, if t then 1 else 0⟩
    let calls : ∀ t, List (h t).Call := fun _ => [true]
    (h false).Shares (h true) ∧ ∃ ls c, (busMachine (h false).chip.hardware).Run
        ⟨fun _ => 0, fun t => Prog.forEach (h t).run (calls t)⟩ ls c ∧
      (∀ t, c.threads t = .ret ()) ∧
      ¬ ∀ u, ∀ k ∈ (calls u).getLast?,
        c.shared (h u).register &&& (h u).field = (h u).value k := by
  intro h calls
  obtain ⟨ls, hrun⟩ := exists_run (h false).chip.hardware
    (c := ⟨fun _ => 0, fun t => Prog.forEach (h t).run (calls t)⟩) [false, true, false, true] rfl
  refine ⟨⟨rfl, by decide⟩, ls, _, hrun, fun t => by cases t <;> rfl, fun hall => ?_⟩
  exact absurd (hall false true rfl) (by decide)

end Handle
