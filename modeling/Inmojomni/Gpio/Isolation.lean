import Inmojomni.Gpio.Pads
import Inmojomni.Pwm

/-!
# Which calls connect a pad

On a chip whose pads power up isolated, a pin is dead until the ISO bit of its pad register is
cleared. Of all the calls of `Pin` and `Pwm` only `make_output` writes that bit, and it clears it.
So a sequence of calls leaves every pin that it puts to use connected exactly if the first of the
calls that put it to use is `make_output`, or the pad was connected from the start:
`connected_iff`. A pin that is used as an input or for PWM alone stays isolated
(`makeInput_isolated`).
-/

open Mmio Effect
open Mmio.Ram (stores)

namespace Pwm

/-- A call of `Pwm`. -/
inductive Call
  | construct
  | setTop (top : Word)
  | setDivInt (div : Word)
  | setLevel (level : Word)
  | enable
  | disable
  | counter

/-- Make the call; the answers of the getters are dropped. -/
def Call.run (p : Pwm) : Call → Firmware Unit
  | construct => p.construct
  | setTop top => p.setTop top
  | setDivInt div => p.setDivInt div
  | setLevel level => p.setLevel level
  | enable => p.enable
  | disable => p.disable
  | counter => p.counter.bind fun _ => .ret ()

end Pwm

namespace Pin

/-- A call on a pin, of `Pin` or of `Pwm`. -/
inductive Call (p : Pin)
  | construct
  | setFunction (f : Word)
  | getFunction
  | pad (o : PadOp)
  | padConfig
  | isOutput
  | high
  | low
  | toggle
  | write (level : Bool)
  | readOutput
  | read
  | events
  | ackEvents (mask : Word)
  | irqEnable (mask : Word)
  | irqDisable (mask : Word)
  | irqStatus
  | pwm (mapped : p.chip.numPwmSlices = 8 ∨ p.n.val < 24) (k : Pwm.Call)

namespace Call

variable {p : Pin}

/-- Make the call; the answers of the getters are dropped. -/
def run : Call p → Firmware Unit
  | construct => p.construct
  | setFunction f => p.setFunction f
  | getFunction => p.getFunction.bind fun _ => .ret ()
  | pad o => o.run p
  | padConfig => p.padConfig.bind fun _ => .ret ()
  | isOutput => p.isOutput.bind fun _ => .ret ()
  | high => p.high
  | low => p.low
  | toggle => p.toggle
  | write level => p.write level
  | readOutput => p.readOutput.bind fun _ => .ret ()
  | read => p.read.bind fun _ => .ret ()
  | events => p.events.bind fun _ => .ret ()
  | ackEvents mask => p.ackEvents mask
  | irqEnable mask => p.irqEnable mask
  | irqDisable mask => p.irqDisable mask
  | irqStatus => p.irqStatus.bind fun _ => .ret ()
  | pwm mapped k => k.run ⟨p.chip, p.n, mapped⟩

/-- The call puts the pin to use. -/
def Uses : Call p → Prop
  | pad .makeOutput | pad .makeInput | pwm _ .construct => True
  | _ => False

end Call

/-- The ISO bit of a pad register. -/
def iso : Word := PadField.iso.mask

/-- The pad of the pin is connected. -/
def Connected (p : Pin) (s : Regs) : Prop := s p.pad &&& iso = 0#32

/-! ### Calls that leave ISO alone -/

section Keeps

variable (p : Pin) {b : Word}

/-- The operation leaves the ISO bit of the pad as it is. -/
abbrev KeepsIso (b : Word) (e : Op) : Prop :=
  Keeps p.chip.hardware.access (fun s => s p.pad &&& iso = b) e

theorem keepsIso_read32 (addr : Word) : p.KeepsIso b (.read32 addr) := by
  rintro s r s' ⟨rfl, -⟩ h
  exact h

theorem keepsIso_write32 {addr : Word}
    (h : addr.toNat / 0x4000 ≠ p.chip.padsBank0Base.toNat / 0x4000) (v : Word) :
    p.KeepsIso b (.write32 addr v) := by
  rintro s r s' rfl hs
  exact (keepsBits_of_ne (p.register_ne_pad h) s).trans hs

/-- An address near a base that is aligned to 16 KB. -/
theorem page_add {base off : Word} (hbase : base.toNat % 0x4000 = 0)
    (hlt : base.toNat < 0xFFFF0000) (hoff : off.toNat < 0x4000) :
    (base + off).toNat / 0x4000 = base.toNat / 0x4000 := by
  rw [BitVec.toNat_add]
  omega

/-- The pages of the registers that the calls write to. -/
theorem bases (c : Chip) :
    (c.ioBank0Base.toNat % 0x4000 = 0 ∧ c.ioBank0Base.toNat < 0xFFFF0000 ∧
      c.ioBank0Base.toNat / 0x4000 ≠ c.padsBank0Base.toNat / 0x4000) ∧
    (c.pwmBase.toNat % 0x4000 = 0 ∧ c.pwmBase.toNat < 0xFFFF0000 ∧
      c.pwmBase.toNat / 0x4000 ≠ c.padsBank0Base.toNat / 0x4000) ∧
    (c.resetsReset.toNat % 0x4000 = 0 ∧ c.resetsReset.toNat < 0xFFFF0000 ∧
      c.resetsReset.toNat / 0x4000 ≠ c.padsBank0Base.toNat / 0x4000) := by
  cases c <;> decide

/-- A register of IO_BANK0. -/
theorem keepsIso_ioBank0 {off : Word} (hoff : off.toNat < 0x4000) (v : Word) :
    p.KeepsIso b (.write32 (p.chip.ioBank0Base + off) v) := by
  obtain ⟨⟨hal, hlt, hne⟩, -, -⟩ := bases p.chip
  exact p.keepsIso_write32 (by rwa [page_add hal hlt hoff]) v

/-- A register of the PWM block. -/
theorem keepsIso_pwm {off : Word} (hoff : off.toNat < 0x4000) (v : Word) :
    p.KeepsIso b (.write32 (p.chip.pwmBase + off) v) := by
  obtain ⟨-, ⟨hal, hlt, hne⟩, -⟩ := bases p.chip
  exact p.keepsIso_write32 (by rwa [page_add hal hlt hoff]) v

/-- A register of SIO. -/
theorem keepsIso_sio {addr : Word} (h : 0xD0000000 ≤ addr.toNat) (v : Word) :
    p.KeepsIso b (.write32 addr v) := by
  have hbase : p.chip.padsBank0Base.toNat < 0x40100000 := by cases p.chip <;> decide
  exact p.keepsIso_write32 (by omega) v

theorem keepsIso_resets (v : Word) : p.KeepsIso b (.write32 (p.chip.resetsReset + clrAlias) v) := by
  obtain ⟨-, -, hal, hlt, hne⟩ := bases p.chip
  exact p.keepsIso_write32 (by rwa [page_add hal hlt (by decide)]) v

/-- The registers of the event bits, through an alias or not. -/
theorem keepsIso_event {reg l : Word} (hreg : reg.toNat ≤ 0x120) (hl : l.toNat ≤ 0x3000) (v : Word) :
    p.KeepsIso b (.write32 (p.chip.ioBank0Base + reg + BitVec.ofNat 32 (4 * (p.n / 8)) + l) v) := by
  have hn := p.n_lt
  rw [BitVec.add_assoc, BitVec.add_assoc]
  refine p.keepsIso_ioBank0 ?_ v
  rw [BitVec.toNat_add, BitVec.toNat_add, BitVec.toNat_ofNat]
  omega

/-- The registers of a slice, through an alias or not. -/
theorem keepsIso_slice (w : Pwm) (hchip : w.chip = p.chip) {l : Word} (hl : l.toNat ≤ 0x3000)
    (v : Word) : p.KeepsIso b (.write32 (w.csr + l) v) := by
  have hslice : w.slice < 12 := by
    refine (Nat.mod_lt _ ?_).trans_le ?_ <;> cases w.chip <;> decide
  rw [Pwm.csr, BitVec.add_assoc, hchip]
  refine p.keepsIso_pwm ?_ v
  rw [BitVec.toNat_add, BitVec.toNat_ofNat, Nat.mod_eq_of_lt (a := 0x14 * _) (by omega)]
  refine (Nat.mod_le _ _).trans_lt ?_
  omega

theorem only_setFunction (f : Word) : (p.setFunction f).Only (p.KeepsIso b) := by
  have hn := p.n_lt
  refine Prog.only_call.mpr (p.keepsIso_ioBank0 ?_ f)
  rw [BitVec.toNat_ofNat]
  omega

theorem only_pwm (mapped : p.chip.numPwmSlices = 8 ∨ p.n.val < 24) (k : Pwm.Call) :
    (k.run ⟨p.chip, p.n, mapped⟩).Only (p.KeepsIso b) := by
  have hslice : ∀ l v : Word, l.toNat ≤ 0x3000 →
      p.KeepsIso b (.write32 ((⟨p.chip, p.n, mapped⟩ : Pwm).csr + l) v) :=
    fun l v hl => p.keepsIso_slice _ rfl hl v
  cases k with
  | construct =>
    refine ⟨p.keepsIso_resets _, fun _ => ?_⟩
    refine (Prog.Only.poll (p.keepsIso_read32 _)).bind fun _ => ?_
    exact (p.only_setFunction _).bind fun _ => p.only_setFunction _
  | setTop top => exact Prog.only_call.mpr (hslice _ _ (by decide))
  | setDivInt div => exact Prog.only_call.mpr (hslice _ _ (by decide))
  | setLevel level =>
    refine ⟨p.keepsIso_read32 _, fun cc => ?_⟩
    change Prog.Only _ (if _ then _ else _)
    split <;> exact Prog.only_call.mpr (hslice _ _ (by decide))
  | enable => exact Prog.only_call.mpr (hslice _ _ (by decide))
  | disable => exact Prog.only_call.mpr (hslice _ _ (by decide))
  | counter => exact ⟨p.keepsIso_read32 _, fun _ => trivial⟩

/-- **Only `make_output` writes the ISO bit.** -/
theorem only_call {k : Call p} (hk : k ≠ .pad .makeOutput) : k.run.Only (p.KeepsIso b) := by
  have hread : ∀ {α : Type} (addr : Word) (f : Word → α),
      Prog.Only (p.KeepsIso b) (((Mmio.read32 addr).bind fun r => .ret (f r)).bind fun _ => .ret ()) :=
    fun addr f => ⟨p.keepsIso_read32 addr, fun _ => trivial⟩
  have hout : 0xD0000000 ≤ p.chip.sioGpioOutSet.toNat ∧ 0xD0000000 ≤ p.chip.sioGpioOutClr.toNat ∧
      0xD0000000 ≤ p.chip.sioGpioOutXor.toNat := by
    cases p.chip <;> decide
  have hhigh : p.high.Only (p.KeepsIso b) := Prog.only_call.mpr (p.keepsIso_sio hout.1 _)
  have hlow : p.low.Only (p.KeepsIso b) := Prog.only_call.mpr (p.keepsIso_sio hout.2.1 _)
  cases k with
  | construct => exact p.only_setFunction _
  | setFunction f => exact p.only_setFunction f
  | getFunction | isOutput | readOutput | read | events | irqStatus => exact hread _ _
  | padConfig => exact ⟨p.keepsIso_read32 _, fun _ => trivial⟩
  | pad o =>
    -- the field of any other operation is another one
    rw [Call.run, PadOp.run_eq]
    refine only_stores (PadOp.writes_keepsBits fun f hf => PadField.disjoint ?_)
    rintro rfl
    cases o <;> first | cases hf | exact hk rfl
  | high => exact hhigh
  | low => exact hlow
  | toggle => exact Prog.only_call.mpr (p.keepsIso_sio hout.2.2 _)
  | write level => cases level <;> [exact hlow; exact hhigh]
  | ackEvents mask =>
    have hack := p.keepsIso_event (b := b) (l := 0#32) (show BitVec.toNat 0xF0#32 ≤ 0x120 by decide)
      (by decide)
    rw [BitVec.add_zero] at hack
    exact Prog.only_call.mpr (hack _)
  | irqEnable mask => exact Prog.only_call.mpr (p.keepsIso_event (by decide) (by decide) _)
  | irqDisable mask => exact Prog.only_call.mpr (p.keepsIso_event (by decide) (by decide) _)
  | pwm mapped k => exact p.only_pwm mapped k

/-- The block may leave reset at once. -/
theorem exists_exec_pwm_construct (w : Pwm) (s : Regs) :
    ∃ a s', Exec w.chip.hardware.access w.construct s a s' := by
  obtain ⟨-, hpd⟩ := w.chip.plain_resets
  have hdone : (fun (r : Word) => decide (r &&& w.chip.resetPwm ≠ 0)) (BitVec.allOnes 32) = true := by
    cases w.chip <;> decide
  have hstatus : ∀ t : Regs, BitVec.allOnes 32 &&& ~~~w.chip.hardware.status w.chip.resetsResetDone
      = t w.chip.resetsResetDone &&& ~~~w.chip.hardware.status w.chip.resetsResetDone := fun t => by
    rw [Chip.status_resetsResetDone, BitVec.not_allOnes, BitVec.and_zero, BitVec.and_zero]
  obtain ⟨a, s', hs'⟩ := exists_exec w.chip.hardware.total
    (p := w.gpio.construct.bind fun _ => w.gpio.setFunction functionPwm)
    (fun _ _ => trivial) (s.write w.chip.hardware (w.chip.resetsReset + clrAlias) w.chip.resetPwm)
  refine ⟨a, s', exec_bind.mpr ⟨(), _, exec_write.mpr rfl,
    exec_bind.mpr ⟨BitVec.allOnes 32, _, ?_, hs'⟩⟩⟩
  exact exec_poll_of_done hpd hdone (hstatus _)

/-- Every call comes to its end. -/
theorem exists_exec_call (k : Call p) (s : Regs) :
    ∃ a s', Exec p.chip.hardware.access k.run s a s' := by
  have hend : ∀ q : Firmware Unit, q.Straight → ∃ a s', Exec p.chip.hardware.access q s a s' :=
    fun q hq => exists_exec p.chip.hardware.total hq s
  have hwrite : ∀ addr v, ∃ a s', Exec p.chip.hardware.access (Mmio.write32 addr v) s a s' :=
    fun _ _ => hend _ Prog.straight_call
  have hread : ∀ {α : Type} (addr : Word) (f : Word → α), ∃ a s', Exec p.chip.hardware.access
      (((Mmio.read32 addr).bind fun r => .ret (f r)).bind fun _ => .ret ()) s a s' :=
    fun _ _ => hend _ fun _ => trivial
  cases k with
  | pad o =>
    rw [Call.run, PadOp.run_eq]
    exact hend _ (straight_stores _)
  | write level => cases level <;> exact hwrite _ _
  | getFunction | isOutput | readOutput | read | events | irqStatus => exact hread _ _
  | padConfig => exact hread p.pad id
  | pwm mapped k =>
    cases k with
    | construct => exact exists_exec_pwm_construct ⟨p.chip, p.n, mapped⟩ s
    | setLevel level =>
      refine hend _ fun cc => ?_
      change Prog.Straight (if _ then _ else _)
      split <;> exact Prog.straight_call
    | counter => exact hread _ _
    | _ => exact hwrite _ _
  | _ => exact hwrite _ _

end Keeps

/-! ### Sequences of calls -/

section Sequences

variable {p : Pin} {s s' : Regs} {k : Call p} {calls : List (Call p)}

/-- The calls, one after the other. -/
def Call.runAll (calls : List (Call p)) : Firmware Unit := Prog.forEach Call.run calls

/-- Without `make_output`, the ISO bit is as it was. -/
theorem iso_runAll (hno : Call.pad .makeOutput ∉ calls)
    (h : Exec p.chip.hardware.access (Call.runAll calls) s () s') :
    s' p.pad &&& iso = s p.pad &&& iso := by
  refine h.keeps (I := fun t => t p.pad &&& iso = s p.pad &&& iso) (Prog.Only.forEach ?_) rfl
  rintro k hk
  refine p.only_call ?_
  rintro rfl
  exact hno hk

/-- A connected pad stays connected, access by access. -/
theorem only_connected (k : Call p) :
    k.run.Only (Keeps p.chip.hardware.access p.Connected) := by
  by_cases hk : k = .pad .makeOutput
  · subst hk
    rw [Call.run, PadOp.run_eq]
    refine Prog.Only.forEach fun w hw => Prog.only_call.mpr ?_
    rcases List.mem_cons.mp hw with rfl | hw
    · exact p.keepsIso_write32 p.sio_page.1 _
    · split at hw
      case isTrue =>
        -- the store that clears the bit
        obtain rfl := List.mem_singleton.mp hw
        rintro t r t' rfl -
        exact (congrArg (· &&& iso) (PadOp.write_alias p t _).2).trans (BitVec.and_not_and_self _ _)
      case isFalse => exact absurd hw List.not_mem_nil
  · exact p.only_call hk

/-- `make_output` connects the pad. -/
theorem connected_makeOutput (hiso : p.chip.hasPadIso = true)
    (h : Exec p.chip.hardware.access (PadOp.makeOutput.run p) s () s') : p.Connected s' := by
  rw [PadOp.run_eq] at h
  obtain rfl := exec_stores.mp h
  exact PadOp.writeAll_value (if_pos hiso) s

/-- Once connected, always connected. -/
theorem connected_runAll (hs : p.Connected s)
    (h : Exec p.chip.hardware.access (Call.runAll calls) s () s') : p.Connected s' :=
  h.keeps (Prog.Only.forEach fun k _ => only_connected k) hs

/-- **Which sequences of calls connect the pad.** On a chip with isolated pads: after every call
that puts the pin to use, and at every moment of the calls that follow, the pad is connected,
exactly if it was connected from the start, or whenever such a call has been made a `make_output`
has been made. -/
theorem connected_iff (hiso : p.chip.hasPadIso = true) (calls : List (Call p)) (s : Regs) :
    (∀ past rest s' c, calls = past ++ rest → (∃ k ∈ past, k.Uses) →
        Exec p.chip.hardware.access (Call.runAll past) s () s' →
        p.chip.hardware.machine.Reach ⟨s', fun _ => Call.runAll rest⟩ c → p.Connected c.shared) ↔
      p.Connected s ∨ ∀ past, past <+: calls → (∃ k ∈ past, k.Uses) →
        Call.pad .makeOutput ∈ past := by
  constructor
  · intro h
    by_contra hcon
    rw [not_or] at hcon
    push Not at hcon
    obtain ⟨hs, past, ⟨rest, rfl⟩, huse, hno⟩ := hcon
    obtain ⟨s', hs'⟩ : ∃ s', Exec p.chip.hardware.access (Call.runAll past) s () s' :=
      exists_exec_forEach (fun k _ t => p.exists_exec_call k t) s
    have hconn := h past rest s' _ rfl huse hs' (.refl _)
    exact hs ((iso_runAll hno hs').symm.trans hconn)
  · rintro h past rest s' c rfl huse hs' hc
    have hconn : p.Connected s' := by
      rcases h with hs | h
      · exact connected_runAll hs hs'
      · obtain ⟨before, after, rfl⟩ := List.append_of_mem (h past (List.prefix_append _ _) huse)
        rw [Call.runAll, Prog.forEach_append] at hs'
        obtain ⟨_, t, -, hs'⟩ := exec_bind.mp hs'
        obtain ⟨_, t', hmake, hs'⟩ := exec_bind.mp hs'
        exact connected_runAll (connected_makeOutput hiso hmake) hs'
    exact hc.keeps (fun _ => Prog.Only.forEach fun k _ => only_connected k)
      (fun _ _ he => he.elim) hconn

end Sequences

/-- An LED on a fresh pad of the RP2350. -/
theorem connected_iff_led :
    let p : Pin := ⟨.rp2350, ⟨25, by decide⟩⟩
    let calls : List (Call p) := [.construct, .pad .makeOutput, .toggle]
    ∀ past rest s' c, calls = past ++ rest → (∃ k ∈ past, k.Uses) →
      Exec p.chip.hardware.access (Call.runAll past) (fun _ => 0x156) () s' →
      p.chip.hardware.machine.Reach ⟨s', fun _ => Call.runAll rest⟩ c → p.Connected c.shared := by
  intro p calls
  refine (connected_iff rfl calls _).mpr (.inr ?_)
  rintro past hpre ⟨k, hk, huse⟩
  -- no other call of these puts the pin to use
  rcases List.mem_cons.mp (hpre.subset hk) with rfl | hk'
  · exact huse.elim
  rcases List.mem_pair.mp hk' with rfl | rfl
  · exact hk
  · exact huse.elim

/-- A pull-up input on a fresh pad of the RP2350 stays isolated. -/
theorem makeInput_isolated :
    let p : Pin := ⟨.rp2350, ⟨16, by decide⟩⟩
    let calls : List (Call p) := [.construct, .pad .makeInput, .pad .pullUp]
    p.chip.hasPadIso = true ∧ (∃ k ∈ calls, k.Uses) ∧ ∃ s',
      Exec p.chip.hardware.access (Call.runAll calls) (fun _ => 0x156) () s' ∧ ¬ p.Connected s' := by
  intro p calls
  obtain ⟨s', hs'⟩ : ∃ s', Exec p.chip.hardware.access (Call.runAll calls) (fun _ => 0x156) () s' :=
    exists_exec_forEach (fun k _ t => p.exists_exec_call k t) _
  refine ⟨rfl, ⟨.pad .makeInput, by simp [calls], trivial⟩, s', hs', fun hconn => ?_⟩
  have hno : Call.pad .makeOutput ∉ calls := by simp [calls]
  have hsame := (iso_runAll hno hs').symm.trans hconn
  exact absurd hsame (by decide)

end Pin
