import Inmojomni.Clocks
import Inmojomni.Effect.RelyGuarantee

/-!
# Clock switching is safe

No call ever leaves clk_sys on a source that is not running, whatever the hardware does in between
(`Running`), AUXSRC changes only while SRC is clk_ref, and clk_ref stays on the crystal once it is
there (`OnCrystal`). Each store keeps these (`Guarded`), and each call is a chain of assertions
about the clock tree, one after every store and every wait: what a call knows about the PLL it has
itself established since it took it through reset.

`clocks_safe` is about whole sessions. The calls may come in any order, but `sys_clock_125mhz()`
only while clk_sys runs from clk_ref, which every other call establishes.
-/

namespace Clocks

open Mmio Effect

namespace Tree

variable (s : Tree)

/-- The ring oscillator always runs; it is what the chip boots from, and nothing here touches it.
The crystal runs once it is stable. -/
def OscRunning (src : BitVec 2) : Prop := src = 0 ∨ src = clkRefSrcXosc ∧ s.stable = true

/-- clk_ref runs, whether a switch is under way or not. -/
def RefRunning : Prop := s.OscRunning s.refSrc ∧ s.OscRunning s.refSel

/-- Out of reset, powered, with VCO and post-divider powered, and locked. -/
def PllUsable : Prop := s.VcoOn ∧ s.pllSysPwr &&& pllPwrPostdivpd = 0#32 ∧ s.locked = true

/-- The source that `src` stands for at the mux of clk_sys runs. -/
def SysRunning (src : BitVec 1) : Prop :=
  if src = clkSysSrcClkRef then s.RefRunning else s.auxsrc = 0 ∧ s.PllUsable

/-- The source clk_sys is selecting runs, and the one it is still on. -/
def Running : Prop := s.SysRunning s.sysSrc ∧ s.SysRunning s.sysSel

/-- clk_sys runs from clk_ref. -/
def OnRef : Prop := s.sysSrc = clkSysSrcClkRef ∧ s.sysSel = clkSysSrcClkRef

/-- clk_sys runs from PLL_SYS. -/
def OnPll : Prop :=
  s.sysSrc = clkSysSrcAux ∧ s.sysSel = clkSysSrcAux ∧ s.auxsrc = 0 ∧ s.PllUsable

/-- clk_ref runs from the crystal. -/
def OnCrystal : Prop := s.refSrc = clkRefSrcXosc ∧ s.refSel = clkRefSrcXosc ∧ s.stable = true

/-- PLL, VCO and post-divider are powered down. -/
def PoweredDown : Prop :=
  s.pllSysPwr &&& (pllPwrPd ||| pllPwrVcopd ||| pllPwrPostdivpd)
    = pllPwrPd ||| pllPwrVcopd ||| pllPwrPostdivpd

/-- A PLL in reset has its reset values. -/
def Held : Prop := s.InReset → s.PoweredDown

end Tree

/-! ### Bits of the control registers -/

section Bits

theorem sysSrc_clr (x : Word) :
    (x &&& ~~~clkSysSrcAux.setWidth 32).extractLsb' 0 1 = clkSysSrcClkRef := by
  refine BitVec.eq_of_getLsbD_eq fun i hi => ?_
  obtain rfl : i = 0 := by omega
  rw [BitVec.getLsbD_extractLsb', BitVec.getLsbD_and, BitVec.getLsbD_not]
  have hbit : (clkSysSrcAux.setWidth 32).getLsbD (0 + 0) = true := by decide
  rw [hbit, Bool.not_true, Bool.and_false, Bool.and_false, Bool.and_false]
  rfl

theorem auxsrc_clr (x : Word) :
    (x &&& ~~~clkSysSrcAux.setWidth 32).extractLsb' 5 3 = x.extractLsb' 5 3 := by
  refine BitVec.eq_of_getLsbD_eq fun i hi => ?_
  have hbit : ∀ i < 3, decide (5 + i < 32) && !(clkSysSrcAux.setWidth 32).getLsbD (5 + i) := by
    decide
  rw [BitVec.getLsbD_extractLsb', BitVec.getLsbD_and, BitVec.getLsbD_not, hbit i hi, Bool.and_true,
    BitVec.getLsbD_extractLsb']

end Bits

/-! ### Accesses -/

namespace Tree

variable {s : Tree} {r : Reg} {v : Word}

theorem plain_addr (r : Reg) : Plain r.addr := by
  cases r with
  | _ => rfl

theorem find_addr (r : Reg) : Reg.all.find? (fun q => q.addr = r.addr) = some r := by
  cases r with
  | _ => rfl

theorem write_addr : s.write r.addr v = s.put r v := by
  rw [write, (plain_addr r).register_eq, find_addr]
  exact congrArg (s.put r) ((plain_addr r).combine_eq _ _)

theorem write_set : s.write (r.addr + setAlias) v = s.put r (s.get r ||| v) := by
  have hreg := (plain_addr r).register_add (l := setAlias) (by decide)
  rw [write, hreg, find_addr]
  exact congrArg (s.put r) ((plain_addr r).combine_set _ _)

theorem write_clr : s.write (r.addr + clrAlias) v = s.put r (s.get r &&& ~~~v) := by
  have hreg := (plain_addr r).register_add (l := clrAlias) (by decide)
  rw [write, hreg, find_addr]
  exact congrArg (s.put r) ((plain_addr r).combine_clr _ _)

end Tree

/-- What a store may do: clk_sys has its sources running afterwards, AUXSRC changes only while
SRC is clk_ref, and clk_ref stays on the crystal. -/
def Guarded (s s' : Tree) : Prop :=
  s'.Running ∧
  (s'.auxsrc ≠ s.auxsrc → s.sysSrc = clkSysSrcClkRef ∧ s'.sysSrc = clkSysSrcClkRef) ∧
  (s.OnCrystal → s'.OnCrystal)

/-- One core: the others are the hardware. -/
def protocol : Protocol machine where
  rely _ := Tree.Step
  guar _ _ s _ s' := s' = s ∨ Guarded s s'
  guar_rely h := absurd (Subsingleton.elim _ _) h
  env_rely h := h

/-! ### What the hardware keeps by itself -/

section Keeps

/-- What is only about registers. -/
theorem stable_regs {P : Tree → Prop}
    (h : ∀ s b l (x : BitVec 2) (y : BitVec 1), P s →
      P { s with stable := b, locked := l, refSel := x, sysSel := y }) :
    Stable protocol () P := by
  intro s s' hs hP
  cases hs with
  | stable => exact h s true s.locked s.refSel s.sysSel hP
  | lock => exact h s s.stable true s.refSel s.sysSel hP
  | ref => exact h s s.stable s.locked s.refSrc s.sysSel hP
  | sys => exact h s s.stable s.locked s.refSel s.sysSrc hP

theorem stable_stable : Stable protocol () fun s => s.stable = true := by
  intro s s' hs h
  cases hs with
  | stable => rfl
  | lock | ref | sys => exact h

theorem stable_locked : Stable protocol () fun s => s.locked = true := by
  intro s s' hs h
  cases hs with
  | lock => rfl
  | stable | ref | sys => exact h

theorem stable_held : Stable protocol () Tree.Held := stable_regs fun _ _ _ _ _ h => h

theorem stable_onRef : Stable protocol () Tree.OnRef := by
  rintro s s' hs ⟨hsrc, hsel⟩
  cases hs with
  | sys => exact ⟨hsrc, hsrc⟩
  | stable | lock | ref => exact ⟨hsrc, hsel⟩

theorem stable_pllUsable : Stable protocol () Tree.PllUsable :=
  (stable_regs fun _ _ _ _ _ h => h).and ((stable_regs fun _ _ _ _ _ h => h).and stable_locked)

theorem stable_onPll : Stable protocol () Tree.OnPll := by
  rintro s s' hs ⟨hsrc, hsel, haux, hpll⟩
  have hpll' := stable_pllUsable s s' hs hpll
  cases hs with
  | sys => exact ⟨hsrc, hsrc, haux, hpll'⟩
  | stable | lock | ref => exact ⟨hsrc, hsel, haux, hpll'⟩

theorem stable_onCrystal : Stable protocol () Tree.OnCrystal := by
  rintro s s' hs ⟨hsrc, hsel, hstable⟩
  cases hs with
  | stable => exact ⟨hsrc, hsel, rfl⟩
  | ref => exact ⟨hsrc, hsrc, hstable⟩
  | lock | sys => exact ⟨hsrc, hsel, hstable⟩

theorem oscRunning_step {s s' : Tree} (hs : s.Step s') {src : BitVec 2} (h : s.OscRunning src) :
    s'.OscRunning src := h.imp_right fun hx => ⟨hx.1, stable_stable s s' hs hx.2⟩

theorem stable_refRunning : Stable protocol () Tree.RefRunning := by
  rintro s s' hs ⟨hsrc, hsel⟩
  have hsrc' := oscRunning_step hs hsrc
  have hsel' := oscRunning_step hs hsel
  cases hs with
  | ref => exact ⟨hsrc', hsrc'⟩
  | stable | lock | sys => exact ⟨hsrc', hsel'⟩

theorem sysRunning_step {s s' : Tree} (hs : s.Step s') {src : BitVec 1} (h : s.SysRunning src) :
    s'.SysRunning src := by
  rw [Tree.SysRunning] at h ⊢
  split_ifs at h ⊢
  · exact stable_refRunning s s' hs h
  · have haux : s'.auxsrc = s.auxsrc := by
      cases hs with
      | _ => rfl
    exact ⟨haux.trans h.1, stable_pllUsable s s' hs h.2⟩

theorem stable_running : Stable protocol () Tree.Running := by
  rintro s s' hs ⟨hsrc, hsel⟩
  have hsrc' := sysRunning_step hs hsrc
  have hsel' := sysRunning_step hs hsel
  cases hs with
  | sys => exact ⟨hsrc', hsrc'⟩
  | stable | lock | ref => exact ⟨hsrc', hsel'⟩

end Keeps

/-! ### Rules for stores and waits -/

section Rules

variable {P Q : Tree → Prop} {addr v mask : Word}

theorem write_rule (hP : Stable protocol () P) (hQ : Stable protocol () Q)
    (h : ∀ s, P s →
      (s.write addr v = s ∨ Guarded s (s.write addr v)) ∧ Q (s.write addr v)) :
    Triple protocol () P (write32 addr v) fun _ => Q := by
  refine Triple.call hP (fun _ => hQ) fun s r s' hs ha => ?_
  obtain rfl := ha
  exact h s hs

theorem poll_rule {done : Word → Bool} (hP : Stable protocol () P) (hQ : Stable protocol () Q)
    (h : ∀ s r, P s → s.Reads addr r → done r = true → Q s) :
    Triple protocol () P ((Prog.poll (Op.read32 addr) done).bind fun _ => .ret ()) fun _ => Q := by
  refine Triple.bind (Q := fun _ => Q) (Triple.poll hP (fun _ => hQ) ?_) fun _ => .ret hQ fun _ h => h
  rintro s (r : Word) s' hs ⟨rfl, hr⟩
  refine ⟨Or.inl rfl, ?_⟩
  cases hd : done r with
  | true => exact h _ r hs hr hd
  | false => exact hs

theorem waitAny_rule (hP : Stable protocol () P) (hQ : Stable protocol () Q)
    (h : ∀ s r, P s → s.Reads addr r → r &&& mask ≠ 0#32 → Q s) :
    Triple protocol () P (waitAny addr mask) fun _ => Q :=
  poll_rule hP hQ fun s r hs hr hd => h s r hs hr (of_decide_eq_true hd)

theorem waitFor_rule (hP : Stable protocol () P) (hQ : Stable protocol () Q)
    (h : ∀ s, P s → s.Reads addr v → Q s) : Triple protocol () P (waitFor addr v) fun _ => Q := by
  refine poll_rule hP hQ fun s r hs hr hd => ?_
  obtain rfl := of_decide_eq_true hd
  exact h s hs hr

end Rules

/-! ### Stores while clk_sys is on clk_ref -/

/-- The registers that hold PLL_SYS, in reset or not. -/
def Reg.ofPll : Reg → Bool
  | .resetsReset | .pllSysCs | .pllSysPwr | .pllSysFbdivInt | .pllSysPrim => true
  | .xoscCtrl | .clkRefCtrl | .clkSysCtrl => false

/-- clk_sys and clk_ref run from the crystal. -/
def AtCrystal (s : Tree) : Prop := s.Held ∧ s.OnCrystal ∧ s.OnRef

theorem stable_atCrystal : Stable protocol () AtCrystal :=
  stable_held.and (stable_onCrystal.and stable_onRef)

theorem running_onRef {s : Tree} (hc : s.RefRunning) (hr : s.OnRef) : s.Running := by
  rw [Tree.Running, Tree.SysRunning, Tree.SysRunning, if_pos hr.1, if_pos hr.2]
  exact ⟨hc, hc⟩

theorem refRunning_onCrystal {s : Tree} (h : s.OnCrystal) : s.RefRunning :=
  ⟨Or.inr ⟨h.1, h.2.2⟩, Or.inr ⟨h.2.1, h.2.2⟩⟩

/-- A store from clk_ref to clk_ref. -/
theorem guarded_atCrystal {s s' : Tree} (h : s.OnRef) (h' : AtCrystal s') : Guarded s s' :=
  ⟨running_onRef (refRunning_onCrystal h'.2.1) h'.2.2, fun _ => ⟨h.1, h'.2.2.1⟩, fun _ => h'.2.1⟩

/-- The reset value of PWR. -/
theorem poweredDown_reset : 0x2D#32 &&& (pllPwrPd ||| pllPwrVcopd ||| pllPwrPostdivpd)
    = pllPwrPd ||| pllPwrVcopd ||| pllPwrPostdivpd := by
  decide

theorem held_put {s : Tree} (h : s.Held) (r : Reg) (x : Word) : (s.put r x).Held := by
  cases r with
  | resetsReset =>
    rw [Tree.put]
    split_ifs with hx
    · exact fun hin => absurd hx hin
    · exact fun _ => poweredDown_reset
  | xoscCtrl | clkRefCtrl | clkSysCtrl => exact h
  | pllSysCs | pllSysPwr | pllSysFbdivInt | pllSysPrim =>
    rw [Tree.put]
    split_ifs with hin
    · exact h
    · exact fun hin' => absurd hin' hin

/-- The registers of the PLL are not those of the muxes. -/
theorem atCrystal_put {s : Tree} (h : AtCrystal s) {r : Reg} (hr : r.ofPll = true) (x : Word) :
    AtCrystal (s.put r x) := by
  refine ⟨held_put h.1 r x, ?_⟩
  cases r with
  | resetsReset | pllSysCs | pllSysPwr | pllSysFbdivInt | pllSysPrim =>
    rw [Tree.put]
    split_ifs
    · exact h.2
    · exact h.2
  | xoscCtrl | clkRefCtrl | clkSysCtrl => exact nomatch hr

section Pll

variable {P Q : Tree → Prop} {r : Reg} {addr v : Word}

/-- A store to a register of the PLL, through an alias or not, with what it is for. -/
theorem pll_rule (hP : Stable protocol () P) (hQ : Stable protocol () Q) (hr : r.ofPll = true)
    {x : Tree → Word} (hput : ∀ s : Tree, s.write addr v = s.put r (x s))
    (h : ∀ s, AtCrystal s → P s → Q (s.put r (x s))) :
    Triple protocol () (fun s => AtCrystal s ∧ P s) (write32 addr v)
      fun _ s => AtCrystal s ∧ Q s := by
  refine write_rule (stable_atCrystal.and hP) (stable_atCrystal.and hQ) fun s hs => ?_
  have hat := atCrystal_put hs.1 hr (x s)
  rw [hput]
  exact ⟨Or.inr (guarded_atCrystal hs.1.2.2 hat), hat, h s hs.1 hs.2⟩

end Pll

/-! ### sys_clock_125mhz -/

/-- Out of reset, the registers of the PLL take what is stored. -/
theorem put_of_out {s : Tree} (h : ¬ s.InReset) {r : Reg} (x : Word) (P : Tree → Prop)
    (hP : P (match r with
      | .pllSysCs => { s with pllSysCs := x, locked := false }
      | .pllSysPwr => { s with pllSysPwr := x
                               locked := s.locked && x &&& (pllPwrPd ||| pllPwrVcopd) = 0#32 }
      | .pllSysFbdivInt => { s with pllSysFbdivInt := x, locked := false }
      | .pllSysPrim => { s with pllSysPrim := x }
      | r => s.put r x)) : P (s.put r x) := by
  cases r with
  | resetsReset | xoscCtrl | clkRefCtrl | clkSysCtrl => exact hP
  | pllSysCs | pllSysPwr | pllSysFbdivInt | pllSysPrim =>
    rw [Tree.put, if_neg h]
    exact hP

/-- What SELECTED shows. -/
theorem sysSel_of_reads {s : Tree} {src : BitVec 1}
    (h : s.Reads clkSysSelected (1#32 <<< src.toNat)) : s.sysSel = src := by
  have hinj : ∀ x y : BitVec 1, 1#32 <<< x.toNat = 1#32 <<< y.toNat → y = x := by decide
  exact hinj src s.sysSel h

theorem refSel_of_reads {s : Tree} {src : BitVec 2}
    (h : s.Reads clkRefSelected (1#32 <<< src.toNat)) : s.refSel = src := by
  have hinj : ∀ x y : BitVec 2, 1#32 <<< x.toNat = 1#32 <<< y.toNat → y = x := by decide
  exact hinj src s.refSel h

/-- Out of reset. -/
def Out (s : Tree) : Prop := ¬ s.InReset

/-- The VCO runs and is locked. -/
def VcoLocked (s : Tree) : Prop := s.VcoOn ∧ s.locked = true

/-- AUXSRC is PLL_SYS, with SRC still on clk_ref. -/
def AuxSet (s : Tree) : Prop := s.clkSysCtrl = clkSysAuxsrcPllSys ∧ s.PllUsable

/-- SRC is the PLL, and the mux may still be on clk_ref. -/
def ToPll (s : Tree) : Prop :=
  s.Held ∧ s.OnCrystal ∧ s.sysSrc = clkSysSrcAux ∧ s.auxsrc = 0 ∧ s.PllUsable

theorem stable_out : Stable protocol () Out := stable_regs fun _ _ _ _ _ h => h

theorem stable_vcoOn : Stable protocol () Tree.VcoOn := stable_regs fun _ _ _ _ _ h => h

theorem stable_vcoLocked : Stable protocol () VcoLocked := stable_vcoOn.and stable_locked

theorem stable_auxSet : Stable protocol () AuxSet :=
  (stable_regs fun _ _ _ _ _ h => h).and stable_pllUsable

theorem stable_toPll : Stable protocol () ToPll :=
  stable_held.and (stable_onCrystal.and ((stable_regs fun _ _ _ _ _ h => h).and
    ((stable_regs fun _ _ _ _ _ h => h).and stable_pllUsable)))

theorem out_put (s : Tree) : Out (s.put .resetsReset (s.resetsReset &&& ~~~resetPllSys)) := by
  have hclr := BitVec.and_not_and_self s.resetsReset resetPllSys
  rw [Tree.put, if_pos hclr]
  exact not_not.mpr hclr

/-- Powering up the post-dividers leaves the VCO on, and so locked. -/
theorem pllUsable_put {s : Tree} (h : VcoLocked s) :
    (s.put .pllSysPwr (s.pllSysPwr &&& ~~~pllPwrPostdivpd)).PllUsable := by
  have hvco : s.pllSysPwr &&& ~~~pllPwrPostdivpd &&& (pllPwrPd ||| pllPwrVcopd) = 0#32 :=
    (BitVec.and_not_and (by decide) _).trans h.1.2
  refine put_of_out h.1.1 _ Tree.PllUsable ⟨⟨h.1.1, hvco⟩, BitVec.and_not_and_self _ _, ?_⟩
  exact (Bool.and_eq_true _ _).mpr ⟨h.2, decide_eq_true hvco⟩

/-- AUXSRC changes while SRC is clk_ref. -/
theorem auxSet_rule : Triple protocol () (fun s => AtCrystal s ∧ s.PllUsable)
    (write32 Reg.clkSysCtrl.addr clkSysAuxsrcPllSys) fun _ s => AtCrystal s ∧ AuxSet s := by
  refine write_rule (stable_atCrystal.and stable_pllUsable) (stable_atCrystal.and stable_auxSet)
    fun s h => ?_
  have hsrc : clkSysAuxsrcPllSys.extractLsb' 0 1 = clkSysSrcClkRef := by decide
  have hat : AtCrystal (s.put .clkSysCtrl clkSysAuxsrcPllSys) :=
    ⟨h.1.1, h.1.2.1, hsrc, h.1.2.2.2⟩
  rw [Tree.write_addr]
  exact ⟨Or.inr (guarded_atCrystal h.1.2.2 hat), hat, rfl, h.2⟩

/-- SRC changes while AUXSRC stays. -/
theorem toPll_rule : Triple protocol () (fun s => AtCrystal s ∧ AuxSet s)
    (write32Set Reg.clkSysCtrl.addr (clkSysSrcAux.setWidth 32)) fun _ => ToPll := by
  refine write_rule (stable_atCrystal.and stable_auxSet) stable_toPll fun s h => ?_
  obtain ⟨⟨hheld, hcrystal, hsrc, hsel⟩, haux, hpll⟩ := h
  have hsrc' : (clkSysAuxsrcPllSys ||| clkSysSrcAux.setWidth 32).extractLsb' 0 1
      = clkSysSrcAux := by decide
  have haux' : (clkSysAuxsrcPllSys ||| clkSysSrcAux.setWidth 32).extractLsb' 5 3 = 0 := by decide
  have haux₀ : s.auxsrc = 0 := by
    rw [Tree.auxsrc, haux]
    decide
  have hput : s.write (Reg.clkSysCtrl.addr + setAlias) (clkSysSrcAux.setWidth 32)
      = { s with clkSysCtrl := clkSysAuxsrcPllSys ||| clkSysSrcAux.setWidth 32 } := by
    rw [Tree.write_set, Tree.get, haux]
    rfl
  rw [hput]
  have hnew : ToPll { s with clkSysCtrl := clkSysAuxsrcPllSys ||| clkSysSrcAux.setWidth 32 } :=
    ⟨hheld, hcrystal, hsrc', haux', hpll⟩
  refine ⟨Or.inr ⟨⟨?_, ?_⟩, fun hne => absurd (hnew.2.2.2.1.trans haux₀.symm) hne,
    fun _ => hnew.2.1⟩, hnew⟩
  · rw [Tree.SysRunning, if_neg (by rw [hnew.2.2.1]; decide)]
    exact hnew.2.2.2
  · rw [Tree.SysRunning, if_pos hsel]
    exact refRunning_onCrystal hcrystal

/-- Stores to the PLL and waits for it, all with clk_sys on clk_ref, up to the switch. -/
theorem sysClock125mhz_spec :
    Triple protocol () AtCrystal sysClock125mhz
      fun _ s => s.Held ∧ s.OnCrystal ∧ s.OnPll := by
  have hAny : Stable protocol () fun _ => True := fun _ _ _ h => h
  refine Triple.pre (P := fun s => AtCrystal s ∧ True) ?_ fun _ h => ⟨h, trivial⟩
  refine (pll_rule hAny hAny rfl (fun _ => Tree.write_set) fun _ _ h => h).bind fun _ => ?_
  refine (pll_rule hAny stable_out rfl (fun _ => Tree.write_clr) fun s _ _ => out_put s).bind
    fun _ => ?_
  refine (waitAny_rule (stable_atCrystal.and stable_out) (stable_atCrystal.and stable_out)
    fun _ _ h _ _ => h).bind fun _ => ?_
  refine (pll_rule stable_out stable_out rfl (fun _ => Tree.write_addr) fun s _ h => ?_).bind
    fun _ => ?_
  · exact put_of_out h _ Out h
  refine (pll_rule stable_out stable_out rfl (fun _ => Tree.write_addr) fun s _ h => ?_).bind
    fun _ => ?_
  · exact put_of_out h _ Out h
  refine (pll_rule stable_out stable_vcoOn rfl (fun _ => Tree.write_clr) fun s _ h => ?_).bind
    fun _ => ?_
  · exact put_of_out h _ Tree.VcoOn ⟨h, BitVec.and_not_and_self _ _⟩
  refine (waitAny_rule (stable_atCrystal.and stable_vcoOn) (stable_atCrystal.and stable_vcoLocked)
    fun s r h hr hlock => ⟨h.1, h.2, ?_⟩).bind fun _ => ?_
  · exact (hr : r &&& pllCsLock ≠ 0#32 ↔ s.locked = true).mp hlock
  refine (pll_rule stable_vcoLocked stable_vcoLocked rfl (fun _ => Tree.write_addr)
    fun s _ h => ?_).bind fun _ => ?_
  · exact put_of_out h.1.1 _ VcoLocked h
  refine (pll_rule stable_vcoLocked stable_pllUsable rfl (fun _ => Tree.write_clr)
    fun s _ h => pllUsable_put h).bind fun _ => ?_
  -- the switch: AUXSRC first, with SRC still on clk_ref
  refine auxSet_rule.bind fun _ => toPll_rule.bind fun _ => ?_
  exact waitFor_rule stable_toPll (stable_held.and (stable_onCrystal.and stable_onPll))
    fun s h hr => ⟨h.1, h.2.1, h.2.2.1, sysSel_of_reads hr, h.2.2.2⟩

/-! ### Back to clk_ref -/

/-- Between two calls, before clk_ref is known to be on the crystal and after. -/
def Idle (s : Tree) : Prop := s.Held ∧ s.RefRunning ∧ (s.OnRef ∨ s.OnPll)

def IdleOnCrystal (s : Tree) : Prop := s.Held ∧ s.OnCrystal ∧ (s.OnRef ∨ s.OnPll)

theorem stable_onRef_or_onPll : Stable protocol () fun s => s.OnRef ∨ s.OnPll :=
  fun s s' hs h => h.imp (stable_onRef s s' hs) (stable_onPll s s' hs)

theorem stable_idle : Stable protocol () Idle :=
  stable_held.and (stable_refRunning.and stable_onRef_or_onPll)

theorem stable_idleOnCrystal : Stable protocol () IdleOnCrystal :=
  stable_held.and (stable_onCrystal.and stable_onRef_or_onPll)

theorem Idle.running {s : Tree} (h : Idle s) : s.Running := by
  obtain ⟨-, href, hr | ⟨hsrc, hsel, haux, hpll⟩⟩ := h
  · exact running_onRef href hr
  · rw [Tree.Running, Tree.SysRunning, Tree.SysRunning, if_neg (by rw [hsrc]; decide),
      if_neg (by rw [hsel]; decide)]
    exact ⟨⟨haux, hpll⟩, haux, hpll⟩

/-- SRC is clk_ref again, and the mux may still be on the PLL. -/
def Leaving (s : Tree) : Prop :=
  s.Held ∧ s.OnCrystal ∧ s.sysSrc = clkSysSrcClkRef ∧
    (s.sysSel = clkSysSrcClkRef ∨ s.auxsrc = 0 ∧ s.PllUsable)

theorem stable_leaving : Stable protocol () Leaving := by
  rintro s s' hs ⟨hheld, hcrystal, hsrc, hsel⟩
  have hheld' := stable_held s s' hs hheld
  have hcrystal' := stable_onCrystal s s' hs hcrystal
  have hsel' : s.sysSel = clkSysSrcClkRef ∨ s.auxsrc = 0 ∧ s'.PllUsable :=
    hsel.imp_right fun h => ⟨h.1, stable_pllUsable s s' hs h.2⟩
  cases hs with
  | sys => exact ⟨hheld', hcrystal', hsrc, .inl hsrc⟩
  | stable | lock | ref => exact ⟨hheld', hcrystal', hsrc, hsel'⟩

theorem Leaving.running {s : Tree} (h : Leaving s) : s.Running := by
  obtain ⟨-, hcrystal, hsrc, hsel⟩ := h
  have href := refRunning_onCrystal hcrystal
  refine ⟨?_, ?_⟩
  · rw [Tree.SysRunning, if_pos hsrc]
    exact href
  · rw [Tree.SysRunning]
    split_ifs with hsel'
    · exact href
    · exact hsel.resolve_left hsel'

/-- A store to CLK_SYS_CTRL that leaves AUXSRC at PLL_SYS, or finds clk_sys on clk_ref. -/
theorem leaving_rule {v addr : Word} {x : Tree → Word}
    (hput : ∀ s : Tree, s.write addr v = { s with clkSysCtrl := x s })
    (hsrc : ∀ s, (x s).extractLsb' 0 1 = clkSysSrcClkRef)
    (haux : ∀ s : Tree, s.auxsrc = 0 → (x s).extractLsb' 5 3 = 0) :
    Triple protocol () IdleOnCrystal (write32 addr v) fun _ => Leaving := by
  refine write_rule stable_idleOnCrystal stable_leaving fun s h => ?_
  rw [hput]
  obtain ⟨hheld, hcrystal, hon⟩ := h
  have hnew : Leaving { s with clkSysCtrl := x s } :=
    ⟨hheld, hcrystal, hsrc s, hon.imp And.right fun h => ⟨haux s h.2.2.1, h.2.2.2⟩⟩
  refine ⟨Or.inr ⟨hnew.running, fun hne => ?_, fun _ => hcrystal⟩, hnew⟩
  rcases hon with hr | hpll
  · exact ⟨hr.1, hsrc s⟩
  · exact absurd ((haux s hpll.2.2.1).trans hpll.2.2.1.symm) hne

/-- Once SELECTED shows clk_ref, the PLL is not needed. -/
theorem leaving_wait :
    Triple protocol () Leaving (waitFor clkSysSelected (1#32 <<< clkSysSrcClkRef.toNat))
      fun _ => AtCrystal :=
  waitFor_rule stable_leaving stable_atCrystal fun _ h hr =>
    ⟨h.1, h.2.1, h.2.2.1, sysSel_of_reads hr⟩

theorem sysClock12mhz_spec :
    Triple protocol () IdleOnCrystal sysClock12mhz fun _ s => AtCrystal s ∧ s.PoweredDown := by
  have hAny : Stable protocol () fun _ => True := fun _ _ _ h => h
  have hDown : Stable protocol () Tree.PoweredDown := stable_regs fun _ _ _ _ _ h => h
  refine (leaving_rule (fun _ => Tree.write_clr) (fun s => sysSrc_clr s.clkSysCtrl)
    fun s h => (auxsrc_clr s.clkSysCtrl).trans h).bind fun _ => ?_
  refine leaving_wait.bind fun _ => ?_
  refine Triple.pre (P := fun s => AtCrystal s ∧ True) ?_ fun _ h => ⟨h, trivial⟩
  refine pll_rule hAny hDown rfl (fun _ => Tree.write_set) fun s hs _ => ?_
  by_cases hin : s.InReset
  · -- the store is lost, and the PLL is down anyway
    rw [Tree.put, if_pos hin]
    exact hs.1 hin
  · exact put_of_out hin _ Tree.PoweredDown (BitVec.or_and_self _ _)

/-! ### init -/

theorem init_spec : Triple protocol () Idle (init .rp2040) fun _ => AtCrystal := by
  let Stable' (s : Tree) : Prop := Idle s ∧ s.stable = true
  let Switching (s : Tree) : Prop :=
    s.Held ∧ s.refSrc = clkRefSrcXosc ∧ s.stable = true ∧ s.RefRunning ∧ (s.OnRef ∨ s.OnPll)
  have hStable : Stable protocol () Stable' := stable_idle.and stable_stable
  have hSwitching : Stable protocol () Switching := stable_held.and
    ((stable_regs fun _ _ _ _ _ h => h).and (stable_stable.and (stable_refRunning.and
      stable_onRef_or_onPll)))
  refine (write_rule (Q := Idle) stable_idle stable_idle fun s h => ?_).bind fun _ => ?_
  · exact ⟨Or.inl rfl, h⟩
  refine (write_rule (Q := Idle) stable_idle stable_idle fun s h => ?_).bind fun _ => ?_
  · -- the key is the one for ENABLE, so a running crystal goes on
    have hkey : Tree.enabled (xoscCtrlEnable ||| xoscCtrlRange1To15mhz) = true := by decide
    have hput : s.write Reg.xoscCtrl.addr (xoscCtrlEnable ||| xoscCtrlRange1To15mhz)
        = { s with xoscCtrl := xoscCtrlEnable ||| xoscCtrlRange1To15mhz } := by
      rw [Tree.write_addr, Tree.put, hkey, Bool.and_true]
    rw [hput]
    have hnew : Idle { s with xoscCtrl := xoscCtrlEnable ||| xoscCtrlRange1To15mhz } := h
    exact ⟨Or.inr ⟨hnew.running, fun hne => absurd rfl hne, fun hc => hc⟩, hnew⟩
  refine (waitAny_rule stable_idle hStable fun s r h hr hr' => ⟨h, ?_⟩).bind fun _ => ?_
  · exact (hr : r &&& xoscStatusStable ≠ 0#32 ↔ s.stable = true).mp hr'
  refine (write_rule (Q := Switching) hStable hSwitching fun s h => ?_).bind fun _ => ?_
  · obtain ⟨⟨hheld, href, hon⟩, hstable⟩ := h
    have hsrc : (clkRefSrcXosc.setWidth 32).extractLsb' 0 2 = clkRefSrcXosc := by decide
    have hput : s.write Reg.clkRefCtrl.addr (clkRefSrcXosc.setWidth 32)
        = { s with clkRefCtrl := clkRefSrcXosc.setWidth 32 } := Tree.write_addr
    rw [hput]
    have hnew : Switching { s with clkRefCtrl := clkRefSrcXosc.setWidth 32 } :=
      ⟨hheld, hsrc, hstable, ⟨Or.inr ⟨hsrc, hstable⟩, href.2⟩, hon⟩
    have hidle : Idle { s with clkRefCtrl := clkRefSrcXosc.setWidth 32 } :=
      ⟨hheld, hnew.2.2.2.1, hon⟩
    exact ⟨Or.inr ⟨hidle.running, fun hne => absurd rfl hne, fun hc => ⟨hsrc, hc.2⟩⟩, hnew⟩
  refine (waitFor_rule hSwitching stable_idleOnCrystal fun s h hr =>
    ⟨h.1, ⟨h.2.1, refSel_of_reads hr, h.2.2.1⟩, h.2.2.2.2⟩).bind fun _ => ?_
  refine (leaving_rule (fun _ => Tree.write_addr) (fun _ => by decide)
    fun _ _ => by decide).bind fun _ => ?_
  refine leaving_wait.bind fun _ => ?_
  -- the other blocks
  have hAny : Stable protocol () fun _ => True := fun _ _ _ h => h
  refine Triple.pre (P := fun s => AtCrystal s ∧ True) ?_ fun _ h => ⟨h, trivial⟩
  refine (pll_rule hAny hAny rfl (fun _ => Tree.write_clr) fun _ _ h => h).bind fun _ => ?_
  refine Triple.pre (P := AtCrystal) ?_ fun _ h => h.1
  refine (poll_rule stable_atCrystal stable_atCrystal fun _ _ h _ _ => h).bind fun _ => ?_
  refine write_rule stable_atCrystal stable_atCrystal fun s h => ?_
  exact ⟨Or.inl rfl, h⟩

/-! ### Sessions -/

inductive Call
  | init | sysClock125mhz | sysClock12mhz
  deriving DecidableEq

namespace Call

def run : Call → Firmware Unit
  | init => Clocks.init .rp2040
  | sysClock125mhz => Clocks.sysClock125mhz
  | sysClock12mhz => Clocks.sysClock12mhz

def pre : Call → Tree → Prop
  | init => Idle
  | sysClock125mhz => AtCrystal
  | sysClock12mhz => IdleOnCrystal

def post : Call → Tree → Prop
  | init => AtCrystal
  | sysClock125mhz => fun s => s.Held ∧ s.OnCrystal ∧ s.OnPll
  | sysClock12mhz => fun s => AtCrystal s ∧ s.PoweredDown

theorem spec (c : Call) : Triple protocol () c.pre c.run fun _ => c.post := by
  cases c with
  | init => exact init_spec
  | sysClock125mhz => exact sysClock125mhz_spec
  | sysClock12mhz => exact sysClock12mhz_spec

theorem idleOnCrystal_of_post {c : Call} {s : Tree} (h : c.post s) : IdleOnCrystal s := by
  cases c with
  | init => exact ⟨h.1, h.2.1, .inl h.2.2⟩
  | sysClock125mhz => exact ⟨h.1, h.2.1, .inr h.2.2⟩
  | sysClock12mhz => exact ⟨h.1.1, h.1.2.1, .inl h.1.2.2⟩

end Call

/-- The chip runs from the ring oscillator. -/
structure Booted (s : Tree) : Prop where
  refSrc : s.refSrc = 0
  refSel : s.refSel = 0
  onRef : s.OnRef
  held : s.Held

/-- The first call is `init()`, and `sys_clock_125mhz()` comes only while clk_sys runs from
clk_ref. -/
def Allowed (calls : List Call) (s : Tree) : Call → Prop
  | .init => True
  | .sysClock125mhz => calls ≠ [] ∧ s.OnRef
  | .sysClock12mhz => calls ≠ []

/-- Calls that have returned, one after the other. -/
inductive Session (s₀ : Tree) : List Call → Tree → Prop
  | boot : Session s₀ [] s₀
  | call {calls : List Call} {s : Tree} {c : Call} {cfg : Config Unit Op.Answer Unit Tree}
      (h : Session s₀ calls s) (hc : Allowed calls s c)
      (hr : machine.Reach ⟨s, fun _ => c.run⟩ cfg) (hend : cfg.threads () = .ret ()) :
      Session s₀ (calls ++ [c]) cfg.shared

section Runs

variable {s₀ s : Tree} {calls : List Call} {c : Call} {cfg : Config Unit Op.Answer Unit Tree}

/-- A call that starts in its precondition is safe all the way. -/
theorem Call.safe (hs : c.pre s) (hr : machine.Reach ⟨s, fun _ => c.run⟩ cfg) :
    ∀ n, Safe protocol () (fun _ => c.post) n (cfg.threads ()) cfg.shared :=
  protocol.sound (P := fun _ => c.pre) (Q := fun _ _ => c.post) (fun _ => c.spec) (fun _ => hs) hr ()

/-- What stores and the hardware keep, a call keeps. -/
theorem Call.invariant {I : Tree → Prop} (hI : ∀ t t', Guarded t t' → I t → I t')
    (hst : Stable protocol () I) (hs : c.pre s) (h₀ : I s)
    (hr : machine.Reach ⟨s, fun _ => c.run⟩ cfg) : I cfg.shared := by
  refine protocol.invariant (P := fun _ => c.pre) (Q := fun _ _ => c.post) (fun _ => c.spec)
    (fun _ => hs) h₀ ?_ hst hr
  rintro _ _ t _ t' - (rfl | hg) ht
  · exact ht
  · exact hI t t' hg ht

/-- Between calls. -/
theorem Session.idle (h₀ : Booted s₀) (h : Session s₀ calls s) :
    Idle s ∧ (calls ≠ [] → IdleOnCrystal s) := by
  induction h with
  | boot =>
    exact ⟨⟨h₀.held, ⟨.inl h₀.refSrc, .inl h₀.refSel⟩, .inl h₀.onRef⟩, fun hne => absurd rfl hne⟩
  | @call calls s c cfg h hc hr hend ih =>
    have hpre : c.pre s := by
      cases c with
      | init => exact ih.1
      | sysClock125mhz => exact ⟨ih.1.1, (ih.2 hc.1).2.1, hc.2⟩
      | sysClock12mhz => exact ih.2 hc
    have hend : c.post cfg.shared := Safe.result (Q := fun _ => c.post) (Call.safe hpre hr) hend
    have hpost := Call.idleOnCrystal_of_post hend
    exact ⟨⟨hpost.1, refRunning_onCrystal hpost.2.1, hpost.2.2⟩, fun _ => hpost⟩

theorem Session.pre (h₀ : Booted s₀) (h : Session s₀ calls s) (hc : Allowed calls s c) :
    c.pre s := by
  obtain ⟨hidle, hcrystal⟩ := h.idle h₀
  cases c with
  | init => exact hidle
  | sysClock125mhz => exact ⟨hidle.1, (hcrystal hc.1).2.1, hc.2⟩
  | sysClock12mhz => exact hcrystal hc

/-- **Safety of clock switching.** At every point of every call of a session, with the hardware
taking its time: the source clk_sys is selecting runs, and so does the one it is still on; AUXSRC
changes only while SRC is clk_ref; clk_ref is on the crystal from the end of the first `init()` on;
and `sys_clock_12mhz()` ends on clk_ref with the PLL powered down. -/
theorem clocks_safe (h₀ : Booted s₀) (h : Session s₀ calls s) (hc : Allowed calls s c)
    (hr : machine.Reach ⟨s, fun _ => c.run⟩ cfg) :
    cfg.shared.Running ∧
    (∀ l cfg', machine.Step cfg l cfg' → cfg'.shared.auxsrc ≠ cfg.shared.auxsrc →
      cfg.shared.sysSrc = clkSysSrcClkRef ∧ cfg'.shared.sysSrc = clkSysSrcClkRef) ∧
    (calls ≠ [] ∨ cfg.threads () = .ret () → cfg.shared.OnCrystal) ∧
    (c = .sysClock12mhz → cfg.threads () = .ret () →
      cfg.shared.OnRef ∧ cfg.shared.PoweredDown) := by
  have hpre := h.pre h₀ hc
  obtain ⟨hidle, hcrystal⟩ := h.idle h₀
  have hsafe := Call.safe hpre hr
  refine ⟨?_, ?_, ?_, ?_⟩
  · exact Call.invariant (fun _ _ hg _ => hg.1) stable_running hpre hidle.running hr
  · intro l cfg' hstep hne
    cases hstep with
    | access ht ha =>
      rcases Safe.guarantee hsafe ht ha with rfl | hg
      · exact absurd rfl hne
      · exact hg.2.1 hne
    | unfold ht => exact absurd rfl hne
    | env he =>
      -- the hardware leaves the registers alone
      refine absurd ?_ hne
      cases he with
      | _ => rfl
  · rintro (hne | hend)
    · exact Call.invariant (fun _ _ hg => hg.2.2) stable_onCrystal hpre (hcrystal hne).2.1 hr
    · have hpost : c.post cfg.shared := Safe.result (Q := fun _ => c.post) hsafe hend
      exact (Call.idleOnCrystal_of_post hpost).2.1
  · rintro rfl hend
    obtain ⟨hat, hdown⟩ := Safe.result hsafe hend
    exact ⟨hat.2.2, hdown⟩

end Runs

/-! ### A round trip -/

/-- Answers of the hardware: what a register shows, and nothing else. -/
def Tree.answer : (e : Op) → Tree → Option (e.Answer × Tree)
  | .read32 addr, s =>
    some ((if addr = xoscStatus then if s.stable then xoscStatusStable else 0#32
      else if addr = clkRefSelected then 1#32 <<< s.refSel.toNat
      else if addr = clkSysSelected then 1#32 <<< s.sysSel.toNat
      else if addr = Reg.pllSysCs.addr then if s.locked then pllCsLock else 0#32
      else if addr = resetsResetDone then ~~~s.resetsReset
      else 0#32 : Word), s)
  | .write32 addr v, s => some ((), s.write addr v)
  | _, _ => none

theorem Tree.access_of_answer {e : Op} {s : Tree} {p : e.Answer × Tree}
    (h : Tree.answer e s = some p) : Tree.access e s p.1 p.2 := by
  cases e with
  | read32 addr =>
    cases h
    refine ⟨rfl, ?_⟩
    rw [Tree.Reads]
    split_ifs with h₁ hs h₂ h₃ h₄ hl h₅
    · exact iff_of_true (by decide) hs
    · exact iff_of_false (by decide) hs
    · rfl
    · rfl
    · exact iff_of_true (by decide) hl
    · exact iff_of_false (by decide) hl
    · exact BitVec.not_and_self _
  | write32 addr v => cases h; rfl
  | read8 | write8 | external => exact nomatch h

instance (s : Tree) : Decidable s.VcoOn := inferInstanceAs (Decidable (_ ∧ _))

/-- The moves of the hardware. -/
inductive Move
  | stable | lock | ref | sys

def Tree.move (s : Tree) : Move → Option Tree
  | .stable => if Tree.enabled s.xoscCtrl = true then some { s with stable := true } else none
  | .lock => if s.VcoOn then some { s with locked := true } else none
  | .ref => some { s with refSel := s.refSrc }
  | .sys => some { s with sysSel := s.sysSrc }

theorem Tree.step_of_move {i : Move} {s s' : Tree} (h : s.move i = some s') : s.Step s' := by
  cases i with
  | stable =>
    rw [Tree.move] at h
    split_ifs at h with hen
    cases h
    exact .stable hen
  | lock =>
    rw [Tree.move] at h
    split_ifs at h with hvco
    cases h
    exact .lock hvco
  | ref =>
    cases h
    exact .ref
  | sys =>
    cases h
    exact .sys

theorem reach_of_play {cfg cfg' : Config Unit Op.Answer Unit Tree}
    (cs : List (Machine.Choice Unit Move))
    (h : Machine.play (fun _ => Tree.answer) (fun i s => Tree.move s i) cfg cs = some cfg') :
    machine.Reach cfg cfg' :=
  @Machine.Reach.of_play Unit Op Op.Answer Unit Tree _ machine Move _ _
    (fun _ _ _ _ h => Tree.access_of_answer h) (fun _ _ _ h => Tree.step_of_move h) cfg cfg' cs h

/-- The reset values. -/
def boot : Tree where
  resetsReset := 0x01FFFFFF#32
  xoscCtrl := 0#32
  clkRefCtrl := 0#32
  clkSysCtrl := 0#32
  pllSysCs := 1#32
  pllSysPwr := 0x2D#32
  pllSysFbdivInt := 0#32
  pllSysPrim := 0x77000#32
  stable := false
  locked := false
  refSel := 0
  sysSel := 0

theorem boot_booted : Booted boot where
  refSrc := rfl
  refSel := rfl
  onRef := ⟨rfl, rfl⟩
  held := fun _ => poweredDown_reset

/-- After `init()` and after `sys_clock_125mhz()`. -/
def at12mhz : Tree :=
  { boot with resetsReset := 0x01DFFEDF#32, xoscCtrl := 0xFABAA0#32, clkRefCtrl := 2#32
              stable := true, refSel := 2 }

def at125mhz : Tree :=
  { at12mhz with resetsReset := 0x01DFEEDF#32, clkSysCtrl := 1#32, pllSysPwr := 4#32
                 pllSysFbdivInt := 125#32, pllSysPrim := 0x62000#32, locked := true, sysSel := 1 }

/-- To 125 MHz and back. -/
theorem clocks_safe_roundTrip :
    ∃ cfg, Session boot [.init, .sysClock125mhz] at125mhz ∧
      machine.Reach ⟨at125mhz, fun _ => Call.sysClock12mhz.run⟩ cfg ∧ cfg.threads () = .ret () ∧
      cfg.shared.Running ∧ cfg.shared.OnRef ∧ cfg.shared.PoweredDown := by
  let t : Machine.Choice Unit Move := .thread ()
  obtain ⟨cfg₁, hr₁, hend₁, hs₁⟩ : ∃ cfg, machine.Reach ⟨boot, fun _ => Call.init.run⟩ cfg ∧
      cfg.threads () = .ret () ∧ cfg.shared = at12mhz :=
    ⟨_, reach_of_play [t, t, .env .stable, t, t, t, .env .ref, t, t, t, .env .sys, t, t, t, t, t, t]
      rfl, rfl, rfl⟩
  obtain ⟨cfg₂, hr₂, hend₂, hs₂⟩ : ∃ cfg,
      machine.Reach ⟨at12mhz, fun _ => Call.sysClock125mhz.run⟩ cfg ∧
      cfg.threads () = .ret () ∧ cfg.shared = at125mhz :=
    ⟨_, reach_of_play [t, t, t, t, t, t, t, .env .lock, t, t, t, t, t, t, .env .sys, t, t]
      rfl, rfl, rfl⟩
  obtain ⟨cfg₃, hr₃, hend₃⟩ : ∃ cfg,
      machine.Reach ⟨at125mhz, fun _ => Call.sysClock12mhz.run⟩ cfg ∧ cfg.threads () = .ret () :=
    ⟨_, reach_of_play [t, .env .sys, t, t, t] rfl, rfl⟩
  have hallowed₁ : Allowed [] boot .init := trivial
  have hinit := Session.boot.call hallowed₁ hr₁ hend₁
  rw [hs₁] at hinit
  have hallowed₂ : Allowed ([] ++ [.init]) at12mhz .sysClock125mhz := ⟨nofun, rfl, rfl⟩
  have hfast := hinit.call hallowed₂ hr₂ hend₂
  rw [hs₂] at hfast
  have hallowed₃ : Allowed [.init, .sysClock125mhz] at125mhz .sysClock12mhz := nofun
  obtain ⟨hrun, -, -, hdone⟩ := clocks_safe boot_booted hfast hallowed₃ hr₃
  exact ⟨cfg₃, hfast, hr₃, hend₃, hrun, hdone rfl hend₃⟩

end Clocks
