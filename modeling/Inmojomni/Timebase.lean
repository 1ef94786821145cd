import Inmojomni.Clocks
import Inmojomni.Effect.RelyGuarantee
import Inmojomni.Time

/-!
# The timebase of the RP2350

`time.init` brings up the 1 µs timer of a chip with a TICKS block: clk_ref and clk_sys go over to
the crystal, and TIMER0 counts the ticks that a generator makes of clk_ref. As for the RP2040
(`Clocks`), a mux follows its SRC field at some later time, and the firmware only sees what the
registers show of it.

Time is counted in cycles of the crystal. The generator counts down to its next tick, from an
unknown count when it is enabled, so that the first tick comes at an unknown time. From then on
(`Ticking`) a state has a number of cycles left up to the next tick, and with it cycles and ticks
are in a fixed relation (`Elapsed`), which no call and no move of the hardware changes.

`timebase_exact` is about sessions of calls. Its bound for `sleep_us` is met: a sleep that begins
just before a tick is over eleven cycles early.
-/

namespace Timebase

open Mmio Effect
open Clocks (waitAny waitFor xoscCtrlEnable xoscCtrlRange1To15mhz xoscStatusStable xoscStartupDelay
  clkRefSrcXosc clkSysSrcClkRef)

/-! ### The firmware -/

/-- Bring up the 1 µs hardware timebase. -/
def init (C : Chip) : Firmware Unit :=
  if C.hasTicksBlock then do
    write32 (C.xoscBase + 0x0C#32) xoscStartupDelay
    write32 (C.xoscBase + 0x00#32) (xoscCtrlEnable ||| xoscCtrlRange1To15mhz)
    waitAny (C.xoscBase + 0x04#32) xoscStatusStable
    write32 (C.clocksBase + 0x30#32) (clkRefSrcXosc.setWidth 32)
    waitFor (C.clocksBase + 0x38#32) (1#32 <<< clkRefSrcXosc.toNat)
    write32 (C.clocksBase + 0x3C#32) (clkSysSrcClkRef.setWidth 32)
    waitFor (C.clocksBase + 0x44#32) 1#32
    write32Clr C.resetsReset C.resetTimer
    waitAny C.resetsResetDone C.resetTimer
    write32 (C.ticksBase + 0x1C#32) 12#32
    write32 (C.ticksBase + 0x18#32) 1#32
  else return ()

/-! ### The hardware -/

/-- The registers that `init` stores to, but for XOSC_STARTUP, which only delays STABLE. -/
inductive Reg
  | resetsReset | xoscCtrl | clkRefCtrl | clkSysCtrl | ticksCtrl | ticksCycles
  deriving DecidableEq

def Reg.addr : Reg → Word
  | resetsReset => Chip.resetsReset .rp2350
  | xoscCtrl => Chip.xoscBase .rp2350 + 0x00#32
  | clkRefCtrl => Chip.clocksBase .rp2350 + 0x30#32
  | clkSysCtrl => Chip.clocksBase .rp2350 + 0x3C#32
  | ticksCtrl => Chip.ticksBase .rp2350 + 0x18#32
  | ticksCycles => Chip.ticksBase .rp2350 + 0x1C#32

def Reg.all : List Reg := [resetsReset, xoscCtrl, clkRefCtrl, clkSysCtrl, ticksCtrl, ticksCycles]

/-- The registers, the sources that clk_ref and clk_sys run from, and what has been counted: by
the tick generator (downwards), by TIMER0, and of the crystal. -/
structure State where
  resetsReset : Word
  xoscCtrl : Word
  clkRefCtrl : Word
  clkSysCtrl : Word
  ticksCtrl : Word
  ticksCycles : Word
  stable : Bool
  refSel : BitVec 2
  sysSel : BitVec 1
  count : ℕ
  timer : ℕ
  cycles : ℕ

namespace State

variable (s : State)

def refSrc : BitVec 2 := s.clkRefCtrl.extractLsb' 0 2

def sysSrc : BitVec 1 := s.clkSysCtrl.extractLsb' 0 1

def get : Reg → Word
  | .resetsReset => s.resetsReset
  | .xoscCtrl => s.xoscCtrl
  | .clkRefCtrl => s.clkRefCtrl
  | .clkSysCtrl => s.clkSysCtrl
  | .ticksCtrl => s.ticksCtrl
  | .ticksCycles => s.ticksCycles

/-- New contents of a register. A timer in reset is at zero, a crystal that is switched off is no
longer stable, and CYCLES has nine bits. -/
def put : Reg → Word → State
  | .resetsReset, x =>
    { s with resetsReset := x
             timer := if x &&& Chip.resetTimer .rp2350 = 0#32 then s.timer else 0 }
  | .xoscCtrl, x => { s with xoscCtrl := x, stable := s.stable && Clocks.Tree.enabled x }
  | .clkRefCtrl, x => { s with clkRefCtrl := x }
  | .clkSysCtrl, x => { s with clkSysCtrl := x }
  | .ticksCtrl, x => { s with ticksCtrl := x }
  | .ticksCycles, x => { s with ticksCycles := x &&& 0x1FF#32 }

/-- A store, through an alias or not. -/
def write (addr v : Word) : State :=
  match Reg.all.find? (fun r => r.addr = register addr) with
  | some r => s.put r (combine addr (s.get r) v)
  | none => s

/-- What a load may answer, as far as the firmware looks at it. -/
def Reads (addr r : Word) : Prop :=
  if addr = Chip.xoscBase .rp2350 + 0x04#32 then r &&& xoscStatusStable ≠ 0#32 ↔ s.stable = true
  else if addr = Chip.clocksBase .rp2350 + 0x38#32 then r = 1#32 <<< s.refSel.toNat
  else if addr = Chip.clocksBase .rp2350 + 0x44#32 then r = 1#32 <<< s.sysSel.toNat
  else if addr = Chip.resetsResetDone .rp2350 then r &&& s.resetsReset = 0#32
  else if addr = Chip.timerBase .rp2350 + 0x28#32 then r = BitVec.ofNat 32 s.timer
  else True

def access : (e : Op) → State → e.Answer → State → Prop
  | .read32 addr, s, (r : Word), s' => s' = s ∧ s.Reads addr r
  | .write32 addr v, s, _, s' => s' = s.write addr v
  | _, s, _, s' => s' = s

/-- A cycle of clk_ref. At the end of its count the generator, if enabled, makes a tick and begins
again, and a timer out of reset counts it. -/
def tick : State :=
  if s.ticksCtrl &&& 1#32 = 0#32 then s
  else if s.count ≤ 1 then
    { s with count := s.ticksCycles.toNat
             timer := if s.resetsReset &&& Chip.resetTimer .rp2350 = 0#32 then s.timer + 1
               else s.timer }
  else { s with count := s.count - 1 }

/-- What the hardware does by itself. The crystal makes cycles of clk_ref if that is on it. -/
inductive Step : State → State → Prop
  | stable {s : State} (h : Clocks.Tree.enabled s.xoscCtrl = true) :
    Step s { s with stable := true }
  | ref {s : State} : Step s { s with refSel := s.refSrc }
  | sys {s : State} : Step s { s with sysSel := s.sysSrc }
  | crystal {s : State} (h : s.stable = true) (hsel : s.refSel = clkRefSrcXosc) :
    Step s { s.tick with cycles := s.cycles + 1 }
  | aside {s : State} (h : s.stable = true) (hsel : s.refSel ≠ clkRefSrcXosc) :
    Step s { s with cycles := s.cycles + 1 }
  | other {s : State} (hsel : s.refSel ≠ clkRefSrcXosc) : Step s s.tick

end State

/-- One core. -/
def machine : Machine Unit Op.Answer State where
  access _ := State.access
  env := State.Step

/-! ### What holds between two steps -/

namespace State

variable (s : State)

/-- The ring oscillator always runs, the crystal once it is stable. -/
def OscRunning (src : BitVec 2) : Prop := src = 0 ∨ src = clkRefSrcXosc ∧ s.stable = true

/-- The source that clk_ref is selecting runs, and the one it is still on; and clk_sys runs from
clk_ref. -/
def Running : Prop :=
  (s.OscRunning s.refSrc ∧ s.OscRunning s.refSel) ∧
    s.sysSrc = clkSysSrcClkRef ∧ s.sysSel = clkSysSrcClkRef

/-- clk_ref and clk_sys run from the crystal. -/
def OnCrystal : Prop :=
  (s.refSrc = clkRefSrcXosc ∧ s.refSel = clkRefSrcXosc ∧ s.stable = true) ∧
    s.sysSrc = clkSysSrcClkRef ∧ s.sysSel = clkSysSrcClkRef

def TimerOut : Prop := s.resetsReset &&& Chip.resetTimer .rp2350 = 0#32

/-- TIMER0 counts a tick for twelve cycles of the crystal. -/
def Ticking : Prop :=
  s.OnCrystal ∧ s.TimerOut ∧ s.ticksCycles = 12#32 ∧ s.ticksCtrl &&& 1#32 ≠ 0#32

/-- The cycles of clk_ref up to the next tick. -/
def left : ℕ := max s.count 1

/-- The same count, by the generator, the timer and the crystal. -/
def SameTime (s' : State) : Prop :=
  s'.timer = s.timer ∧ s'.cycles = s.cycles ∧ s'.left = s.left

/-- Since state `s`, in cycles and ticks. -/
def Elapsed (s' : State) : Prop :=
  s'.Ticking ∧ s.timer ≤ s'.timer ∧ s.cycles ≤ s'.cycles ∧
    s.cycles + s.left + 12 * s'.timer = s'.cycles + s'.left + 12 * s.timer ∧
    (s'.timer = s.timer ∨ s'.left ≤ 12)

variable {s}

theorem OnCrystal.running (h : s.OnCrystal) : s.Running :=
  ⟨⟨.inr ⟨h.1.1, h.1.2.2⟩, .inr ⟨h.1.2.1, h.1.2.2⟩⟩, h.2⟩

theorem one_le_left : 1 ≤ s.left := le_max_right _ _

end State

/-- What a store may do. -/
def Guarded (s s' : State) : Prop := s'.Running ∧ (s.Ticking → s'.Ticking ∧ s.SameTime s')

/-- One core: the others are the hardware. -/
def protocol : Protocol machine where
  rely _ := State.Step
  guar _ _ s _ s' := s' = s ∨ Guarded s s'
  guar_rely h := absurd (Subsingleton.elim _ _) h
  env_rely h := h

/-! ### What the hardware does about it -/

section Keeps

variable {s s₁ s' : State}

/-- A cycle of clk_ref changes the two counts. -/
theorem tick_eq (s : State) : ∃ c t, s.tick = { s with count := c, timer := t } := by
  rw [State.tick]
  split_ifs
  · exact ⟨s.count, s.timer, rfl⟩
  · exact ⟨_, _, rfl⟩
  · exact ⟨_, s.timer, rfl⟩
  · exact ⟨_, s.timer, rfl⟩

/-- What is only about registers. -/
theorem stable_regs {P : State → Prop}
    (h : ∀ s b (x : BitVec 2) (y : BitVec 1) c t n, P s →
      P { s with stable := b, refSel := x, sysSel := y, count := c, timer := t, cycles := n }) :
    Stable protocol () P := by
  intro s s' hs hP
  have hcounts := fun c t n => h s s.stable s.refSel s.sysSel c t n hP
  cases hs with
  | stable => exact h s true s.refSel s.sysSel s.count s.timer s.cycles hP
  | ref => exact h s s.stable s.refSrc s.sysSel s.count s.timer s.cycles hP
  | sys => exact h s s.stable s.refSel s.sysSrc s.count s.timer s.cycles hP
  | crystal =>
    obtain ⟨c, t, htick⟩ := tick_eq s
    rw [htick]
    exact hcounts c t _
  | aside => exact hcounts _ _ _
  | other =>
    obtain ⟨c, t, htick⟩ := tick_eq s
    rw [htick]
    exact hcounts c t _

theorem stable_stable : Stable protocol () fun s => s.stable = true := by
  intro s s' hs h
  cases hs with
  | stable => rfl
  | ref | sys | aside => exact h
  | crystal | other =>
    obtain ⟨c, t, htick⟩ := tick_eq s
    rw [htick]
    exact h

theorem stable_running : Stable protocol () State.Running := by
  rintro s s' hs ⟨⟨hsrc, hsel⟩, hsys, hsys'⟩
  have hrun : s.Running := ⟨⟨hsrc, hsel⟩, hsys, hsys'⟩
  cases hs with
  | stable =>
    exact ⟨⟨hsrc.imp_right fun h => ⟨h.1, rfl⟩, hsel.imp_right fun h => ⟨h.1, rfl⟩⟩, hsys, hsys'⟩
  | ref => exact ⟨⟨hsrc, hsrc⟩, hsys, hsys'⟩
  | sys => exact ⟨⟨hsrc, hsel⟩, hsys, hsys⟩
  | aside => exact hrun
  | crystal | other =>
    obtain ⟨c, t, htick⟩ := tick_eq s
    rw [htick]
    exact hrun

/-- On the crystal, nothing is left to follow. -/
theorem onCrystal_step (hs : s.Step s') (h : s.OnCrystal) :
    s' = s ∨ s' = { s.tick with cycles := s.cycles + 1 } := by
  obtain ⟨⟨hsrc, hsel, hstable⟩, hsys, hsys'⟩ := h
  cases hs with
  | stable =>
    rw [← hstable]
    exact .inl rfl
  | ref =>
    rw [hsrc, ← hsel]
    exact .inl rfl
  | sys =>
    rw [hsys, ← hsys']
    exact .inl rfl
  | crystal => exact .inr rfl
  | aside _ hne | other hne => exact absurd hsel hne

theorem stable_onCrystal : Stable protocol () State.OnCrystal := by
  intro s s' hs h
  rcases onCrystal_step hs h with rfl | rfl
  · exact h
  · obtain ⟨c, t, htick⟩ := tick_eq s
    rw [htick]
    exact h

/-- One cycle less is left, or a tick comes and twelve are. -/
theorem ticking_step (hs : s.Step s') (h : s.Ticking) :
    s' = s ∨
    (s.left = 1 ∧
      s' = { s with count := 12, timer := s.timer + 1, cycles := s.cycles + 1 }) ∨
    (s.left = s.count ∧ 1 < s.count ∧
      s' = { s with count := s.count - 1, cycles := s.cycles + 1 }) := by
  obtain ⟨hcrystal, hout, hcycles, hctrl⟩ := h
  rcases onCrystal_step hs hcrystal with rfl | rfl
  · exact .inl rfl
  · rw [State.tick, if_neg hctrl]
    split_ifs with hcount hreset
    · refine .inr (.inl ⟨max_eq_right hcount, ?_⟩)
      rw [hcycles]
      rfl
    · exact absurd hout hreset
    · have hlt : 1 < s.count := not_le.mp hcount
      exact .inr (.inr ⟨max_eq_left hlt.le, hlt, rfl⟩)

theorem elapsed_refl (h : s.Ticking) : s.Elapsed s := ⟨h, le_rfl, le_rfl, rfl, .inl rfl⟩

/-- **A tick takes twelve cycles.** -/
theorem stable_elapsed (s₁ : State) : Stable protocol () s₁.Elapsed := by
  rintro s s' hs ⟨hticking, htimer, hcycles, hsum, hleft⟩
  rcases ticking_step hs hticking with rfl | ⟨hone, rfl⟩ | ⟨hcount, hlt, rfl⟩
  · exact ⟨hticking, htimer, hcycles, hsum, hleft⟩
  · refine ⟨hticking, Nat.le_succ_of_le htimer, Nat.le_succ_of_le hcycles, ?_, .inr le_rfl⟩
    have hnew : State.left { s with count := 12, timer := s.timer + 1, cycles := s.cycles + 1 }
        = 12 := rfl
    rw [hnew]
    dsimp only
    omega
  · have hnew : State.left { s with count := s.count - 1, cycles := s.cycles + 1 }
        = s.count - 1 := max_eq_left (Nat.le_sub_one_of_lt hlt)
    refine ⟨hticking, htimer, Nat.le_succ_of_le hcycles, ?_, hleft.imp_right fun h => ?_⟩
    · rw [hnew]
      dsimp only
      omega
    · rw [hnew]
      omega

theorem stable_ticking : Stable protocol () State.Ticking :=
  fun s s' hs h => (stable_elapsed s s s' hs (elapsed_refl h)).1

theorem elapsed_guarded (hg : Guarded s s') (h : s₁.Elapsed s) : s₁.Elapsed s' := by
  obtain ⟨hticking, htimer, hcycles, hsum, hleft⟩ := h
  obtain ⟨hticking', ht, hc, hl⟩ := hg.2 hticking
  rw [State.Elapsed, ht, hc, hl]
  exact ⟨hticking', htimer, hcycles, hsum, hleft⟩

end Keeps

/-! ### Rules for stores, loads and waits -/

section Rules

variable {s : State} {P Q : State → Prop} {addr v mask : Word}

theorem plain_addr (r : Reg) : Plain r.addr := by
  cases r with
  | _ => rfl

theorem find_addr (r : Reg) : Reg.all.find? (fun q => q.addr = r.addr) = some r := by
  cases r with
  | _ => rfl

theorem write_addr (r : Reg) : s.write r.addr v = s.put r v := by
  rw [State.write, (plain_addr r).register_eq, find_addr]
  exact congrArg (s.put r) ((plain_addr r).combine_eq _ _)

theorem write_clr (r : Reg) : s.write (r.addr + clrAlias) v = s.put r (s.get r &&& ~~~v) := by
  have hreg := (plain_addr r).register_add (l := clrAlias) (by decide)
  rw [State.write, hreg, find_addr]
  exact congrArg (s.put r) ((plain_addr r).combine_clr _ _)

theorem write_rule (hP : Stable protocol () P) (hQ : Stable protocol () Q)
    (h : ∀ s, P s →
      (s.write addr v = s ∨ Guarded s (s.write addr v)) ∧ Q (s.write addr v)) :
    Triple protocol () P (write32 addr v) fun _ => Q := by
  refine Triple.call hP (fun _ => hQ) fun s r s' hs ha => ?_
  obtain rfl := ha
  exact h s hs

/-- A store to a register that is not one of these. -/
theorem elsewhere_rule (hP : Stable protocol () P)
    (h : Reg.all.find? (fun r => r.addr = register addr) = none) :
    Triple protocol () P (write32 addr v) fun _ => P := by
  refine write_rule hP hP fun s hs => ?_
  have hsame : s.write addr v = s := by rw [State.write, h]
  rw [hsame]
  exact ⟨.inl rfl, hs⟩

theorem read_rule {R : Word → State → Prop} (hP : Stable protocol () P)
    (hR : ∀ r, Stable protocol () (R r)) (h : ∀ s r, P s → s.Reads addr r → R r s) :
    Triple protocol () P (read32 addr) R := by
  refine Triple.call hP hR ?_
  rintro s (r : Word) s' hs ⟨rfl, hr⟩
  exact ⟨Or.inl rfl, h _ r hs hr⟩

theorem poll_rule {done : Word → Bool} (hP : Stable protocol () P) (hQ : Stable protocol () Q)
    (h : ∀ s r, P s → s.Reads addr r → done r = true → Q s) :
    Triple protocol () P ((Prog.poll (Op.read32 addr) done).bind fun _ => .ret ()) fun _ => Q := by
  refine Triple.bind (Q := fun _ => Q) (Triple.poll hP (fun _ => hQ) ?_)
    fun _ => .ret hQ fun _ h => h
  rintro s (r : Word) s' hs ⟨rfl, hr⟩
  refine ⟨Or.inl rfl, ?_⟩
  cases hd : done r with
  | true => exact h _ r hs hr hd
  | false => exact hs

theorem waitAny_rule (hP : Stable protocol () P) (hQ : Stable protocol () Q)
    (h : ∀ s r, P s → s.Reads addr r → r &&& mask ≠ 0#32 → Q s) :
    Triple protocol () P (waitAny addr mask) fun _ => Q :=
  poll_rule hP hQ fun s r hs hr hd => h s r hs hr (of_decide_eq_true hd)

theorem waitFor_rule (hP : Stable protocol () P) (hQ : Stable protocol () Q)
    (h : ∀ s, P s → s.Reads addr v → Q s) : Triple protocol () P (waitFor addr v) fun _ => Q := by
  refine poll_rule hP hQ fun s r hs hr hd => ?_
  obtain rfl := of_decide_eq_true hd
  exact h s hs hr

end Rules

/-! ### init -/

section Init

/-- SRC is the crystal, and the mux may still be on the ring oscillator. -/
def Switching (s : State) : Prop := s.refSrc = clkRefSrcXosc ∧ s.stable = true ∧ s.Running

/-- On the crystal, with the timer counting ticks, of whatever length. -/
def Counting (s : State) : Prop := s.OnCrystal ∧ s.TimerOut

/-- The length of a tick is set. -/
def Dividing (s : State) : Prop := Counting s ∧ s.ticksCycles = 12#32

theorem stable_switching : Stable protocol () Switching :=
  (stable_regs fun _ _ _ _ _ _ _ h => h).and (stable_stable.and stable_running)

theorem stable_counting : Stable protocol () Counting :=
  stable_onCrystal.and (stable_regs fun _ _ _ _ _ _ _ h => h)

theorem stable_dividing : Stable protocol () Dividing :=
  stable_counting.and (stable_regs fun _ _ _ _ _ _ _ h => h)

/-- The key is the one for ENABLE, so a running crystal goes on. -/
theorem put_xoscCtrl (s : State) :
    s.put .xoscCtrl (xoscCtrlEnable ||| xoscCtrlRange1To15mhz)
      = { s with xoscCtrl := xoscCtrlEnable ||| xoscCtrlRange1To15mhz } := by
  have hkey : Clocks.Tree.enabled (xoscCtrlEnable ||| xoscCtrlRange1To15mhz) = true := by decide
  rw [State.put, hkey, Bool.and_true]

theorem enable_rule :
    Triple protocol () State.Running
      (write32 Reg.xoscCtrl.addr (xoscCtrlEnable ||| xoscCtrlRange1To15mhz))
      fun _ => State.Running := by
  refine write_rule stable_running stable_running fun s h => ?_
  rw [write_addr, put_xoscCtrl]
  exact ⟨.inr ⟨h, fun ht => ⟨ht, rfl, rfl, rfl⟩⟩, h⟩

/-- The crystal is stable when clk_ref is told to switch to it. -/
theorem switch_rule :
    Triple protocol () (fun s => s.Running ∧ s.stable = true)
      (write32 Reg.clkRefCtrl.addr (clkRefSrcXosc.setWidth 32)) fun _ => Switching := by
  refine write_rule (stable_running.and stable_stable) stable_switching fun s h => ?_
  have hsrc : (clkRefSrcXosc.setWidth 32).extractLsb' 0 2 = clkRefSrcXosc := by decide
  have hnew : Switching (s.put .clkRefCtrl (clkRefSrcXosc.setWidth 32)) :=
    ⟨hsrc, h.2, ⟨.inr ⟨hsrc, h.2⟩, h.1.1.2⟩, h.1.2⟩
  rw [write_addr]
  refine ⟨.inr ⟨hnew.2.2, fun ht => ⟨⟨⟨⟨hsrc, ht.1.1.2⟩, ht.1.2⟩, ht.2⟩, rfl, rfl, rfl⟩⟩, hnew⟩

/-- SELECTED shows what a mux is on. -/
theorem refSel_of_reads {s : State}
    (h : s.Reads (Chip.clocksBase .rp2350 + 0x38#32) (1#32 <<< clkRefSrcXosc.toNat)) :
    s.refSel = clkRefSrcXosc := by
  have hinj : ∀ x : BitVec 2, 1#32 <<< clkRefSrcXosc.toNat = 1#32 <<< x.toNat →
      x = clkRefSrcXosc := by decide
  exact hinj s.refSel h

theorem onCrystal_wait :
    Triple protocol () Switching
      (waitFor (Chip.clocksBase .rp2350 + 0x38#32) (1#32 <<< clkRefSrcXosc.toNat))
      fun _ => State.OnCrystal :=
  waitFor_rule stable_switching stable_onCrystal fun _ h hr =>
    ⟨⟨h.1, refSel_of_reads hr, h.2.1⟩, h.2.2.2⟩

/-- clk_sys is on clk_ref and stays there. -/
theorem sys_rule :
    Triple protocol () State.OnCrystal
      (write32 Reg.clkSysCtrl.addr (clkSysSrcClkRef.setWidth 32)) fun _ => State.OnCrystal := by
  refine write_rule stable_onCrystal stable_onCrystal fun s h => ?_
  have hsrc : (clkSysSrcClkRef.setWidth 32).extractLsb' 0 1 = clkSysSrcClkRef := by decide
  have hnew : (s.put .clkSysCtrl (clkSysSrcClkRef.setWidth 32)).OnCrystal := ⟨h.1, hsrc, h.2.2⟩
  rw [write_addr]
  exact ⟨.inr ⟨hnew.running, fun ht => ⟨⟨hnew, ht.2⟩, rfl, rfl, rfl⟩⟩, hnew⟩

/-- A timer that is out of reset keeps its count. -/
theorem release_rule :
    Triple protocol () State.OnCrystal
      (write32Clr Reg.resetsReset.addr (Chip.resetTimer .rp2350)) fun _ => Counting := by
  refine write_rule stable_onCrystal stable_counting fun s h => ?_
  have hout : s.resetsReset &&& ~~~Chip.resetTimer .rp2350 &&& Chip.resetTimer .rp2350 = 0#32 :=
    BitVec.and_not_and_self _ _
  have hput : s.put .resetsReset (s.resetsReset &&& ~~~Chip.resetTimer .rp2350)
      = { s with resetsReset := s.resetsReset &&& ~~~Chip.resetTimer .rp2350 } := by
    rw [State.put, if_pos hout]
  rw [write_clr, State.get, hput]
  exact ⟨.inr ⟨h.running, fun ht => ⟨⟨ht.1, hout, ht.2.2⟩, rfl, rfl, rfl⟩⟩, h, hout⟩

theorem divide_rule :
    Triple protocol () Counting (write32 Reg.ticksCycles.addr 12#32) fun _ => Dividing := by
  refine write_rule stable_counting stable_dividing fun s h => ?_
  have hcycles : 12#32 &&& 0x1FF#32 = 12#32 := by decide
  rw [write_addr]
  refine ⟨.inr ⟨h.1.running, fun ht => ?_⟩, h, hcycles⟩
  exact ⟨⟨ht.1, ht.2.1, hcycles, ht.2.2.2⟩, rfl, rfl, rfl⟩

theorem start_rule :
    Triple protocol () Dividing (write32 Reg.ticksCtrl.addr 1#32) fun _ => State.Ticking := by
  refine write_rule stable_dividing stable_ticking fun s h => ?_
  have hon : 1#32 &&& 1#32 ≠ 0#32 := by decide
  have hnew : (s.put .ticksCtrl 1#32).Ticking := ⟨h.1.1, h.1.2, h.2, hon⟩
  rw [write_addr]
  exact ⟨.inr ⟨hnew.1.running, fun _ => ⟨hnew, rfl, rfl, rfl⟩⟩, hnew⟩

theorem init_spec : Triple protocol () State.Running (init .rp2350) fun _ => State.Ticking := by
  refine (elsewhere_rule stable_running rfl).bind fun _ => ?_
  refine enable_rule.bind fun _ => ?_
  refine (waitAny_rule stable_running (stable_running.and stable_stable)
    fun s r h hr hr' => ⟨h, ?_⟩).bind fun _ => ?_
  · exact (hr : r &&& xoscStatusStable ≠ 0#32 ↔ s.stable = true).mp hr'
  refine switch_rule.bind fun _ => onCrystal_wait.bind fun _ => ?_
  refine sys_rule.bind fun _ => ?_
  refine (waitFor_rule stable_onCrystal stable_onCrystal fun _ h _ => h).bind fun _ => ?_
  refine release_rule.bind fun _ => ?_
  refine (waitAny_rule stable_counting stable_counting fun _ _ h _ _ => h).bind fun _ => ?_
  exact divide_rule.bind fun _ => start_rule

end Init

/-! ### Sleeping -/

section Sleep

variable {P : State → Prop} {s₁ : State}

/-- Loads keep what the hardware keeps. -/
theorem timeUs_keeps (hP : Stable protocol () P) :
    Triple protocol () P (Multicore.timeUs .rp2350) fun _ => P :=
  read_rule hP (fun _ => hP) fun _ _ h _ => h

theorem sleepUs_keeps (hP : Stable protocol () P) (us : Word) :
    Triple protocol () P (Time.sleepUs .rp2350 us) fun _ => P := by
  refine (timeUs_keeps hP).bind fun start => ?_
  refine Triple.loop (I := fun _ => P) (fun _ => hP) (fun _ => hP) (fun _ => ?_) ()
  refine (timeUs_keeps hP).bind fun now => ?_
  split
  · exact .ret hP fun _ h => h
  · exact .ret hP fun _ h => h

theorem sleepMs_keeps (hP : Stable protocol () P) (ms : Word) :
    Triple protocol () P (Time.sleepMs .rp2350 ms) fun _ => P := by
  refine Triple.loop (I := fun _ => P) (fun _ => hP) (fun _ => hP) (fun i => ?_) 0
  rw [Time.spinRound]
  split
  · exact (elsewhere_rule hP rfl).bind fun _ => .ret hP fun _ h => h
  · exact .ret hP fun _ h => h

/-- At least `n` ticks since state `s₁`. -/
def After (s₁ : State) (n : ℕ) (s : State) : Prop := s₁.Elapsed s ∧ s₁.timer + n ≤ s.timer

theorem stable_after (s₁ : State) (n : ℕ) : Stable protocol () (After s₁ n) := by
  intro s s' hs h
  have hlater := stable_elapsed s s s' hs (elapsed_refl h.1.1)
  exact ⟨stable_elapsed s₁ s s' hs h.1, h.2.trans hlater.2.1⟩

/-- A reading of the timer, which may be old when it is used. -/
theorem timeUs_after (n : ℕ) :
    Triple protocol () (After s₁ n) (Multicore.timeUs .rp2350)
      fun r s => ∃ m, n ≤ m ∧ r = BitVec.ofNat 32 (s₁.timer + m) ∧ After s₁ m s := by
  refine read_rule (stable_after s₁ n) (fun r => ?_) fun s r h hr => ?_
  · exact .exists fun m => fun s s' hs h => ⟨h.1, h.2.1, stable_after s₁ m s s' hs h.2.2⟩
  · obtain ⟨m, hm⟩ := Nat.exists_eq_add_of_le h.1.2.1
    have hnm : n ≤ m := Nat.le_of_add_le_add_left (h.2.trans hm.le)
    have hr' : r = BitVec.ofNat 32 s.timer := hr
    refine ⟨m, hnm, ?_, h.1, hm.ge⟩
    rw [hr', hm]

/-- The difference of the readings is at most the ticks between them. -/
theorem sleepUs_spec (us : Word) :
    Triple protocol () s₁.Elapsed (Time.sleepUs .rp2350 us) fun _ => After s₁ us.toNat := by
  refine Triple.pre (P := After s₁ 0) ?_ fun s h => ⟨h, h.2.1⟩
  refine (timeUs_after 0).bind fun start => Triple.exists fun a => ?_
  refine Triple.assume fun _ => Triple.assume fun hstart => ?_
  subst hstart
  refine Triple.loop (I := fun _ => After s₁ a) (fun _ => stable_after s₁ a)
    (fun _ => stable_after s₁ us.toNat) (fun _ => ?_) ()
  refine (timeUs_after a).bind fun now => Triple.exists fun b => ?_
  refine Triple.assume fun hab => Triple.assume fun hnow => ?_
  subst hnow
  split
  · exact .ret (stable_after s₁ b) fun s h => ⟨h.1, (Nat.add_le_add_left hab _).trans h.2⟩
  · next hdone =>
    have hle : s₁.timer + a ≤ s₁.timer + b := Nat.add_le_add_left hab _
    have helapsed := Time.toNat_elapsed_le (w := 32) hle
    rw [BitVec.lt_def, Nat.not_lt] at hdone
    rw [Nat.add_sub_add_left] at helapsed
    have hus : us.toNat ≤ b := hdone.trans (helapsed.trans (Nat.sub_le b a))
    exact .ret (stable_after s₁ b) fun s h => ⟨h.1, (Nat.add_le_add_left hus _).trans h.2⟩

end Sleep

/-! ### Sessions -/

inductive Call
  | init
  | timeUs
  | sleepUs (us : Word)
  | sleepMs (ms : Word)
  deriving DecidableEq

def Call.run : Call → Firmware Unit
  | init => Timebase.init .rp2350
  | timeUs => do
    let _ ← Multicore.timeUs .rp2350
    return ()
  | sleepUs us => Time.sleepUs .rp2350 us
  | sleepMs ms => Time.sleepMs .rp2350 ms

/-- Calls that have returned, one after the other. -/
inductive Session (s₀ : State) : List Call → State → Prop
  | start : Session s₀ [] s₀
  | call {calls : List Call} {s : State} {c : Call} {cfg : Config Unit Op.Answer Unit State}
      (h : Session s₀ calls s) (hr : machine.Reach ⟨s, fun _ => c.run⟩ cfg)
      (hend : cfg.threads () = .ret ()) : Session s₀ (calls ++ [c]) cfg.shared

/-- From state `s` to state `t` a tick has come for every twelve cycles of the crystal, give or
take the cycles at both ends, of which eleven are outside a tick at most. -/
def State.OnTime (s t : State) : Prop :=
  t.Ticking ∧ s.timer ≤ t.timer ∧ s.cycles ≤ t.cycles ∧
    12 * (t.timer - s.timer) ≤ t.cycles - s.cycles + 11 ∧
    (s.left ≤ 12 → t.cycles - s.cycles ≤ 12 * (t.timer - s.timer) + 11)

section Runs

variable {s₀ s s' s₁ : State} {before calls : List Call} {c : Call}
  {cfg : Config Unit Op.Answer Unit State}

theorem State.Elapsed.onTime (h : s.Elapsed s') : s.OnTime s' := by
  obtain ⟨hticking, htimer, hcycles, hsum, hleft⟩ := h
  have hone : 1 ≤ s.left := State.one_le_left
  have hone' : 1 ≤ s'.left := State.one_le_left
  refine ⟨hticking, htimer, hcycles, ?_, fun hle => ?_⟩
  · rcases hleft with heq | hle
    · omega
    · omega
  · omega

theorem Call.keeps (c : Call) : Triple protocol () State.Running c.run fun _ => State.Running := by
  cases c with
  | init => exact init_spec.post fun _ s h => h.1.running
  | timeUs => exact (timeUs_keeps stable_running).bind fun _ => .ret stable_running fun _ h => h
  | sleepUs us => exact sleepUs_keeps stable_running us
  | sleepMs ms => exact sleepMs_keeps stable_running ms

/-- What stores and the hardware keep, a call keeps. -/
theorem Call.invariant {I : State → Prop} (hI : ∀ t t', Guarded t t' → I t → I t')
    (hst : Stable protocol () I) (hs : s.Running) (h₀ : I s)
    (hr : machine.Reach ⟨s, fun _ => c.run⟩ cfg) : I cfg.shared := by
  refine protocol.invariant (P := fun _ => State.Running) (Q := fun _ _ => State.Running)
    (fun _ => c.keeps) (fun _ => hs) h₀ ?_ hst hr
  rintro _ _ t _ t' - (rfl | hg) ht
  · exact ht
  · exact hI t t' hg ht

theorem Call.running (hs : s.Running) (hr : machine.Reach ⟨s, fun _ => c.run⟩ cfg) :
    cfg.shared.Running :=
  Call.invariant (fun _ _ hg _ => hg.1) stable_running hs hs hr

theorem Call.elapsed (hs : s.Running) (h : s₁.Elapsed s)
    (hr : machine.Reach ⟨s, fun _ => c.run⟩ cfg) : s₁.Elapsed cfg.shared :=
  Call.invariant (fun _ _ => elapsed_guarded) (stable_elapsed s₁) hs h hr

/-- What a call with a postcondition ends in. -/
theorem Call.ends {P Q : State → Prop} (hc : Triple protocol () P c.run fun _ => Q) (hs : P s)
    (hr : machine.Reach ⟨s, fun _ => c.run⟩ cfg) (hend : cfg.threads () = .ret ()) :
    Q cfg.shared := by
  have hsafe := protocol.sound (P := fun _ => P) (Q := fun _ _ => Q) (fun _ => hc) (fun _ => hs) hr
  exact Safe.result (hsafe ()) hend

theorem Session.running (h₀ : s₀.Running) (h : Session s₀ calls s) : s.Running := by
  induction h with
  | start => exact h₀
  | call h hr hend ih => exact Call.running ih hr

theorem Session.ticking (h₀ : s₀.Running) (h : Session s₀ calls s) (hc : .init ∈ calls) :
    s.Ticking := by
  induction h with
  | start => exact absurd hc List.not_mem_nil
  | @call calls s c cfg h hr hend ih =>
    rcases List.mem_append.mp hc with hc | hc
    · exact (Call.elapsed (h.running h₀) (elapsed_refl (ih hc)) hr).1
    · obtain rfl := List.mem_singleton.mp hc
      exact Call.ends init_spec (h.running h₀) hr hend

theorem Session.elapsed (hs : s.Ticking) (h : Session s calls s') : s.Elapsed s' := by
  induction h with
  | start => exact elapsed_refl hs
  | call h hr hend ih => exact Call.elapsed ih.1.1.running ih hr

/-- **The timebase.** At every point of every call of a session: clk_ref runs, from the source it
is on as from the one it is selecting, and clk_sys runs from it; since the end of the first `init`
TIMER0 has counted one tick for twelve cycles of the crystal, less than a tick more or less, in any
stretch of the session; and `sleep_us` then lasts for the cycles of its microseconds, but eleven. -/
theorem timebase_exact (h₀ : s₀.Running) (h : Session s₀ before s) (h' : Session s calls s')
    (hr : machine.Reach ⟨s', fun _ => c.run⟩ cfg) :
    cfg.shared.Running ∧
    (.init ∈ before → s.OnTime cfg.shared) ∧
    (∀ us, .init ∈ before → c = .sleepUs us → cfg.threads () = .ret () →
      s'.cycles + 12 * us.toNat ≤ cfg.shared.cycles + 11) := by
  have hrun := h'.running (h.running h₀)
  refine ⟨Call.running hrun hr, fun hin => ?_, ?_⟩
  · have helapsed := h'.elapsed (h.ticking h₀ hin)
    exact (Call.elapsed hrun helapsed hr).onTime
  · rintro us hin rfl hend
    have hticking := (h'.elapsed (h.ticking h₀ hin)).1
    obtain ⟨helapsed, hticks⟩ := Call.ends (sleepUs_spec us) (elapsed_refl hticking) hr hend
    obtain ⟨-, -, hcycles, hlate, -⟩ := helapsed.onTime
    omega

end Runs

/-! ### A sleep from tick to tick -/

/-- Answers of the hardware: what a register shows, and nothing else. -/
def State.answer : (e : Op) → State → Option (e.Answer × State)
  | .read32 addr, s =>
    some ((if addr = Chip.xoscBase .rp2350 + 0x04#32 then
        if s.stable then xoscStatusStable else 0#32
      else if addr = Chip.clocksBase .rp2350 + 0x38#32 then 1#32 <<< s.refSel.toNat
      else if addr = Chip.clocksBase .rp2350 + 0x44#32 then 1#32 <<< s.sysSel.toNat
      else if addr = Chip.resetsResetDone .rp2350 then ~~~s.resetsReset
      else BitVec.ofNat 32 s.timer : Word), s)
  | .write32 addr v, s => some ((), s.write addr v)
  | _, _ => none

theorem access_of_answer {e : Op} {s : State} {p : e.Answer × State}
    (h : State.answer e s = some p) : State.access e s p.1 p.2 := by
  cases e with
  | read32 addr =>
    cases h
    refine ⟨rfl, ?_⟩
    rw [State.Reads]
    split_ifs with h₁ hs h₂ h₃ h₄ h₅
    · exact iff_of_true (by decide) hs
    · exact iff_of_false (by decide) hs
    · rfl
    · rfl
    · exact BitVec.not_and_self _
    · rfl
  | write32 addr v => cases h; rfl
  | read8 | write8 | external => cases h

/-- The moves of the hardware. -/
inductive Move
  | stable | ref | sys | crystal

def State.move (s : State) : Move → Option State
  | .stable =>
    if Clocks.Tree.enabled s.xoscCtrl = true then some { s with stable := true } else none
  | .ref => some { s with refSel := s.refSrc }
  | .sys => some { s with sysSel := s.sysSrc }
  | .crystal =>
    if s.stable = true ∧ s.refSel = clkRefSrcXosc then some { s.tick with cycles := s.cycles + 1 }
    else none

theorem step_of_move {i : Move} {s s' : State} (h : s.move i = some s') : s.Step s' := by
  cases i with
  | stable =>
    rw [State.move] at h
    split_ifs at h with hen
    cases h
    exact .stable hen
  | ref =>
    cases h
    exact .ref
  | sys =>
    cases h
    exact .sys
  | crystal =>
    rw [State.move] at h
    split_ifs at h with hon
    cases h
    exact .crystal hon.1 hon.2

theorem reach_of_play {cfg cfg' : Config Unit Op.Answer Unit State}
    (cs : List (Machine.Choice Unit Move))
    (h : Machine.play (fun _ => State.answer) (fun i s => State.move s i) cfg cs = some cfg') :
    machine.Reach cfg cfg' :=
  @Machine.Reach.of_play Unit Op Op.Answer Unit State _ machine Move _ _
    (fun _ _ _ _ h => access_of_answer h) (fun _ _ _ h => step_of_move h) cfg cfg' cs h

/-- The chip runs from the ring oscillator, with everything in reset. -/
def boot : State where
  resetsReset := 0x1FFFFFFF#32
  xoscCtrl := 0#32
  clkRefCtrl := 0#32
  clkSysCtrl := 0#32
  ticksCtrl := 0#32
  ticksCycles := 0#32
  stable := false
  refSel := 0
  sysSel := 0
  count := 0
  timer := 0
  cycles := 0

/-- After `init`. -/
def ready : State :=
  { boot with resetsReset := 0x1F7FFFFF#32, xoscCtrl := 0xFABAA0#32, clkRefCtrl := 2#32
              ticksCtrl := 1#32, ticksCycles := 12#32, stable := true, refSel := 2 }

/-- One microsecond that is over after a cycle, since a tick was just about to come. -/
theorem timebase_exact_sleep :
    ∃ cfg, Session boot [.init] ready ∧
      machine.Reach ⟨ready, fun _ => (Call.sleepUs 1).run⟩ cfg ∧ cfg.threads () = .ret () ∧
      cfg.shared.cycles = 1 ∧ ready.OnTime cfg.shared ∧ 0 + 12 * 1 ≤ cfg.shared.cycles + 11 := by
  let t : Machine.Choice Unit Move := .thread ()
  obtain ⟨cfg₁, hr₁, hend₁, hs₁⟩ : ∃ cfg, machine.Reach ⟨boot, fun _ => Call.init.run⟩ cfg ∧
      cfg.threads () = .ret () ∧ cfg.shared = ready :=
    ⟨_, reach_of_play [t, t, .env .stable, t, t, t, .env .ref, t, t, t, t, t, t, t, t, t, t]
      rfl, rfl, rfl⟩
  obtain ⟨cfg₂, hr₂, hend₂, hs₂⟩ : ∃ cfg,
      machine.Reach ⟨ready, fun _ => (Call.sleepUs 1).run⟩ cfg ∧
      cfg.threads () = .ret () ∧ cfg.shared.cycles = 1 :=
    ⟨_, reach_of_play [t, .env .crystal, t, t] rfl, rfl, rfl⟩
  have hboot : boot.Running := ⟨⟨.inl rfl, .inl rfl⟩, rfl, rfl⟩
  have hinit := Session.start.call hr₁ hend₁
  rw [hs₁] at hinit
  obtain ⟨-, hontime, hslept⟩ := timebase_exact hboot hinit .start hr₂
  have hin : Call.init ∈ ([] ++ [Call.init] : List Call) := List.mem_singleton.mpr rfl
  exact ⟨cfg₂, hinit, hr₂, hend₂, hs₂, hontime hin, hslept 1 hin rfl hend₂⟩

end Timebase
