import Inmojomni.Pio.PinConfig
import Mathlib.Logic.Relation

/-!
# The latency measurement

A state machine counts, two cycles at a time, how long GPIO 16 takes to follow GPIO 15. The core
raises GPIO 15, an interrupt handler raises GPIO 16, the state machine pushes the complement of
the count, and the core pops it and lowers both pins; the host turns the count into cycles.

`Engine` is what the program uses of a state machine: its core, the input shift register and the
RX FIFO, under the datasheet's meaning of WAIT, JMP, MOV, IN and PUSH. `Rig` adds the pins and the
core's side of a measurement, cycle by cycle. `measurement_exact` is about every run of the rig: the
k-th word pushed gives the latency of the k-th pulse, rounded up to an even number of cycles.

The proof computes where the engine stands from the number of cycles since the rise alone
(`Timed`), through the counting loop and behind it, until the word is pushed.
-/

open Mmio Effect
open scoped List

namespace Pio.Latency

/-! ### The programs -/

/-- Driven by core 0; its own EDGE_HIGH source. -/
def pinA : ℤ := 15

/-- Driven by the interrupt handler. -/
def pinC : ℤ := 16

section Programs

variable [ShiftModel]

/-- The measurement program; firmware must report exactly these words. -/
def referenceProgram : Option Asm := do
  let a := Asm.init
  let a ← a.waitGpio 0 15 0 Asm.noSide
  let a ← a.waitGpio 1 15 0 Asm.noSide
  let a ← a.movXNotNull 0 Asm.noSide
  let loop := a.label
  let (a, done) := a.future
  let a ← a.jmpPin done 0 Asm.noSide
  let a ← a.jmpXDec loop 0 Asm.noSide
  let a ← a.bind done
  let a ← a.inX 32 0 Asm.noSide
  a.pushBlock 0 Asm.noSide

/-- The program of the firmware. -/
def program : Option Asm := do
  let a := Asm.init
  -- arm: the previous pulse is over
  let a ← a.waitGpio 0 pinA 0 Asm.noSide
  -- rising edge of the interrupt input
  let a ← a.waitGpio 1 pinA 0 Asm.noSide
  let a ← a.movXNotNull 0 Asm.noSide
  let loop := a.label
  let (a, done) := a.future
  -- GPIO 16 high -> done, else x--, loop (2 cycles per iteration)
  let a ← a.jmpPin done 0 Asm.noSide
  let a ← a.jmpXDec loop 0 Asm.noSide
  let a ← a.bind done
  let a ← a.inX 32 0 Asm.noSide
  -- RX FIFO <- x (count = ~x); wrap to 0
  a.pushBlock 0 Asm.noSide

/-- The firmware runs the reference program. -/
theorem program_eq_referenceProgram : program = referenceProgram := rfl

/-- The words of the program. -/
def words : List (BitVec 16) := [0x200F, 0x208F, 0xA02B, 0x00C5, 0x0043, 0x4020, 0x8020]

theorem exists_referenceProgram :
    ∃ a, referenceProgram = some a ∧ a.len = 7 ∧ a.code.toList.take 7 = words := by
  -- every call answers; what is left is to compare the words
  simp [referenceProgram, Asm.init, Asm.label, Asm.future, Asm.bind, Asm.fwIndex, Asm.patch,
    List.range_succ, Asm.waitGpio, Asm.movXNotNull, Asm.jmpPin, Asm.jmpXDec, Asm.inX, Asm.pushBlock,
    Asm.emitJmp, Asm.jmpTarget, Asm.emit, Asm.noSide, Asm.delayBits_plain]
  decide

theorem referenceProgram_code {a : Asm} (h : referenceProgram = some a) :
    a.len = 7 ∧ ∀ k < 7, a.code[k]? = words[k]? := by
  obtain ⟨a', ha', hlen, hcode⟩ := exists_referenceProgram
  obtain rfl : a' = a := Option.some.inj (ha'.symm.trans h)
  refine ⟨hlen, fun k hk => ?_⟩
  rw [← hcode, List.getElem?_take_of_lt hk, Vector.getElem?_toList]

end Programs

/-- PIO count -> clk_sys cycles between the two pad edges. -/
def cycles (count : Word) : Word := 2 * count + 2

/-- The calls that set the state machine up for the measurement. -/
def prepare (m : StateMachine) (prog : Asm) : Firmware Unit := do
  m.load prog
  m.setClkdiv 1 0
  m.setJmpPin pinC
  m.enable

/-! ### The state machine -/

/-- What the registers of a state machine say about its program: the instruction memory, the wrap
addresses, EXECCTRL.JMP_PIN, SHIFTCTRL.IN_SHIFTDIR and SHIFTCTRL.AUTOPUSH. -/
structure Setup where
  memory : BitVec 5 → BitVec 16
  wrap : Wrap
  jmpPin : BitVec 5
  inRight : Bool
  autopush : Bool

/-- The setup in the registers. -/
def Setup.read (m : StateMachine) (r : Regs) : Setup where
  memory := m.memory r
  wrap := m.wrap r
  jmpPin := (ExecCtrl.read (r (m.block.reg (.execctrl m.sm)))).jmpPin
  inRight := (r (m.block.reg (.shiftctrl m.sm))).getLsbD 18
  autopush := (r (m.block.reg (.shiftctrl m.sm))).getLsbD 16

/-- The core, the input shift register and the RX FIFO, oldest word first. -/
structure Engine where
  core : Core
  isr : Word
  rx : List Word

/-- The words that fit into the RX FIFO. -/
def rxDepth : ℕ := 4

/-- `n` bits of `data` shifted into the ISR. -/
def shiftIn (right : Bool) (isr data : Word) (n : ℕ) : Word :=
  if right then (isr >>> n) ||| (data <<< (32 - n))
  else (isr <<< n) ||| (data &&& (BitVec.allOnes 32 >>> (32 - n)))

/-- One cycle, in which the GPIOs are sampled as `pins`: WAIT stalls until its GPIO has its
polarity, PUSH stalls while the FIFO is full. There is no answer for instructions and modes that
the measurement does not use. -/
def Engine.cycle (c : Setup) (pins : BitVec 5 → Bool) (e : Engine) : Option Engine :=
  let go (stall : Bool) : Core :=
    e.core.cycle c.memory c.wrap ⟨pins c.jmpPin, false, stall, 0, e.core⟩
  match decode (c.memory e.core.pc) with
  | .jmp condition _ => if condition = 7 then none else some { e with core := go false }
  | .wait polarity 0 gpio => some { e with core := go (pins gpio != polarity) }
  | .mov destination _ source =>
    if (destination = 1 ∨ destination = 2) ∧ (source = 1 ∨ source = 2 ∨ source = 3) then
      some { e with core := go false }
    else none
  | .inp 1 count =>
    if c.autopush then none
    else some { e with
      core := go false
      isr := shiftIn c.inRight e.isr e.core.x (bitCount count).toNat }
  | .push false true =>
    if e.rx.length < rxDepth then some ⟨go false, 0, e.rx ++ [e.isr]⟩
    else some { e with core := go true }
  | _ => none

/-! ### The rig -/

/-- Where a measurement stands. -/
inductive Phase
  /-- Both pins are low. -/
  | idle
  /-- GPIO 15 has been sampled high for `n` cycles, and GPIO 16 follows it after `latency`. -/
  | pulse (latency n : ℕ)
  /-- The core has popped the word, and lowers GPIO 16 and then GPIO 15. -/
  | popped
  deriving DecidableEq, Repr

/-- The engine and the pins; the latencies of the pulses so far, and the words the core has
popped. -/
structure Rig where
  engine : Engine
  phase : Phase
  pulses : List ℕ
  popped : List Word

/-- What happens next: a cycle in one of the phases, or that the core pops a word. -/
inductive Event
  | low
  | rise (latency : ℕ)
  | hold
  | pop
  | lower (pinC : Bool)
  | fall

/-- The GPIOs with levels for 15 and 16. -/
def sampled (others : BitVec 5 → Bool) (a c : Bool) : BitVec 5 → Bool := fun gpio =>
  if gpio = 15 then a else if gpio = 16 then c else others gpio

namespace Rig

variable (c : Setup) (others : BitVec 5 → Bool) (s : Rig)

/-- A cycle of the engine, into a phase. -/
def cycle (a high : Bool) (phase : Phase) : Option Rig :=
  (s.engine.cycle c (sampled others a high)).map fun e => { s with engine := e, phase }

/-- GPIO 15 rises while the engine waits for it, GPIO 16 follows after the latency, both stay high
until the core has popped the word, and then GPIO 16 and GPIO 15 go low. -/
def step : Event → Option Rig
  | .low => if s.phase = .idle then s.cycle c others false false .idle else none
  | .rise latency =>
    if s.phase = .idle ∧ s.engine.core.pc = 1 ∧ 1 ≤ latency ∧ latency ≤ 2 ^ 32 - 2 then
      { s with pulses := s.pulses ++ [latency] }.cycle c others true false (.pulse latency 1)
    else none
  | .hold =>
    match s.phase with
    | .pulse latency n => s.cycle c others true (latency ≤ n) (.pulse latency (n + 1))
    | _ => none
  | .pop =>
    match s.phase, s.engine.rx with
    | .pulse _ _, w :: rx => some { s with
        engine := { s.engine with rx }
        phase := .popped
        popped := s.popped ++ [w] }
    | _, _ => none
  | .lower high => if s.phase = .popped then s.cycle c others true high .popped else none
  | .fall => if s.phase = .popped then s.cycle c others false false .idle else none

/-- The words pushed so far, oldest first. -/
def pushed : List Word := s.popped ++ s.engine.rx

/-- Something happens, whatever the other GPIOs are. -/
def Step (s s' : Rig) : Prop := ∃ others event, s.step c others event = some s'

end Rig

/-- The cycles that the host makes of a word: the core takes the complement of what it pops. -/
def measured (w : Word) : ℕ := (cycles (~~~w)).toNat

/-- A number of cycles, rounded up to an even number. -/
def roundUp (latency : ℕ) : ℕ := latency + latency % 2

/-! ### What an instruction does -/

section Cycle

variable {c : Setup} {pins : BitVec 5 → Bool} {e : Engine}

theorem cycle_wait {polarity : Bool} {gpio : BitVec 5}
    (h : decode (c.memory e.core.pc) = .wait polarity 0 gpio) :
    e.cycle c pins = some (if pins gpio != polarity then e
      else { e with core := { e.core with pc := c.wrap.next e.core.pc } }) := by
  simp only [Engine.cycle, Core.cycle, h]
  change some { e with core := (if pins gpio != polarity then e.core else
    { e.core with pc := c.wrap.next e.core.pc }) } = _
  cases pins gpio != polarity <;> rfl

theorem cycle_movNotNull (h : decode (c.memory e.core.pc) = .mov 1 1 3) :
    e.cycle c pins = some { e with core := ⟨c.wrap.next e.core.pc, ~~~0, e.core.y⟩ } := by
  simp only [Engine.cycle, Core.cycle, h]
  rfl

theorem cycle_jmpPin {a : BitVec 5} (h : decode (c.memory e.core.pc) = .jmp 6 a) :
    e.cycle c pins = some { e with core := { e.core with
      pc := if pins c.jmpPin then a else c.wrap.next e.core.pc } } := by
  simp only [Engine.cycle, Core.cycle, h]
  rfl

/-- X is tested before it is decremented. -/
theorem cycle_jmpXDec {a : BitVec 5} (h : decode (c.memory e.core.pc) = .jmp 2 a)
    (hx : e.core.x ≠ 0) :
    e.cycle c pins = some { e with core := ⟨a, e.core.x - 1, e.core.y⟩ } := by
  simp only [Engine.cycle, Core.cycle, h]
  change some { e with core := ⟨if decide (e.core.x ≠ 0) then a else _, _, _⟩ } = _
  rw [decide_eq_true hx]
  rfl

theorem cycle_inX {count : BitVec 5} (h : decode (c.memory e.core.pc) = .inp 1 count)
    (hauto : c.autopush = false) :
    e.cycle c pins = some { e with
      core := { e.core with pc := c.wrap.next e.core.pc }
      isr := shiftIn c.inRight e.isr e.core.x (bitCount count).toNat } := by
  simp only [Engine.cycle, Core.cycle, h, hauto]
  rfl

theorem cycle_push (h : decode (c.memory e.core.pc) = .push false true)
    (hrx : e.rx.length < rxDepth) :
    e.cycle c pins
      = some ⟨{ e.core with pc := c.wrap.next e.core.pc }, 0, e.rx ++ [e.isr]⟩ := by
  simp only [Engine.cycle, Core.cycle, h]
  exact if_pos hrx

/-- All 32 bits of X replace the ISR, in either direction. -/
theorem shiftIn_all (right : Bool) (isr data : Word) : shiftIn right isr data 32 = data := by
  have hright : isr >>> 32 = 0 := BitVec.ushiftRight_eq_zero (Nat.le_refl _)
  have hleft : isr <<< 32 = 0 := BitVec.shiftLeft_eq_zero (Nat.le_refl _)
  cases right with
  | true => simp [shiftIn, hright]
  | false =>
    rw [shiftIn, if_neg (by decide), hleft, Nat.sub_self, BitVec.ushiftRight_zero,
      BitVec.and_allOnes]
    exact BitVec.zero_or

end Cycle

/-! ### Through the program -/

/-- The registers are set up for the measurement. -/
structure Ready (c : Setup) : Prop where
  memory : ∀ k : Fin 7, words[k]? = some (c.memory (BitVec.ofNat 5 k))
  wrap : c.wrap = ⟨6, 0⟩
  jmpPin : c.jmpPin = 16
  autopush : c.autopush = false

theorem Ready.decode_eq {c : Setup} (h : Ready c) (k : Fin 7) {pc : BitVec 5}
    (hpc : pc = BitVec.ofNat 5 k) {i : Isa} (hk : words[k]?.map decode = some i) :
    decode (c.memory pc) = i := by
  rw [h.memory k] at hk
  rw [hpc]
  exact Option.some.inj hk

/-- The count that is pushed for a latency. -/
def count (latency : ℕ) : ℕ := (latency - 1) / 2

/-- X after `i` rounds of the loop. -/
def xAfter (i : ℕ) : Word := ~~~BitVec.ofNat 32 i

/-- Where the engine stands after GPIO 15 has been sampled high for `n` cycles, if GPIO 16 follows
after the latency: at the start, in the counting loop, or behind it. -/
inductive Timed (latency : ℕ) : ℕ → Engine → Prop
  | start {e : Engine} (hpc : e.core.pc = 2) (hrx : e.rx = []) : Timed latency 1 e
  | test {e : Engine} (i : ℕ) (hi : i ≤ count latency) (hpc : e.core.pc = 3)
      (hx : e.core.x = xAfter i) (hrx : e.rx = []) : Timed latency (2 * i + 2) e
  | decrement {e : Engine} (i : ℕ) (hi : i < count latency) (hpc : e.core.pc = 4)
      (hx : e.core.x = xAfter i) (hrx : e.rx = []) : Timed latency (2 * i + 3) e
  | shift {e : Engine} (hpc : e.core.pc = 5) (hx : e.core.x = xAfter (count latency))
      (hrx : e.rx = []) : Timed latency (2 * count latency + 3) e
  | push {e : Engine} (hpc : e.core.pc = 6) (hisr : e.isr = xAfter (count latency))
      (hrx : e.rx = []) : Timed latency (2 * count latency + 4) e
  | done {e : Engine} (n : ℕ) (hn : 2 * count latency + 5 ≤ n) (hpc : e.core.pc = 0)
      (hrx : e.rx = [xAfter (count latency)]) : Timed latency n e

theorem xAfter_sub_one (i : ℕ) : xAfter i - 1 = xAfter (i + 1) := by
  rw [xAfter, xAfter, BitVec.ofNat_add]
  bv_omega

theorem xAfter_ne_zero {i : ℕ} (hi : i < 2 ^ 32 - 1) : xAfter i ≠ 0 := by
  intro h
  have hall : BitVec.ofNat 32 i = ~~~0 := by rw [← h, xAfter, BitVec.not_not]
  have htoNat := congrArg BitVec.toNat hall
  rw [BitVec.toNat_ofNat, Nat.mod_eq_of_lt (by omega)] at htoNat
  rw [htoNat] at hi
  exact absurd hi (by decide)

/-- What the host makes of the word is the latency, rounded up. -/
theorem measured_xAfter {latency : ℕ} (h : 1 ≤ latency) (h' : latency ≤ 2 ^ 32 - 2) :
    measured (xAfter (count latency)) = roundUp latency := by
  have hlt : count latency < 2 ^ 31 - 1 := by
    rw [count]
    omega
  rw [measured, xAfter, BitVec.not_not, cycles, BitVec.toNat_add, BitVec.toNat_mul,
    BitVec.toNat_ofNat, roundUp, count] at *
  rw [show BitVec.toNat (2 : Word) = 2 from rfl, Nat.mod_eq_of_lt (a := (latency - 1) / 2) (by omega)]
  omega

/-- **One cycle of a measurement.** -/
theorem Timed.cycle {c : Setup} (hc : Ready c) (others : BitVec 5 → Bool) {latency n : ℕ}
    (h : 1 ≤ latency) (h' : latency ≤ 2 ^ 32 - 2) {e : Engine} (ht : Timed latency n e) :
    ∃ e', e.cycle c (sampled others true (latency ≤ n)) = some e' ∧ Timed latency (n + 1) e' := by
  have hcount : 2 * count latency + 1 ≤ latency ∧ latency ≤ 2 * count latency + 2 := by
    rw [count]
    omega
  cases ht with
  | start hpc hrx =>
    refine ⟨_, cycle_movNotNull (hc.decode_eq 2 hpc rfl), ?_⟩
    refine .test 0 (Nat.zero_le _) ?_ rfl hrx
    rw [hc.wrap, hpc]
    rfl
  | test i hi hpc hx hrx =>
    refine ⟨_, cycle_jmpPin (hc.decode_eq 3 hpc rfl), ?_⟩
    have hpin : sampled others true (latency ≤ 2 * i + 2) c.jmpPin
        = decide (latency ≤ 2 * i + 2) := by
      rw [hc.jmpPin]
      rfl
    rcases hi.lt_or_eq with hlt | rfl
    · rw [hpin, decide_eq_false (by omega), if_neg (by decide)]
      refine .decrement i hlt ?_ hx hrx
      rw [hc.wrap, hpc]
      rfl
    · rw [hpin, decide_eq_true (by omega)]
      exact .shift rfl hx hrx
  | decrement i hi hpc hx hrx =>
    have hne : e.core.x ≠ 0 := by
      rw [hx]
      exact xAfter_ne_zero (by omega)
    refine ⟨_, cycle_jmpXDec (hc.decode_eq 4 hpc rfl) hne, ?_⟩
    refine .test (i + 1) hi rfl ?_ hrx
    rw [hx]
    exact xAfter_sub_one i
  | shift hpc hx hrx =>
    refine ⟨_, cycle_inX (hc.decode_eq 5 hpc rfl) hc.autopush, ?_⟩
    refine .push ?_ ?_ hrx
    · rw [hc.wrap, hpc]
      rfl
    · rw [← hx]
      exact shiftIn_all _ _ _
  | push hpc hisr hrx =>
    have hroom : e.rx.length < rxDepth := by
      rw [hrx]
      decide
    refine ⟨_, cycle_push (hc.decode_eq 6 hpc rfl) hroom, ?_⟩
    refine .done _ (Nat.le_refl _) ?_ ?_
    · rw [hc.wrap, hpc]
      rfl
    · rw [hrx, hisr]
      rfl
  | done n hn hpc hrx =>
    -- GPIO 15 is still high: the engine waits for it to go low
    refine ⟨e, cycle_wait (hc.decode_eq 0 hpc rfl), ?_⟩
    exact .done _ (by omega) hpc hrx

/-- The word is pushed when GPIO 16 has been high for four cycles, and not twice. -/
theorem Timed.rx_eq {latency n : ℕ} {e : Engine} (ht : Timed latency n e) (h : 1 ≤ latency) :
    e.rx = [] ∧ n < latency + 4 ∨ e.core.pc = 0 ∧ e.rx = [xAfter (count latency)] := by
  have hcount : 2 * count latency + 1 ≤ latency := by
    rw [count]
    omega
  cases ht with
  | start _ hrx => exact .inl ⟨hrx, by omega⟩
  | test _ _ _ _ hrx => exact .inl ⟨hrx, by omega⟩
  | decrement _ _ _ _ hrx => exact .inl ⟨hrx, by omega⟩
  | shift _ _ hrx => exact .inl ⟨hrx, by omega⟩
  | push _ _ hrx => exact .inl ⟨hrx, by omega⟩
  | done _ _ hpc hrx => exact .inr ⟨hpc, hrx⟩

/-! ### Every run -/

/-- What holds between two events, by phase. -/
def Inv (s : Rig) : Prop :=
  match s.phase with
  | .idle => (s.engine.core.pc = 0 ∨ s.engine.core.pc = 1) ∧ s.engine.rx = [] ∧
      s.popped.map measured = s.pulses.map roundUp
  | .pulse latency n => 1 ≤ latency ∧ latency ≤ 2 ^ 32 - 2 ∧ Timed latency n s.engine ∧
      ∃ before, s.pulses = before ++ [latency] ∧ s.popped.map measured = before.map roundUp
  | .popped => s.engine.core.pc = 0 ∧ s.engine.rx = [] ∧
      s.popped.map measured = s.pulses.map roundUp

theorem Rig.cycle_eq {c : Setup} {others : BitVec 5 → Bool} {s : Rig} {a high : Bool} {e : Engine}
    (phase : Phase) (h : s.engine.cycle c (sampled others a high) = some e) :
    s.cycle c others a high phase = some { s with engine := e, phase } := by
  rw [Rig.cycle, h]
  rfl

/-- A cycle with both pins low, before a pulse. -/
theorem Rig.step_low {c : Setup} {others : BitVec 5 → Bool} {s : Rig} {e : Engine}
    (hphase : s.phase = .idle) (h : s.engine.cycle c (sampled others false false) = some e) :
    s.Step c { s with engine := e, phase := .idle } :=
  ⟨others, .low, (if_pos hphase).trans (Rig.cycle_eq _ h)⟩

/-- A cycle with both pins low, after a pulse. -/
theorem Rig.step_fall {c : Setup} {others : BitVec 5 → Bool} {s : Rig} {e : Engine}
    (hphase : s.phase = .popped) (h : s.engine.cycle c (sampled others false false) = some e) :
    s.Step c { s with engine := e, phase := .idle } :=
  ⟨others, .fall, (if_pos hphase).trans (Rig.cycle_eq _ h)⟩

/-- A cycle with GPIO 15 high and GPIO 16 after its latency. -/
theorem Rig.step_hold {c : Setup} {others : BitVec 5 → Bool} {s : Rig} {e : Engine} {latency n : ℕ}
    (hphase : s.phase = .pulse latency n)
    (h : s.engine.cycle c (sampled others true (latency ≤ n)) = some e) :
    s.Step c { s with engine := e, phase := .pulse latency (n + 1) } := by
  refine ⟨others, .hold, ?_⟩
  rw [Rig.step, hphase]
  exact Rig.cycle_eq _ h

section Run

variable {c : Setup} (hc : Ready c)

include hc

/-- Once GPIO 15 is low, the engine waits for it to rise. -/
theorem cycle_low (others : BitVec 5 → Bool) {e : Engine} (hpc : e.core.pc = 0 ∨ e.core.pc = 1)
    (hrx : e.rx = []) : ∃ e', e.cycle c (sampled others false false) = some e' ∧
      e'.core.pc = 1 ∧ e'.rx = [] := by
  rcases hpc with hpc | hpc
  · refine ⟨_, cycle_wait (hc.decode_eq 0 hpc rfl), ?_, hrx⟩
    change c.wrap.next e.core.pc = 1
    rw [hc.wrap, hpc]
    rfl
  · exact ⟨e, cycle_wait (hc.decode_eq 1 hpc rfl), hpc, hrx⟩

/-- **Every event keeps the invariant.** -/
theorem Inv.step {s s' : Rig} (h : Inv s) (hs : s.Step c s') : Inv s' := by
  obtain ⟨others, event, hs⟩ := hs
  cases event with
  | low =>
    obtain ⟨hphase, hs⟩ := Option.ite_none_right_eq_some.mp hs
    simp only [Inv, hphase] at h
    obtain ⟨hpc, hrx, hall⟩ := h
    obtain ⟨e, he, hpc, hrx⟩ := cycle_low hc others hpc hrx
    cases (Rig.cycle_eq .idle he).symm.trans hs
    exact ⟨.inr hpc, hrx, hall⟩
  | rise latency =>
    obtain ⟨⟨hphase, hpc, hlo, hhi⟩, hs⟩ := Option.ite_none_right_eq_some.mp hs
    simp only [Inv, hphase] at h
    obtain ⟨-, hrx, hall⟩ := h
    have he : s.engine.cycle c (sampled others true false)
        = some { s.engine with core := { s.engine.core with pc := c.wrap.next s.engine.core.pc } } :=
      cycle_wait (hc.decode_eq 1 hpc rfl)
    cases (Rig.cycle_eq (s := { s with pulses := s.pulses ++ [latency] }) _ he).symm.trans hs
    refine ⟨hlo, hhi, .start ?_ hrx, s.pulses, rfl, hall⟩
    rw [hc.wrap, hpc]
    rfl
  | hold =>
    rw [Rig.step] at hs
    cases hphase : s.phase with
    | pulse latency n =>
      simp only [Inv, hphase] at h hs
      obtain ⟨hlo, hhi, ht, hpulses⟩ := h
      obtain ⟨e, he, ht⟩ := ht.cycle hc others hlo hhi
      cases (Rig.cycle_eq _ he).symm.trans hs
      exact ⟨hlo, hhi, ht, hpulses⟩
    | _ => simp [hphase] at hs
  | pop =>
    rw [Rig.step] at hs
    split at hs
    · next latency n w rx hphase hrx =>
      cases hs
      simp only [Inv, hphase] at h
      obtain ⟨hlo, hhi, ht, before, hpulses, hall⟩ := h
      rcases ht.rx_eq hlo with ⟨hnone, -⟩ | ⟨hpc, hword⟩
      · cases hrx.symm.trans hnone
      obtain ⟨rfl, rfl⟩ := List.cons_eq_cons.mp (hrx.symm.trans hword)
      refine ⟨hpc, rfl, ?_⟩
      rw [hpulses, List.map_append, List.map_append, hall, List.map_singleton, List.map_singleton,
        measured_xAfter hlo hhi]
    · cases hs
  | lower high =>
    obtain ⟨hphase, hs⟩ := Option.ite_none_right_eq_some.mp hs
    simp only [Inv, hphase] at h
    obtain ⟨hpc, hrx, hall⟩ := h
    have he : s.engine.cycle c (sampled others true high) = some s.engine :=
      cycle_wait (hc.decode_eq 0 hpc rfl)
    cases (Rig.cycle_eq .popped he).symm.trans hs
    exact ⟨hpc, hrx, hall⟩
  | fall =>
    obtain ⟨hphase, hs⟩ := Option.ite_none_right_eq_some.mp hs
    simp only [Inv, hphase] at h
    obtain ⟨hpc, hrx, hall⟩ := h
    obtain ⟨e, he, hpc, hrx⟩ := cycle_low hc others (.inl hpc) hrx
    cases (Rig.cycle_eq .idle he).symm.trans hs
    exact ⟨.inr hpc, hrx, hall⟩

/-- Something can always happen next: the engine never meets what it has no answer for. -/
theorem Inv.progress {s : Rig} (h : Inv s) : ∃ s', s.Step c s' := by
  let others : BitVec 5 → Bool := fun _ => false
  cases hphase : s.phase with
  | idle =>
    simp only [Inv, hphase] at h
    obtain ⟨e, he, -⟩ := cycle_low hc others h.1 h.2.1
    exact ⟨_, Rig.step_low hphase he⟩
  | pulse latency n =>
    simp only [Inv, hphase] at h
    obtain ⟨e, he, -⟩ := h.2.2.1.cycle hc others h.1 h.2.1
    exact ⟨_, Rig.step_hold hphase he⟩
  | popped =>
    simp only [Inv, hphase] at h
    obtain ⟨e, he, -⟩ := cycle_low hc others (.inl h.1) h.2.1
    exact ⟨_, Rig.step_fall hphase he⟩

end Run

/-- The word of the current pulse may still be missing: GPIO 16 has not been high for four
cycles. -/
def Rig.Waiting (s : Rig) : Prop :=
  ∃ latency n, s.phase = .pulse latency n ∧ n < latency + 4

/-- One word for each pulse, in order; the last one may still be missing while the rig waits. -/
theorem Inv.words {s : Rig} (h : Inv s) :
    s.pushed.map measured <+: s.pulses.map roundUp ∧ s.pulses.length ≤ s.pushed.length + 1 ∧
      (¬ s.Waiting → s.pushed.length = s.pulses.length) := by
  have hsame : s.pushed.map measured = s.pulses.map roundUp →
      s.pushed.map measured <+: s.pulses.map roundUp ∧ s.pulses.length ≤ s.pushed.length + 1 ∧
        (¬ s.Waiting → s.pushed.length = s.pulses.length) := by
    intro hall
    have hlen : s.pushed.length = s.pulses.length := by
      rw [← List.length_map measured, hall, List.length_map]
    exact ⟨hall ▸ List.prefix_refl _, by omega, fun _ => hlen⟩
  cases hphase : s.phase with
  | idle =>
    simp only [Inv, hphase] at h
    exact hsame (by rw [Rig.pushed, h.2.1, List.append_nil, h.2.2])
  | popped =>
    simp only [Inv, hphase] at h
    exact hsame (by rw [Rig.pushed, h.2.1, List.append_nil, h.2.2])
  | pulse latency n =>
    simp only [Inv, hphase] at h
    obtain ⟨hlo, hhi, ht, before, hpulses, hall⟩ := h
    rcases ht.rx_eq hlo with ⟨hrx, hn⟩ | ⟨-, hrx⟩
    · have hlen : s.popped.length = before.length := by
        rw [← List.length_map measured, hall, List.length_map]
      rw [Rig.pushed, hrx, List.append_nil, hall, hpulses, List.map_append, List.length_append,
        List.length_singleton]
      exact ⟨List.prefix_append _ _, by omega, fun h => absurd ⟨latency, n, hphase, hn⟩ h⟩
    · refine hsame ?_
      rw [Rig.pushed, hrx, List.map_append, hall, hpulses, List.map_append, List.map_singleton,
        List.map_singleton, measured_xAfter hlo hhi]

/-! ### The firmware's setup -/

section Setup

variable (m : StateMachine)

/-- The calls of `prepare`. -/
def preparation (prog : Asm) : List Method :=
  [.load prog, .setClkdiv 1 0, .setJmpPin pinC, .enable]

theorem prepare_eq (prog : Asm) :
    prepare m prog = Prog.forEach (Method.run m) (preparation prog) := by
  have henable : m.enable.bind (fun _ => Prog.ret ()) = m.enable := Prog.bind_ret _
  change _ = (m.load prog).bind fun _ => (m.setClkdiv 1 0).bind fun _ =>
    (m.setJmpPin pinC).bind fun _ => m.enable.bind fun _ => Prog.ret ()
  rw [henable]
  rfl

/-- What `prepare` leaves in EXECCTRL. -/
theorem lastWriter_preparation (e : ExecCtrl) {a : Asm} (hlen : a.len = 7) :
    (e.lastWriter (preparation a)).wrap = ⟨6, 0⟩ ∧
      (e.lastWriter (preparation a)).jmpPin = 16 := by
  constructor
  · change (⟨BitVec.ofInt 5 ((a.len : ℤ) - 1), 0⟩ : Wrap) = _
    rw [hlen]
    rfl
  · rfl

variable [ShiftModel]

/-- `prepare` sets the registers up for the measurement. -/
theorem ready_of_prepare {a : Asm} (ha : referenceProgram = some a) {r r' : Regs}
    (hauto : (r (m.block.reg (.shiftctrl m.sm))).getLsbD 16 = false)
    (h : Exec m.hw.access (prepare m a) r () r') : Ready (Setup.read m r') := by
  obtain ⟨hlen, hcode⟩ := referenceProgram_code ha
  rw [prepare_eq] at h
  rw [Method.exec_forEach_run] at h
  have hexec : ExecCtrl.read (r' (m.block.reg (.execctrl m.sm)))
      = (ExecCtrl.read (r (m.block.reg (.execctrl m.sm)))).lastWriter (preparation a) := by
    rw [h, Method.read_execctrl_foldl]
  rw [preparation, List.foldl_cons, List.foldl_cons, List.foldl_cons,
    List.foldl_cons, List.foldl_nil] at h
  -- after `load`, the methods write only registers of their own
  have hload : ∀ reg, reg ≠ .clkdiv m.sm → reg ≠ .execctrl m.sm → reg ≠ .ctrl →
      r' (m.block.reg reg) = (Method.load a).effect m r (m.block.reg reg) := by
    intro reg hclk hexe hctrl
    refine (congrFun h _).trans ((Method.effect_of_writes m ?_).trans
      ((Method.effect_of_writes m ?_).trans (Method.effect_of_writes m ?_)))
    · simpa [Method.writes] using hctrl
    · simpa [Method.writes] using hexe
    · simpa [Method.writes] using hclk
  refine ⟨fun k => ?_, ?_, ?_, ?_⟩
  · have hk : (BitVec.ofNat 5 k).toNat = k := by
      rw [BitVec.toNat_ofNat]
      omega
    have hmem : m.memory r' (BitVec.ofNat 5 k)
        = m.memory ((Method.load a).effect m r) (BitVec.ofNat 5 k) := by
      rw [StateMachine.memory, hload _ (by simp) (by simp) (by simp), StateMachine.memory]
    refine (hcode k k.isLt).symm.trans ?_
    change _ = some (m.memory r' _)
    rw [hmem, ← m.memory_load a r (by omega), hk]
  · exact (congrArg ExecCtrl.wrap hexec).trans (lastWriter_preparation _ hlen).1
  · exact (congrArg ExecCtrl.jmpPin hexec).trans (lastWriter_preparation _ hlen).2
  · change (r' (m.block.reg (.shiftctrl m.sm))).getLsbD 16 = false
    rw [hload _ (by simp) (by simp) (by simp), Method.effect_of_writes m (by simp [Method.writes]),
      hauto]

/-- **The measurement is exact up to its step.** On a state machine that the firmware has set up
with the reference program, in every run of the rig from address 0 and an empty FIFO: the words
pushed give the latencies of the pulses, in order and each one rounded up to an even number; there
is one for each pulse, but that of a pulse whose GPIO 16 has been high for less than four cycles
may still be missing; and the run can always go on. -/
theorem measurement_exact {a : Asm} (ha : referenceProgram = some a) {r r' : Regs}
    (hauto : (r (m.block.reg (.shiftctrl m.sm))).getLsbD 16 = false)
    (hprep : Exec m.hw.access (prepare m a) r () r') {e : Engine} (hpc : e.core.pc = 0)
    (hrx : e.rx = []) {s : Rig}
    (hs : Relation.ReflTransGen (Rig.Step (Setup.read m r')) ⟨e, .idle, [], []⟩ s) :
    s.pushed.map measured <+: s.pulses.map roundUp ∧ s.pulses.length ≤ s.pushed.length + 1 ∧
      (¬ s.Waiting → s.pushed.length = s.pulses.length) ∧
      ∃ s', s.Step (Setup.read m r') s' := by
  have hready := ready_of_prepare m ha hauto hprep
  have hinv : Inv s := by
    induction hs with
    | refl => exact ⟨.inl hpc, hrx, rfl⟩
    | tail _ hstep ih => exact ih.step hready hstep
  obtain ⟨hwords, hle, hall⟩ := hinv.words
  exact ⟨hwords, hle, hall, hinv.progress hready⟩

end Setup

/-! ### Pulses of any latency -/

section Pulse

variable {c : Setup} (hc : Ready c)

include hc

/-- The pins can stay high for any number of cycles. -/
theorem exists_hold {latency n : ℕ} (k : ℕ) {s : Rig} (h : Inv s)
    (hphase : s.phase = .pulse latency n) :
    ∃ s', Relation.ReflTransGen (Rig.Step c) s s' ∧ Inv s' ∧ s'.phase = .pulse latency (n + k) ∧
      s'.pulses = s.pulses := by
  induction k with
  | zero => exact ⟨s, .refl, h, hphase, rfl⟩
  | succ k ih =>
    obtain ⟨s₁, hs₁, hinv, hphase₁, hpulses⟩ := ih
    have hinv' := hinv
    simp only [Inv, hphase₁] at hinv'
    obtain ⟨hlo, hhi, ht, -⟩ := hinv'
    obtain ⟨e, he, -⟩ := ht.cycle hc (fun _ => false) hlo hhi
    have hstep := Rig.step_hold hphase₁ he
    exact ⟨_, hs₁.tail hstep, hinv.step hc hstep, rfl, hpulses⟩

/-- Every latency can be measured. -/
theorem exists_pulse {latency : ℕ} (hlo : 1 ≤ latency) (hhi : latency ≤ 2 ^ 32 - 2) {s : Rig}
    (h : Inv s) (hphase : s.phase = .idle) :
    ∃ s', Relation.ReflTransGen (Rig.Step c) s s' ∧ s'.phase = .idle ∧
      s'.pulses = s.pulses ++ [latency] := by
  let others : BitVec 5 → Bool := fun _ => false
  -- a cycle with both pins low arms the engine
  have hidle := h
  simp only [Inv, hphase] at hidle
  obtain ⟨e₁, he₁, hpc₁, -⟩ := cycle_low hc others hidle.1 hidle.2.1
  have hlow := Rig.step_low hphase he₁
  -- GPIO 15 rises, and both pins are held until the word is there
  obtain ⟨e₂, he₂⟩ : ∃ e₂, e₁.cycle c (sampled others true false) = some e₂ :=
    ⟨_, cycle_wait (hc.decode_eq 1 hpc₁ rfl)⟩
  have hrise : Rig.Step c { s with engine := e₁, phase := .idle }
      ⟨e₂, .pulse latency 1, s.pulses ++ [latency], s.popped⟩ :=
    ⟨others, .rise latency, (if_pos ⟨rfl, hpc₁, hlo, hhi⟩).trans
      (Rig.cycle_eq (s := ⟨e₁, .idle, s.pulses ++ [latency], s.popped⟩) _ he₂)⟩
  obtain ⟨s₃, hhold, hinv, hphase₃, hpulses⟩ :=
    exists_hold hc (latency + 3) ((h.step hc hlow).step hc hrise) rfl
  simp only [Inv, hphase₃] at hinv
  rcases hinv.2.2.1.rx_eq hlo with ⟨-, hn⟩ | ⟨hpc₃, hrx⟩
  · omega
  -- the core pops the word and lowers the pins
  let s₄ : Rig := ⟨⟨s₃.engine.core, s₃.engine.isr, []⟩, .popped, s₃.pulses,
    s₃.popped ++ [xAfter (count latency)]⟩
  have hpop : s₃.Step c s₄ := by
    refine ⟨others, .pop, ?_⟩
    rw [Rig.step, hphase₃, hrx]
  obtain ⟨e₅, he₅, -⟩ := cycle_low hc others (e := s₄.engine) (.inl hpc₃) rfl
  have hfall := Rig.step_fall (s := s₄) rfl he₅
  exact ⟨_, ((Relation.ReflTransGen.head hlow (.head hrise hhold)).tail hpop).tail hfall, rfl,
    hpulses⟩

end Pulse

/-- A pulse of three cycles gives the word for four. -/
theorem measurement_exact_threeCycles :
    letI : ShiftModel := ⟨fun _ _ => 0⟩
    let m : StateMachine := ⟨.pio0, 0⟩
    let e : Engine := ⟨⟨0, 0, 0⟩, 0, []⟩
    ∃ a r' s, referenceProgram = some a ∧ Exec m.hw.access (prepare m a) (fun _ => 0) () r' ∧
      Relation.ReflTransGen (Rig.Step (Setup.read m r')) ⟨e, .idle, [], []⟩ s ∧
      s.pulses = [3] ∧ s.pushed.map measured = [4] := by
  let shift : ShiftModel := ⟨fun _ _ => 0⟩
  let m : StateMachine := ⟨.pio0, 0⟩
  obtain ⟨a, ha, -⟩ := exists_referenceProgram
  have hprep : Exec m.hw.access (prepare m a) (fun _ => 0) ()
      ((preparation a).foldl (fun s op => op.effect m s) fun _ => 0) := by
    rw [prepare_eq]
    exact (Method.exec_forEach_run m).mpr rfl
  have hready := ready_of_prepare m ha rfl hprep
  have hstart : Inv ⟨⟨⟨0, 0, 0⟩, 0, []⟩, .idle, [], []⟩ := ⟨.inl rfl, rfl, rfl⟩
  obtain ⟨s, hs, hphase, hpulses⟩ := exists_pulse hready (by decide : 1 ≤ 3) (by decide) hstart rfl
  obtain ⟨hwords, -, hall, -⟩ := measurement_exact m ha rfl hprep rfl rfl hs
  refine ⟨a, _, s, ha, hprep, hs, hpulses, ?_⟩
  have hlen := hall fun ⟨_, _, h, _⟩ => by cases hphase.symm.trans h
  have heq := hwords.eq_of_length (by rw [List.length_map, List.length_map, hlen])
  rw [heq, hpulses]
  rfl

end Pio.Latency
