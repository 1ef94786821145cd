import Inmojomni.Chips
import Inmojomni.Multicore.Timeouts
import Inmojomni.Rounding

/-!
# The UART driver

`uart.init` sets the baud rate of the PL011 by a divisor in 1/64, with 16 samples to a bit: the
whole part goes to IBRD and the fraction to FBRD. It adds half of the divisor before it divides, so
what is written is the best divisor there is (`init_writes_nearest`).
-/

namespace Uart

open Mmio Effect Multicore

/-- clk_sys = XOSC, no PLL -/
def clkPeriHz : Word := 12000000#32

/-- Generic clock ENABLE bit. -/
def clkEnable : Word := 1#32 <<< 11

def lcrFen : Word := 1#32 <<< 4

def lcrWlen8 : Word := 3#32 <<< 5

def crUarten : Word := 1#32 <<< 0

def crTxe : Word := 1#32 <<< 8

def crRxe : Word := 1#32 <<< 9

/-! Register offsets. -/

def ibrd : Word := 0x24

def fbrd : Word := 0x28

def lcrH : Word := 0x2C

def cr : Word := 0x30

/-- 16.6 fixed-point divisor, rounded to the nearest 1/64. -/
def div64 (baud : Word) : BitVec 64 :=
  (clkPeriHz.setWidth 64 * 64#64 + 8#64 * baud.setWidth 64) / (16#64 * baud.setWidth 64)

/-- 8N1 at `baud`, FIFOs on, TX+RX enabled. -/
def init (C : Chip) (baud : Word) : Firmware Unit := do
  write32 (C.clocksBase + 0x48) clkEnable
  write32Clr C.resetsReset C.resetUart0
  let _ ← Prog.poll (Op.read32 C.resetsResetDone) fun (r : Word) => decide (r &&& C.resetUart0 ≠ 0)
  write32 (C.uart0Base + ibrd) ((div64 baud >>> 6).setWidth 32)
  write32 (C.uart0Base + fbrd) ((div64 baud &&& 0x3F#64).setWidth 32)
  -- the write to LCR_H latches the divisor
  write32 (C.uart0Base + lcrH) (lcrWlen8 ||| lcrFen)
  write32 (C.uart0Base + cr) (crUarten ||| crTxe ||| crRxe)

/-- What `init` stores, in order. -/
def initStores (C : Chip) (whole fraction : Word) : List (Word × Word) :=
  [(C.clocksBase + 0x48, clkEnable), (C.resetsReset + clrAlias, C.resetUart0),
    (C.uart0Base + ibrd, whole), (C.uart0Base + fbrd, fraction),
    (C.uart0Base + lcrH, lcrWlen8 ||| lcrFen), (C.uart0Base + cr, crUarten ||| crTxe ||| crRxe)]

variable {C : Chip} {baud : Word} {σ : Type} {access : (e : Op) → σ → e.Answer → σ → Prop}
  {s s' : σ} {tr : List (Answered Op.Answer)}

/-! ### The divisor -/

/-- Nothing overflows on the way to the divisor. -/
structure Exact (baud : Word) : Prop where
  clock : (clkPeriHz.setWidth 64 * 64#64).toNat = 12000000 * 64
  half : (8#64 * baud.setWidth 64).toNat = 8 * baud.toNat
  sum : (clkPeriHz.setWidth 64 * 64#64 + 8#64 * baud.setWidth 64).toNat =
    12000000 * 64 + 8 * baud.toNat
  divisor : (16#64 * baud.setWidth 64).toNat = 16 * baud.toNat

theorem exact_div64 (baud : Word) : Exact baud := by
  have hlt := baud.isLt
  constructor
  · rfl
  · rw [BitVec.toNat_mul, BitVec.toNat_setWidth, BitVec.toNat_ofNat]
    omega
  · rw [BitVec.toNat_add, BitVec.toNat_mul, BitVec.toNat_mul, BitVec.toNat_setWidth,
      BitVec.toNat_setWidth]
    change (12000000 * 64 % 2 ^ 64 + 8 * (baud.toNat % 2 ^ 64) % 2 ^ 64) % 2 ^ 64 = _
    omega
  · rw [BitVec.toNat_mul, BitVec.toNat_setWidth, BitVec.toNat_ofNat]
    omega

/-- The divisor is the clock over 16 times the rate, in 1/64 and rounded. -/
theorem toNat_div64 (baud : Word) :
    (div64 baud).toNat = Rounding.halfUp (64 * 12000000) (16 * baud.toNat) := by
  obtain ⟨-, -, hsum, hdiv⟩ := exact_div64 baud
  have hhalf : 16 * baud.toNat / 2 = 8 * baud.toNat := by omega
  rw [div64, BitVec.toNat_udiv, hsum, hdiv, ← Rounding.add_half_div, hhalf, Nat.mul_comm]

theorem div64_bounds (hlo : 12 ≤ baud.toNat) (hhi : baud.toNat ≤ 750000) :
    64 ≤ (div64 baud).toNat ∧ (div64 baud).toNat ≤ 4000000 := by
  obtain ⟨-, -, hsum, hdiv⟩ := exact_div64 baud
  rw [div64, BitVec.toNat_udiv, hsum, hdiv]
  constructor
  · rw [Nat.le_div_iff_mul_le (by omega)]
    omega
  · rw [Nat.div_le_iff_le_mul_add_pred (by omega)]
    omega

/-! ### What is written -/

/-- A polling loop stores nothing. -/
theorem stores_poll {addr : Word} {done : Word → Bool} {r : Word}
    (h : Traced access (Prog.poll (Op.read32 addr) done) s r s' tr) : stores tr = [] := by
  refine Traced.loop_inv (I := fun _ _ l => stores l = []) (J := fun _ _ l => stores l = []) ?_ rfl h
  intro _ s l r s' tr hl hround
  obtain ⟨v, t, tr', -, hret, rfl⟩ := traced_op.mp hround
  obtain ⟨rfl, rfl, rfl⟩ := traced_ret.mp hret
  have hnone : stores (l ++ [⟨.read32 addr, v⟩]) = [] := by
    rw [stores_append, hl]
    rfl
  split_ifs <;> exact hnone

theorem stores_init {u : Unit} (h : Traced access (init C baud) s u s' tr) :
    stores tr = initStores C ((div64 baud >>> 6).setWidth 32)
      ((div64 baud &&& 0x3F#64).setWidth 32) := by
  obtain ⟨_, _, _, _, h₁, rest₁, rfl⟩ := traced_bind.mp h
  obtain ⟨_, _, _, _, h₂, rest₂, rfl⟩ := traced_bind.mp rest₁
  obtain ⟨_, _, _, _, hpoll, rest₃, rfl⟩ := traced_bind.mp rest₂
  obtain ⟨_, _, _, _, h₃, rest₄, rfl⟩ := traced_bind.mp rest₃
  obtain ⟨_, _, _, _, h₄, rest₅, rfl⟩ := traced_bind.mp rest₄
  obtain ⟨_, _, _, _, h₅, h₆, rfl⟩ := traced_bind.mp rest₅
  obtain ⟨-, rfl⟩ := traced_call.mp h₁
  obtain ⟨-, rfl⟩ := traced_call.mp h₂
  obtain ⟨-, rfl⟩ := traced_call.mp h₃
  obtain ⟨-, rfl⟩ := traced_call.mp h₄
  obtain ⟨-, rfl⟩ := traced_call.mp h₅
  obtain ⟨-, rfl⟩ := traced_call.mp h₆
  simp only [stores_append, stores_poll hpoll]
  rfl

/-- A bus on which the UART comes out of reset after some polls. -/
def resetting (C : Chip) : (e : Op) → ℕ → e.Answer → ℕ → Prop
  | .read32 _, n, (r : Word), n' => r = (if n = 0 then C.resetUart0 else 0#32) ∧ n' = n - 1
  | _, n, _, n' => n' = n

theorem exec_poll (C : Chip) (n : ℕ) :
    Exec (resetting C) (Prog.poll (Op.read32 C.resetsResetDone) fun (r : Word) =>
      decide (r &&& C.resetUart0 ≠ 0)) n C.resetUart0 0 := by
  have hdone : decide (C.resetUart0 &&& C.resetUart0 ≠ 0) = true := by
    cases C with
    | rp2040 | rp2350 => rfl
  induction n with
  | zero =>
    have hread : resetting C (.read32 C.resetsResetDone) 0 C.resetUart0 0 := ⟨rfl, rfl⟩
    refine .iter (.op hread ?_)
    rw [Prog.ret_bind, if_pos hdone]
    exact .ret _ _
  | succ n ih =>
    have hread : resetting C (.read32 C.resetsResetDone) (n + 1) 0#32 n := ⟨rfl, rfl⟩
    have hagain : decide (0#32 &&& C.resetUart0 ≠ 0) ≠ true := by
      rw [BitVec.zero_and]
      decide
    refine .iter (.op hread ?_)
    rw [Prog.ret_bind, if_neg hagain]
    exact ih

/-- `init` gets through when the UART does. -/
theorem exists_traced_init (C : Chip) (baud : Word) (n : ℕ) :
    ∃ n' tr, Traced (resetting C) (init C baud) n () n' tr := by
  have hwrite : ∀ n (addr v : Word), Exec (resetting C) (write32 addr v) n () n := fun n addr v =>
    .op (r := ()) rfl (.ret _ _)
  refine ⟨0, Exec.traced ?_⟩
  refine exec_bind.mpr ⟨(), n, hwrite n _ _, exec_bind.mpr ⟨(), n, hwrite n _ _, ?_⟩⟩
  refine exec_bind.mpr ⟨_, 0, exec_poll C n, exec_bind.mpr ⟨(), 0, hwrite 0 _ _, ?_⟩⟩
  exact exec_bind.mpr ⟨(), 0, hwrite 0 _ _, exec_bind.mpr ⟨(), 0, hwrite 0 _ _, hwrite 0 _ _⟩⟩

/-- The whole part of a divisor in 64ths. -/
theorem toNat_whole {x : BitVec 64} (h : x.toNat < 2 ^ 38) :
    ((x >>> 6).setWidth 32 : Word).toNat = x.toNat / 64 := by
  rw [BitVec.toNat_setWidth, BitVec.toNat_ushiftRight, Nat.shiftRight_eq_div_pow]
  omega

theorem toNat_fraction (x : BitVec 64) :
    ((x &&& 0x3F#64).setWidth 32 : Word).toNat = x.toNat % 64 := by
  have hmask : x.toNat &&& 63 = x.toNat % 64 := Nat.and_two_pow_sub_one_eq_mod _ 6
  rw [BitVec.toNat_setWidth, BitVec.toNat_and]
  change (x.toNat &&& 63) % 2 ^ 32 = _
  omega

/-- **The divisor.** What `init` writes to IBRD and FBRD, on any bus, fits there, is computed
without overflow, and no other integer comes closer. -/
theorem init_writes_nearest (C : Chip) (baud : Word) (hlo : 12 ≤ baud.toNat)
    (hhi : baud.toNat ≤ 750000) : ∃ whole fraction : Word,
    (1 ≤ whole.toNat ∧ whole.toNat ≤ 65535) ∧ fraction.toNat ≤ 63 ∧
    (∀ e : ℤ, |(16 * baud.toNat * (64 * whole.toNat + fraction.toNat) - 64 * 12000000 : ℤ)| ≤
      |(16 * baud.toNat * e - 64 * 12000000 : ℤ)|) ∧
    Exact baud ∧
    (∀ {σ : Type} (access : (e : Op) → σ → e.Answer → σ → Prop) (s s' : σ) (u : Unit)
      (tr : List (Answered Op.Answer)), Traced access (init C baud) s u s' tr →
        stores tr = initStores C whole fraction) ∧
    ∀ n, ∃ n' tr, Traced (resetting C) (init C baud) n () n' tr := by
  obtain ⟨hmin, hmax⟩ := div64_bounds hlo hhi
  have hwhole := toNat_whole (x := div64 baud) (by omega)
  have hfraction := toNat_fraction (div64 baud)
  have hsum : (64 * ((div64 baud).toNat / 64 : ℕ) + ((div64 baud).toNat % 64 : ℕ) : ℤ) =
      Rounding.halfUp (64 * 12000000) (16 * baud.toNat) := by
    rw [← toNat_div64]
    omega
  refine ⟨(div64 baud >>> 6).setWidth 32, (div64 baud &&& 0x3F#64).setWidth 32, ?_, ?_,
    fun e => ?_, exact_div64 baud, fun access s s' u tr h => stores_init h,
    exists_traced_init C baud⟩
  · rw [hwhole]
    omega
  · rw [hfraction]
    omega
  · have hnearest := Rounding.halfUp_nearest (a := 64 * 12000000) (b := 16 * baud.toNat)
      (by omega) e
    rw [hwhole, hfraction, hsum]
    push_cast at hnearest ⊢
    exact hnearest

theorem init_writes_nearest_115200 : ∃ whole fraction : Word,
    (1 ≤ whole.toNat ∧ whole.toNat ≤ 65535) ∧ fraction.toNat ≤ 63 ∧
    (∀ e : ℤ, |(16 * (115200#32).toNat * (64 * whole.toNat + fraction.toNat) -
      64 * 12000000 : ℤ)| ≤ |(16 * (115200#32).toNat * e - 64 * 12000000 : ℤ)|) ∧
    Exact 115200#32 ∧
    (∀ {σ : Type} (access : (e : Op) → σ → e.Answer → σ → Prop) (s s' : σ) (u : Unit)
      (tr : List (Answered Op.Answer)), Traced access (init .rp2040 115200#32) s u s' tr →
        stores tr = initStores .rp2040 whole fraction) ∧
    ∀ n, ∃ n' tr, Traced (resetting .rp2040) (init .rp2040 115200#32) n () n' tr :=
  init_writes_nearest .rp2040 115200#32 (by decide) (by decide)

end Uart
