import Inmojomni.Effect.Trace
import Inmojomni.Time
import Mathlib.Algebra.Order.Field.Basic
import Mathlib.Algebra.Order.Ring.Rat
import Mathlib.Data.NNRat.Floor

/-!
# Timeouts on the FIFO

`fifo_push` and `fifo_pop` poll the status of the FIFO and give up when more ticks have gone by than
the timeout is worth. The ticks are the microseconds of the timer on the RP2040 and the cycles of
`mcycle` on the RP2350, of which there are at most 16 in a microsecond (`TickSource`). Time is
dense, so an access may take place at any moment of a tick.

The difference of two readings is never more than the ticks that have really gone by, and the
comparison is strict, so a call that gives up has waited for its whole budget
(`traced_fifoWait`). The budget is the timeout if its number of ticks fits in a word, and less
otherwise (`timeouts_kept_iff`).
-/

namespace Multicore

open Mmio Effect

/-- Ticks in a microsecond, at most. -/
def ticksPerUs (C : Chip) : ℕ := if C.isRiscv then 16 else 1

/-- The ticks until each moment, in microseconds. There are never more of them than the rate says;
the timer of the RP2040 has exactly one each microsecond. -/
structure TickSource (C : Chip) where
  count : ℚ≥0 → ℕ
  mono : Monotone count
  rate : ∀ t d, (count (t + d) : ℚ≥0) < count t + ticksPerUs C * d + 1
  exact : C.isRiscv = false → ∀ t d, (count t : ℚ≥0) + d < count (t + d) + 1

/-- An access takes place some time after the one before, and a reading of the ticks is the low word
of what they are then. Nothing is said about what the FIFO answers. -/
def TickSource.access {C : Chip} (src : TickSource C) :
    (e : Op) → ℚ≥0 → e.Answer → ℚ≥0 → Prop
  | .external .readMcycle, t, (r : Word), t' => t ≤ t' ∧
    (C.isRiscv = true → r = BitVec.ofNat 32 (src.count t'))
  | .read32 addr, t, (r : Word), t' => t ≤ t' ∧
    (C.isRiscv = false → addr = Chip.rp2040.timerBase + 0x28#32 →
      r = BitVec.ofNat 32 (src.count t'))
  | _, t, _, t' => t ≤ t'

/-! ### What a call does on the bus -/

/-- The words that were read at `addr`. -/
def loads (addr : Word) (tr : List (Answered Op.Answer)) : List Word :=
  tr.filterMap fun
    | ⟨.read32 a, r⟩ => if a = addr then some r else none
    | _ => none

/-- The words that were written, with their addresses. -/
def stores (tr : List (Answered Op.Answer)) : List (Word × Word) :=
  tr.filterMap fun
    | ⟨.write32 a v, _⟩ => some (a, v)
    | _ => none

/-- What `fifo_push` promises: it gives up only after the timeout, when no status it has read showed
room, and otherwise the word is written once. -/
def PushKept (C : Chip) (v timeoutUs : Word) : Prop :=
  ∀ (src : TickSource C) t ok t' tr, Traced src.access (fifoPush C v timeoutUs) t ok t' tr →
    (ok = false → t + timeoutUs.toNat ≤ t' ∧ (∀ st ∈ loads C.sioFifoSt tr, st &&& stRdy = 0#32) ∧
      stores tr = []) ∧
    (ok = true → stores tr = [(C.sioFifoWr, v)])

/-- What `fifo_pop` promises: it gives up only after the timeout, when no status it has read showed
data, and otherwise the answer is the one word that was read. -/
def PopKept (C : Chip) (timeoutUs : Word) : Prop :=
  ∀ (src : TickSource C) t r t' tr, Traced src.access (fifoPop C timeoutUs) t r t' tr →
    (r.1 = false → r.2 = 0#32 ∧ t + timeoutUs.toNat ≤ t' ∧
      (∀ st ∈ loads C.sioFifoSt tr, st &&& stVld = 0#32) ∧ loads C.sioFifoRd tr = []) ∧
    (r.1 = true → loads C.sioFifoRd tr = [r.2])

variable {C : Chip} {timeoutUs : Word}

/-! ### Ticks -/

section Ticks

variable {src : TickSource C}

/-- As many ticks as two readings differ by take their time. -/
theorem TickSource.lt_of_elapsed {n : ℕ} {t d : ℚ≥0}
    (h : n < (BitVec.ofNat 32 (src.count (t + d)) - BitVec.ofNat 32 (src.count t)).toNat) :
    (n : ℚ≥0) < ticksPerUs C * d := by
  have hle := Time.toNat_elapsed_le (w := 32) (src.mono (le_self_add : t ≤ t + d))
  have hcount : src.count t + n + 1 ≤ src.count (t + d) := by omega
  have hcast : (src.count t : ℚ≥0) + n + 1 ≤ src.count (t + d) := by exact_mod_cast hcount
  have hrate := hcast.trans_lt (src.rate t d)
  exact lt_of_add_lt_add_left (lt_of_add_lt_add_right hrate)

theorem traced_ticks {t t' : ℚ≥0} {r : Word} {tr : List (Answered Op.Answer)}
    (h : Traced src.access (ticks C) t r t' tr) :
    t ≤ t' ∧ r = BitVec.ofNat 32 (src.count t') ∧
      loads C.sioFifoSt tr = [] ∧ loads C.sioFifoRd tr = [] ∧ stores tr = [] := by
  cases C with
  | rp2040 =>
    obtain ⟨⟨hle, hr⟩, rfl⟩ := traced_call.mp h
    exact ⟨hle, hr rfl rfl, rfl, rfl, rfl⟩
  | rp2350 =>
    obtain ⟨⟨hle, hr⟩, rfl⟩ := traced_call.mp h
    exact ⟨hle, hr rfl, rfl, rfl, rfl⟩

end Ticks

/-! ### Waiting -/

section Wait

variable {src : TickSource C} {bit : Word} {t t' : ℚ≥0} {ok : Bool}
  {tr tr' : List (Answered Op.Answer)}

@[simp] theorem loads_append {addr : Word} :
    loads addr (tr ++ tr') = loads addr tr ++ loads addr tr' :=
  List.filterMap_append

@[simp] theorem stores_append : stores (tr ++ tr') = stores tr ++ stores tr' := List.filterMap_append

/-- Neither end of the FIFO has been touched. -/
def Untouched (C : Chip) (tr : List (Answered Op.Answer)) : Prop :=
  loads C.sioFifoRd tr = [] ∧ stores tr = []

/-- No status that was read has the bit set. -/
def Blocked (C : Chip) (bit : Word) (tr : List (Answered Op.Answer)) : Prop :=
  ∀ st ∈ loads C.sioFifoSt tr, st &&& bit = 0#32

theorem Untouched.append (h : Untouched C tr) (h' : Untouched C tr') : Untouched C (tr ++ tr') := by
  rw [Untouched, loads_append, stores_append, h.1, h.2]
  exact h'

theorem Blocked.append (h : Blocked C bit tr) (h' : Blocked C bit tr') :
    Blocked C bit (tr ++ tr') := by
  intro st hst
  rw [loads_append] at hst
  exact (List.mem_append.mp hst).elim (h st) (h' st)

theorem traced_status {st : Word} :
    Traced src.access (read32 C.sioFifoSt) t st t' tr → t ≤ t' ∧ tr = [⟨.read32 C.sioFifoSt, st⟩] :=
  fun h => ⟨(traced_call.mp h).1.1, (traced_call.mp h).2⟩

theorem loads_status (C : Chip) (st : Word) :
    loads C.sioFifoSt [⟨.read32 C.sioFifoSt, st⟩] = [st] ∧
      Untouched C [⟨.read32 C.sioFifoSt, st⟩] := by
  cases C with
  | rp2040 => exact ⟨rfl, rfl, rfl⟩
  | rp2350 => exact ⟨rfl, rfl, rfl⟩

/-- More ticks than the budget have passed. -/
def Spent (C : Chip) (timeoutUs : Word) (t t' : ℚ≥0) : Prop :=
  ((toTicks C timeoutUs).toNat : ℚ≥0) + ticksPerUs C * t < ticksPerUs C * t'

theorem Spent.of_le {t₁ : ℚ≥0} (h : Spent C timeoutUs t₁ t') (hle : t ≤ t₁) :
    Spent C timeoutUs t t' := by
  refine lt_of_le_of_lt ?_ h
  gcongr

/-- One round of the loop in `fifo_wait`, begun at `t₀`. -/
theorem traced_waitRound {t₀ : ℚ≥0} {r : Unit ⊕ Bool} (ht : t₀ ≤ t)
    (h : Traced src.access (do
      let st ← read32 C.sioFifoSt
      if st &&& bit = 0#32 then do
        let now ← ticks C
        if now - BitVec.ofNat 32 (src.count t₀) > toTicks C timeoutUs then return .inr false
        else return .inl ()
      else
        return .inr true) t r t' tr) :
    t₀ ≤ t' ∧ Untouched C tr ∧ (r ≠ .inr true → Blocked C bit tr) ∧
      (r = .inr false → Spent C timeoutUs t₀ t') := by
  obtain ⟨st, t₁, tr₁, tr₂, hst, hrest, rfl⟩ := traced_bind.mp h
  obtain ⟨ht₁, rfl⟩ := traced_status hst
  obtain ⟨hloads, hstatus⟩ := loads_status C st
  split at hrest
  · next hzero =>
    have hclear : Blocked C bit [⟨.read32 C.sioFifoSt, st⟩] := fun x hx => by
      rw [hloads] at hx
      rw [List.mem_singleton.mp hx]
      exact hzero
    obtain ⟨now, t₂, tr₃, tr₄, hnow, hexit, rfl⟩ := traced_bind.mp hrest
    obtain ⟨ht₂, rfl, hst₃, hrd₃, hw₃⟩ := traced_ticks hnow
    have hblocked₃ : Blocked C bit tr₃ := fun x hx => absurd hx (hst₃ ▸ List.not_mem_nil)
    have hle : t₀ ≤ t₂ := (ht.trans ht₁).trans ht₂
    split at hexit
    · next hspent =>
      obtain ⟨rfl, rfl, rfl⟩ := traced_ret.mp hexit
      rw [List.append_nil]
      refine ⟨hle, hstatus.append ⟨hrd₃, hw₃⟩, fun _ => hclear.append hblocked₃, fun _ => ?_⟩
      obtain ⟨d, rfl⟩ := exists_add_of_le hle
      have helapsed := src.lt_of_elapsed (BitVec.lt_def.mp hspent)
      rw [Spent, mul_add, add_comm]
      exact add_lt_add_right helapsed _
    · obtain ⟨rfl, rfl, rfl⟩ := traced_ret.mp hexit
      rw [List.append_nil]
      exact ⟨hle, hstatus.append ⟨hrd₃, hw₃⟩, fun _ => hclear.append hblocked₃, nofun⟩
  · obtain ⟨rfl, rfl, rfl⟩ := traced_ret.mp hrest
    rw [List.append_nil]
    exact ⟨ht.trans ht₁, hstatus, fun hne => absurd rfl hne, nofun⟩

/-- **Waiting.** It leaves the FIFO alone, and gives up only if the bit has never been set, after
more ticks than the budget. -/
theorem traced_fifoWait (h : Traced src.access (fifoWait C bit timeoutUs) t ok t' tr) :
    t ≤ t' ∧ Untouched C tr ∧ (ok = false → Blocked C bit tr ∧ Spent C timeoutUs t t') := by
  obtain ⟨start, t₀, tr₀, tr₁, hstart, hloop, rfl⟩ := traced_bind.mp h
  obtain ⟨hle, rfl, hst₀, hrd₀, hw₀⟩ := traced_ticks hstart
  have hblocked₀ : Blocked C bit tr₀ := fun st hst => absurd hst (hst₀ ▸ List.not_mem_nil)
  -- the time goes on, and the bit has not been set while the loop goes on
  have hinv : t₀ ≤ t' ∧ Untouched C tr₁ ∧
      (ok = false → Blocked C bit tr₁ ∧ Spent C timeoutUs t₀ t') := by
    refine Traced.loop_inv (I := fun _ s l => t₀ ≤ s ∧ Untouched C l ∧ Blocked C bit l)
      (J := fun ok s l => t₀ ≤ s ∧ Untouched C l ∧
        (ok = false → Blocked C bit l ∧ Spent C timeoutUs t₀ s)) ?_
      ⟨le_rfl, ⟨rfl, rfl⟩, fun st hst => absurd hst List.not_mem_nil⟩ hloop
    rintro _ s l r s' tr ⟨hs, huntouched, hblocked⟩ hround
    obtain ⟨hs', huntouched', hblocked', hspent⟩ := traced_waitRound hs hround
    cases r with
    | inl _ => exact ⟨hs', huntouched.append huntouched', hblocked.append (hblocked' nofun)⟩
    | inr ok =>
      refine ⟨hs', huntouched.append huntouched', fun hok => ?_⟩
      subst hok
      exact ⟨hblocked.append (hblocked' nofun), hspent rfl⟩
  obtain ⟨hle₁, huntouched, hfalse⟩ := hinv
  refine ⟨hle.trans hle₁, Untouched.append ⟨hrd₀, hw₀⟩ huntouched, fun hok => ?_⟩
  obtain ⟨hblocked, hspent⟩ := hfalse hok
  exact ⟨hblocked₀.append hblocked, hspent.of_le hle⟩

end Wait

/-! ### The calls -/

/-- The budget is the timeout, counted in ticks. -/
def TimeoutFits (C : Chip) (timeoutUs : Word) : Prop := ticksPerUs C * timeoutUs.toNat < 2 ^ 32

theorem toNat_toTicks :
    (toTicks C timeoutUs).toNat = ticksPerUs C * timeoutUs.toNat % 2 ^ 32 := by
  cases C with
  | rp2040 =>
    have hone : ticksPerUs .rp2040 * timeoutUs.toNat = timeoutUs.toNat := Nat.one_mul _
    rw [hone, Nat.mod_eq_of_lt timeoutUs.isLt]
    rfl
  | rp2350 => exact (BitVec.toNat_mul _ _).trans (by rw [Nat.mul_comm]; rfl)

/-- A call whose budget is the timeout gives up after the timeout. -/
theorem TimeoutFits.le_of_spent (hfits : TimeoutFits C timeoutUs) {t t' : ℚ≥0}
    (h : Spent C timeoutUs t t') : t + timeoutUs.toNat ≤ t' := by
  rw [Spent, toNat_toTicks, Nat.mod_eq_of_lt hfits, Nat.cast_mul, ← mul_add, add_comm] at h
  exact (lt_of_mul_lt_mul_left h (Nat.cast_nonneg _)).le

theorem TimeoutFits.pushKept (hfits : TimeoutFits C timeoutUs) (v : Word) :
    PushKept C v timeoutUs := by
  intro src t ok t' tr h
  obtain ⟨ready, s, tr₁, tr₂, hwait, hrest, rfl⟩ := traced_bind.mp h
  obtain ⟨hle, ⟨-, hstores⟩, hfalse⟩ := traced_fifoWait hwait
  cases ready with
  | false =>
    obtain ⟨rfl, rfl, rfl⟩ := traced_ret.mp hrest
    obtain ⟨hblocked, hspent⟩ := hfalse rfl
    rw [List.append_nil]
    exact ⟨fun _ => ⟨hfits.le_of_spent hspent, hblocked, hstores⟩, nofun⟩
  | true =>
    obtain ⟨_, s₁, tr₃, tr₄, hwrite, hsev, rfl⟩ := traced_bind.mp hrest
    obtain ⟨-, rfl⟩ := traced_call.mp hwrite
    obtain ⟨_, s₂, tr₅, tr₆, hcall, hret, rfl⟩ := traced_bind.mp hsev
    obtain ⟨-, rfl⟩ := traced_call.mp hcall
    obtain ⟨rfl, rfl, rfl⟩ := traced_ret.mp hret
    refine ⟨nofun, fun _ => ?_⟩
    rw [stores_append, hstores]
    rfl

theorem TimeoutFits.popKept (hfits : TimeoutFits C timeoutUs) : PopKept C timeoutUs := by
  intro src t r t' tr h
  obtain ⟨valid, s, tr₁, tr₂, hwait, hrest, rfl⟩ := traced_bind.mp h
  obtain ⟨hle, ⟨hloads, -⟩, hfalse⟩ := traced_fifoWait hwait
  cases valid with
  | false =>
    obtain ⟨rfl, rfl, rfl⟩ := traced_ret.mp hrest
    obtain ⟨hblocked, hspent⟩ := hfalse rfl
    rw [List.append_nil]
    exact ⟨fun _ => ⟨rfl, hfits.le_of_spent hspent, hblocked, hloads⟩, nofun⟩
  | true =>
    obtain ⟨v, s₁, tr₃, tr₄, hread, hret, rfl⟩ := traced_bind.mp hrest
    obtain ⟨-, rfl⟩ := traced_call.mp hread
    obtain ⟨rfl, rfl, rfl⟩ := traced_ret.mp hret
    refine ⟨nofun, fun _ => ?_⟩
    rw [loads_append, hloads, List.nil_append, List.append_nil]
    simp [loads]

/-! ### Budgets that wrap around -/

/-- Sixteen ticks in each microsecond. -/
def fullSpeed : TickSource .rp2350 where
  count t := ⌊16 * t⌋₊
  mono t t' h := Nat.floor_mono (mul_le_mul_right h 16)
  rate t d := by
    have hfloor : (⌊16 * (t + d)⌋₊ : ℚ≥0) ≤ 16 * t + 16 * d :=
      (Nat.floor_le zero_le).trans_eq (mul_add _ _ _)
    have hnext : 16 * t < ⌊16 * t⌋₊ + 1 := Nat.lt_floor_add_one _
    refine hfloor.trans_lt ((add_lt_add_left hnext _).trans_eq ?_)
    exact add_right_comm _ _ _
  exact h := nomatch h

/-- When a call with this timeout may give up at full speed. -/
def earliest (timeoutUs : Word) : ℚ≥0 := ((timeoutUs * 16#32).toNat + 1 : ℕ) / 16

theorem count_earliest : fullSpeed.count (earliest timeoutUs) = (timeoutUs * 16#32).toNat + 1 := by
  have hmul : 16 * earliest timeoutUs = ((timeoutUs * 16#32).toNat + 1 : ℕ) :=
    mul_div_cancel₀ _ (by norm_num)
  exact (congrArg Nat.floor hmul).trans (Nat.floor_natCast _)

/-- The budget is no full word, so one more tick is more than the budget. -/
theorem budget_lt :
    timeoutUs * 16#32 < BitVec.ofNat 32 (fullSpeed.count (earliest timeoutUs)) - 0#32 := by
  have hword : (timeoutUs * 16#32).toNat = timeoutUs.toNat * 16 % 2 ^ 32 := BitVec.toNat_mul _ _
  rw [BitVec.sub_zero, count_earliest, BitVec.lt_def, BitVec.toNat_ofNat,
    Nat.mod_eq_of_lt (by omega)]
  exact Nat.lt_succ_self _

/-- **Early.** At full speed a call may give up as soon as its budget is spent. -/
theorem exists_traced_fifoWait (timeoutUs bit : Word) : ∃ tr,
    Traced fullSpeed.access (fifoWait .rp2350 bit timeoutUs) 0 false (earliest timeoutUs) tr := by
  have hzero : fullSpeed.count 0 = 0 := (congrArg Nat.floor (mul_zero _)).trans Nat.floor_zero
  have hstart : fullSpeed.access (.external .readMcycle) 0 0#32 0 :=
    ⟨le_rfl, fun _ => by rw [hzero]⟩
  have hstatus : fullSpeed.access (.read32 Chip.rp2350.sioFifoSt) 0 0#32 0 :=
    ⟨le_rfl, nofun⟩
  have hnow : fullSpeed.access (.external .readMcycle) 0
      (BitVec.ofNat 32 (fullSpeed.count (earliest timeoutUs))) (earliest timeoutUs) :=
    ⟨zero_le, fun _ => rfl⟩
  have hspent : BitVec.ofNat 32 (fullSpeed.count (earliest timeoutUs)) - 0#32
      > toTicks .rp2350 timeoutUs := budget_lt
  have hround : Exec fullSpeed.access (do
      let now ← ticks .rp2350
      if now - 0#32 > toTicks .rp2350 timeoutUs then return .inr false
      else return .inl () : Firmware (Unit ⊕ Bool)) 0 (.inr false) (earliest timeoutUs) := by
    refine exec_bind.mpr ⟨_, _, .op hnow (.ret _ _), ?_⟩
    rw [if_pos hspent]
    exact .ret _ _
  refine Exec.traced (exec_bind.mpr ⟨(0#32 : Word), 0, .op hstart (.ret _ _), ?_⟩)
  refine exec_iter.mpr (exec_bind.mpr ⟨.inr false, earliest timeoutUs, ?_, .ret _ _⟩)
  refine exec_bind.mpr ⟨(0#32 : Word), 0, .op hstatus (.ret _ _), ?_⟩
  rw [if_pos BitVec.zero_and]
  exact hround

theorem exists_traced_fifoPush (timeoutUs v : Word) : ∃ tr,
    Traced fullSpeed.access (fifoPush .rp2350 v timeoutUs) 0 false (earliest timeoutUs) tr := by
  obtain ⟨tr, htr⟩ := exists_traced_fifoWait timeoutUs stRdy
  exact ⟨tr ++ [], traced_bind.mpr ⟨_, _, _, _, htr, traced_ret.mpr ⟨rfl, rfl, rfl⟩, rfl⟩⟩

theorem exists_traced_fifoPop (timeoutUs : Word) : ∃ tr,
    Traced fullSpeed.access (fifoPop .rp2350 timeoutUs) 0 (false, 0#32) (earliest timeoutUs) tr := by
  obtain ⟨tr, htr⟩ := exists_traced_fifoWait timeoutUs stVld
  exact ⟨tr ++ [], traced_bind.mpr ⟨_, _, _, _, htr, traced_ret.mpr ⟨rfl, rfl, rfl⟩, rfl⟩⟩

/-- Giving up that early is late enough only if the budget is the timeout. -/
theorem timeoutFits_of_le (h : 0 + (timeoutUs.toNat : ℚ≥0) ≤ earliest timeoutUs) :
    TimeoutFits .rp2350 timeoutUs := by
  have hword : (timeoutUs * 16#32).toNat = timeoutUs.toNat * 16 % 2 ^ 32 := BitVec.toNat_mul _ _
  rw [zero_add, earliest, le_div_iff₀ (by norm_num)] at h
  have hcast : timeoutUs.toNat * 16 ≤ (timeoutUs * 16#32).toNat + 1 := by exact_mod_cast h
  change 16 * timeoutUs.toNat < 2 ^ 32
  omega

/-- **Timeouts.** `fifo_push` and `fifo_pop` keep what they promise exactly when the timeout is
below `2 ^ 32` ticks. -/
theorem timeouts_kept_iff (C : Chip) (v timeoutUs : Word) :
    (PushKept C v timeoutUs ↔ ticksPerUs C * timeoutUs.toNat < 2 ^ 32) ∧
      (PopKept C timeoutUs ↔ ticksPerUs C * timeoutUs.toNat < 2 ^ 32) := by
  refine ⟨⟨fun h => ?_, fun hfits => TimeoutFits.pushKept hfits v⟩,
    fun h => ?_, fun hfits => TimeoutFits.popKept hfits⟩
  · cases C with
    | rp2040 => exact (Nat.one_mul _).trans_lt timeoutUs.isLt
    | rp2350 =>
      obtain ⟨tr, htr⟩ := exists_traced_fifoPush timeoutUs v
      exact timeoutFits_of_le ((h fullSpeed _ _ _ _ htr).1 rfl).1
  · cases C with
    | rp2040 => exact (Nat.one_mul _).trans_lt timeoutUs.isLt
    | rp2350 =>
      obtain ⟨tr, htr⟩ := exists_traced_fifoPop timeoutUs
      exact timeoutFits_of_le ((h fullSpeed _ _ _ _ htr).1 rfl).2.1

/-- Four and a half minutes can be over within a microsecond. -/
theorem timeout_wrapped : ¬ PushKept .rp2350 0 0x10000000 ∧ ¬ PopKept .rp2350 0x10000000 ∧
    ∃ tr, Traced fullSpeed.access (fifoPop .rp2350 0x10000000) 0 (false, 0#32) (1 / 16) tr := by
  have hearliest : earliest 0x10000000 = 1 / 16 := by
    have hbudget : (0x10000000 * 16#32 : Word).toNat = 0 := by decide
    rw [earliest, hbudget, Nat.zero_add, Nat.cast_one]
  obtain ⟨tr, htr⟩ := exists_traced_fifoPush 0x10000000 0
  obtain ⟨tr', htr'⟩ := exists_traced_fifoPop 0x10000000
  have hwrapped : ¬ TimeoutFits .rp2350 0x10000000 := by
    rw [TimeoutFits]
    decide
  refine ⟨fun h => hwrapped ?_, fun h => hwrapped ?_, tr', hearliest ▸ htr'⟩
  · exact timeoutFits_of_le ((h fullSpeed _ _ _ _ htr).1 rfl).1
  · exact timeoutFits_of_le ((h fullSpeed _ _ _ _ htr').1 rfl).2.1

end Multicore
