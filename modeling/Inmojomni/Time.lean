import Inmojomni.Multicore
import Mathlib.Algebra.Order.Field.Basic
import Mathlib.Algebra.Order.Ring.Rat
import Mathlib.Data.NNRat.Floor

/-!
# Sleeping on the timer

`sleep_us` polls the microsecond timer, of which a load gives the low 32 bits, until the
difference to the start is large enough. Time is dense here, and any amount of it may pass before
an access (`access`); a reading is what the timer has counted, the whole microseconds.

The difference of two readings is never more than what the timer has counted meanwhile
(`toNat_elapsed_le`), so `sleep_us` does not return before it has counted the argument. But the
first of these microseconds may be almost over when it is called, and so any sleep that is not
empty can be too short, by less than a microsecond. `sleep_ms` multiplies its argument in 32 bits
first, for the number of microseconds or, without the timer, of rounds of a busy loop. Where the
product does not fit, it is too short by far more than that (`sleep_never_early`).
-/

namespace Time

open Mmio Effect
open Multicore (timeUs)

/-- Scratch word for the busy loop. -/
def spinScratch : Word := 0x20040000

def spinItersPerMs : Word := 8000

/-! ### The firmware -/

def sleepUs (C : Chip) (us : Word) : Firmware Unit := do
  let start ← timeUs C
  Prog.loop (fun _ : Unit => do
    let now ← timeUs C
    if now - start < us then return .inl () else return .inr ()) ()

/-- One round of the busy loop, which is a store. -/
def spinRound (total i : Word) : Firmware (Word ⊕ Unit) :=
  if i < total then do
    write32 spinScratch i
    return .inl (i + 1)
  else
    return .inr ()

/-- The busy loop. -/
def spin (total : Word) : Firmware Unit := Prog.loop (spinRound total) 0

/-- Block for approximately `ms` milliseconds. -/
def sleepMs (C : Chip) (ms : Word) : Firmware Unit :=
  if C.usesHwTimer then sleepUs C (ms * 1000) else spin (ms * spinItersPerMs)

/-! ### Time and rounds -/

/-- The time since the timer was started, in microseconds, and the rounds of the busy loop so far.
-/
structure World where
  now : ℚ≥0
  rounds : ℕ

/-- An access takes place some time after the one before. A load of the timer gives the low
word of the whole microseconds that have passed when it takes place. -/
def access (C : Chip) : (e : Op) → World → e.Answer → World → Prop
  | .read32 addr, w, (r : Word), w' => w.now ≤ w'.now ∧ w'.rounds = w.rounds ∧
    (addr = C.timerBase + 0x28 → r = BitVec.ofNat 32 ⌊w'.now⌋₊)
  | .write32 addr _, w, _, w' => w.now ≤ w'.now ∧
    w'.rounds = w.rounds + if addr = spinScratch then 1 else 0
  | _, w, _, w' => w.now ≤ w'.now ∧ w'.rounds = w.rounds

/-- The program returns only when `span` microseconds have elapsed. -/
def NeverEarly (C : Chip) (p : Firmware Unit) (span : ℕ) : Prop :=
  ∀ w u w', Exec (access C) p w u w' → w.now + span ≤ w'.now

/-- It may be early, but by less than a microsecond. -/
def NeverTickEarly (C : Chip) (p : Firmware Unit) (span : ℕ) : Prop :=
  ∀ w u w', Exec (access C) p w u w' → w.now + span < w'.now + 1

/-- The program returns only after `n` rounds of the busy loop. -/
def SpinsFor (C : Chip) (p : Firmware Unit) (n : ℕ) : Prop :=
  ∀ w u w', Exec (access C) p w u w' → w.rounds + n ≤ w'.rounds

/-- What `sleep_ms` promises: milliseconds on the timer, or rounds. -/
def SleepsMs (C : Chip) (ms : Word) : Prop :=
  if C.usesHwTimer then NeverEarly C (sleepMs C ms) (1000 * ms.toNat)
  else SpinsFor C (sleepMs C ms) (8000 * ms.toNat)

/-- What it keeps but for a tick of the timer. -/
def NearlySleepsMs (C : Chip) (ms : Word) : Prop :=
  if C.usesHwTimer then NeverTickEarly C (sleepMs C ms) (1000 * ms.toNat)
  else SpinsFor C (sleepMs C ms) (8000 * ms.toNat)

/-- What a millisecond is multiplied with. -/
def perMs (C : Chip) : ℕ := if C.usesHwTimer then 1000 else 8000

/-! ### The timer -/

section Timer

variable {C : Chip}

/-- Of two readings of a counter that wraps around, the difference is what has elapsed, but for
whole rounds. -/
theorem toNat_elapsed {w a b : ℕ} (h : a ≤ b) :
    (BitVec.ofNat w b - BitVec.ofNat w a).toNat = (b - a) % 2 ^ w := by
  obtain ⟨d, rfl⟩ := Nat.exists_eq_add_of_le h
  rw [BitVec.ofNat_add, BitVec.add_comm, BitVec.add_sub_cancel, Nat.add_sub_cancel_left,
    BitVec.toNat_ofNat]

theorem toNat_elapsed_le {w a b : ℕ} (h : a ≤ b) :
    (BitVec.ofNat w b - BitVec.ofNat w a).toNat ≤ b - a :=
  (toNat_elapsed h).trans_le (Nat.mod_le _ _)

theorem exec_timeUs {w w' : World} {r : Word} : Exec (access C) (timeUs C) w r w' ↔
    w.now ≤ w'.now ∧ w'.rounds = w.rounds ∧ r = BitVec.ofNat 32 ⌊w'.now⌋₊ := by
  constructor
  · intro h
    obtain ⟨_, t, ⟨hle, hrounds, hr⟩, ht⟩ := exec_op.mp h
    obtain ⟨rfl, rfl⟩ := exec_ret.mp ht
    exact ⟨hle, hrounds, hr rfl⟩
  · rintro ⟨hle, hrounds, hr⟩
    have ha : access C (.read32 (C.timerBase + 0x28#32)) w r w' := ⟨hle, hrounds, fun _ => hr⟩
    exact .op ha (.ret _ _)

/-- **What the timer has counted.** `sleep_us` returns only when it is the argument. -/
theorem counted_sleepUs {us : Word} {w w' : World} {u : Unit}
    (h : Exec (access C) (sleepUs C us) w u w') :
    w.now ≤ w'.now ∧ ⌊w.now⌋₊ + us.toNat ≤ ⌊w'.now⌋₊ := by
  obtain ⟨start, s, hstart, hloop⟩ := exec_bind.mp h
  obtain ⟨hle, -, rfl⟩ := exec_timeUs.mp hstart
  -- the time only goes on, and at the exit the difference is large enough
  suffices hend : s.now ≤ w'.now ∧ ⌊s.now⌋₊ + us.toNat ≤ ⌊w'.now⌋₊ from
    ⟨hle.trans hend.1, (Nat.add_le_add_right (Nat.floor_mono hle) _).trans hend.2⟩
  refine Exec.loop_inv (I := fun _ t => s.now ≤ t.now)
    (J := fun _ t => s.now ≤ t.now ∧ ⌊s.now⌋₊ + us.toNat ≤ ⌊t.now⌋₊) ?_ le_rfl hloop
  intro _ t r t' hinv hbody
  obtain ⟨now, t₁, hnow, hexit⟩ := exec_bind.mp hbody
  obtain ⟨hle', -, rfl⟩ := exec_timeUs.mp hnow
  have hs : s.now ≤ t₁.now := hinv.trans hle'
  split at hexit
  · obtain ⟨rfl, rfl⟩ := exec_ret.mp hexit
    exact hs
  · next hdone =>
    obtain ⟨rfl, rfl⟩ := exec_ret.mp hexit
    have hfloor : ⌊s.now⌋₊ ≤ ⌊t'.now⌋₊ := Nat.floor_mono hs
    have helapsed := toNat_elapsed_le (w := 32) hfloor
    rw [BitVec.lt_def, Nat.not_lt] at hdone
    have hsum := Nat.add_le_add_left (hdone.trans helapsed) ⌊s.now⌋₊
    rw [Nat.add_sub_cancel' hfloor] at hsum
    exact ⟨hs, hsum⟩

/-- It may return as soon as that. -/
theorem exec_sleepUs {us : Word} {w : World} {t : ℚ≥0} (hle : w.now ≤ t)
    (hcount : ⌊t⌋₊ = ⌊w.now⌋₊ + us.toNat) :
    Exec (access C) (sleepUs C us) w () { w with now := t } := by
  have hnow : Exec (access C) (timeUs C) w (BitVec.ofNat 32 ⌊t⌋₊) { w with now := t } :=
    exec_timeUs.mpr ⟨hle, rfl, rfl⟩
  have hdone : ¬ BitVec.ofNat 32 ⌊t⌋₊ - BitVec.ofNat 32 ⌊w.now⌋₊ < us := by
    rw [BitVec.lt_def, toNat_elapsed (Nat.floor_mono hle), hcount, Nat.add_sub_cancel_left,
      Nat.mod_eq_of_lt us.isLt]
    exact lt_irrefl _
  refine exec_bind.mpr ⟨_, w, exec_timeUs.mpr ⟨le_rfl, rfl, rfl⟩, exec_iter.mpr ?_⟩
  refine exec_bind.mpr ⟨.inr (), _, exec_bind.mpr ⟨_, _, hnow, ?_⟩, .ret _ _⟩
  rw [if_neg hdone]
  exact .ret _ _

/-- A sleep from a tick on, and one from half a microsecond later on. -/
theorem exec_sleepUs_zero (us : Word) :
    Exec (access C) (sleepUs C us) ⟨0, 0⟩ () ⟨us.toNat, 0⟩ :=
  exec_sleepUs (zero_le : (0 : ℚ≥0) ≤ us.toNat)
    (by rw [Nat.floor_natCast, Nat.floor_zero, Nat.zero_add])

theorem exec_sleepUs_half {us : Word} (hus : us ≠ 0#32) :
    Exec (access C) (sleepUs C us) ⟨1 / 2, 0⟩ () ⟨us.toNat, 0⟩ := by
  have hhalf : ⌊(1 / 2 : ℚ≥0)⌋₊ = 0 := Nat.floor_eq_zero.mpr (by norm_num)
  have hpos : 1 ≤ us.toNat := Nat.pos_of_ne_zero fun h => hus (BitVec.eq_of_toNat_eq h)
  have hcast : (1 : ℚ≥0) ≤ us.toNat := by exact_mod_cast hpos
  refine exec_sleepUs (le_trans (by norm_num) hcast) ?_
  rw [hhalf, Nat.floor_natCast, Nat.zero_add]

/-- **Almost never early.** -/
theorem neverTickEarly_sleepUs_iff {us : Word} {n : ℕ} :
    NeverTickEarly C (sleepUs C us) n ↔ n ≤ us.toNat := by
  constructor
  · intro h
    have hearliest : (0 : ℚ≥0) + n < us.toNat + 1 := h ⟨0, 0⟩ () _ (exec_sleepUs_zero us)
    rw [zero_add] at hearliest
    have hlt : n < us.toNat + 1 := by exact_mod_cast hearliest
    exact Nat.lt_succ_iff.mp hlt
  · intro hn w u w' h
    obtain ⟨-, hcount⟩ := counted_sleepUs h
    have hcast : (⌊w.now⌋₊ : ℚ≥0) + n ≤ ⌊w'.now⌋₊ := by
      exact_mod_cast (Nat.add_le_add_left hn _).trans hcount
    calc w.now + n < ⌊w.now⌋₊ + 1 + n := add_lt_add_left (Nat.lt_floor_add_one _) _
      _ = ⌊w.now⌋₊ + n + 1 := add_right_comm _ _ _
      _ ≤ ⌊w'.now⌋₊ + 1 := add_le_add_left hcast 1
      _ ≤ w'.now + 1 := add_le_add_left (Nat.floor_le zero_le) 1

/-- **Early.** A sleep of at most `n` may be over before `n` microseconds, unless `n` is 0. -/
theorem neverEarly_sleepUs_iff {us : Word} {n : ℕ} (hn : us.toNat ≤ n) :
    NeverEarly C (sleepUs C us) n ↔ n = 0 := by
  constructor
  · intro h
    rcases eq_or_ne us 0#32 with rfl | hus
    · have hnow : (0 : ℚ≥0) + n ≤ (0 : ℕ) := h ⟨0, 0⟩ () _ (exec_sleepUs_zero 0#32)
      rw [zero_add] at hnow
      have hle : n ≤ 0 := by exact_mod_cast hnow
      exact Nat.le_zero.mp hle
    · -- the half microsecond before the call is missing
      have hearly := h ⟨1 / 2, 0⟩ () _ (exec_sleepUs_half hus)
      have hcast : (us.toNat : ℚ≥0) ≤ n := by exact_mod_cast hn
      have hle : (1 / 2 : ℚ≥0) + n ≤ 0 + n := (hearly.trans hcast).trans_eq (zero_add _).symm
      exact absurd (le_of_add_le_add_right hle) (by norm_num)
  · rintro rfl w u w' h
    rw [Nat.cast_zero, add_zero]
    exact (counted_sleepUs h).1

end Timer

/-! ### The busy loop -/

section Spin

variable {C : Chip} {total : Word}

theorem exec_store {i : Word} {w w' : World} {u : Unit} :
    Exec (access C) (write32 spinScratch i) w u w' ↔
      w.now ≤ w'.now ∧ w'.rounds = w.rounds + 1 := by
  constructor
  · intro h
    obtain ⟨_, t, ha, ht⟩ := exec_op.mp h
    obtain ⟨-, rfl⟩ := exec_ret.mp ht
    exact ha
  · intro h
    have ha : access C (.write32 spinScratch i) w () w' := h
    exact .op ha (.ret _ _)

/-- The counter is below a word, so it does not wrap around. -/
theorem toNat_add_one {i : Word} (h : i < total) : (i + 1).toNat = i.toNat + 1 := by
  have hlt := BitVec.lt_def.mp h
  have hword := total.isLt
  have hone : BitVec.toNat (1 : Word) = 1 := rfl
  rw [BitVec.toNat_add, hone]
  exact Nat.mod_eq_of_lt (by omega)

/-- The loop makes exactly as many rounds as it is told. -/
theorem rounds_spin {w w' : World} {u : Unit} (h : Exec (access C) (spin total) w u w') :
    w'.rounds = w.rounds + total.toNat := by
  refine Exec.loop_inv (I := fun i t => i.toNat ≤ total.toNat ∧ t.rounds = w.rounds + i.toNat)
    (J := fun _ t => t.rounds = w.rounds + total.toNat) ?_ ⟨Nat.zero_le _, rfl⟩ h
  rintro i t r t' ⟨hle, hrounds⟩ hbody
  rw [spinRound] at hbody
  split at hbody
  · next hlt =>
    obtain ⟨_, t₁, hstore, hret⟩ := exec_bind.mp hbody
    obtain ⟨rfl, rfl⟩ := exec_ret.mp hret
    obtain ⟨-, hnext⟩ := exec_store.mp hstore
    refine ⟨?_, ?_⟩
    · rw [toNat_add_one hlt]
      exact BitVec.lt_def.mp hlt
    · rw [toNat_add_one hlt, hnext, hrounds, Nat.add_assoc]
  · next hge =>
    obtain ⟨rfl, rfl⟩ := exec_ret.mp hbody
    have hend : total.toNat ≤ i.toNat := Nat.not_lt.mp (mt BitVec.lt_def.mpr hge)
    exact hrounds.trans (congrArg _ (le_antisymm hle hend))

/-- It ends, from any count on. -/
theorem exec_loop_spinRound (n : ℕ) {i : Word} (w : World) (hi : i.toNat + n = total.toNat) :
    Exec (access C) (Prog.loop (spinRound total) i) w () { w with rounds := w.rounds + n } := by
  induction n generalizing i w with
  | zero =>
    have hdone : ¬ i < total := fun hlt => (Nat.ne_of_lt (BitVec.lt_def.mp hlt)) hi
    refine exec_iter.mpr (exec_bind.mpr ⟨.inr (), w, ?_, .ret _ _⟩)
    rw [spinRound, if_neg hdone]
    exact .ret _ _
  | succ n ih =>
    have hlt : i < total := BitVec.lt_def.mpr (by omega)
    have hnext := ih { w with rounds := w.rounds + 1 } (i := i + 1)
      (by rw [toNat_add_one hlt]; omega)
    rw [Nat.add_assoc, Nat.add_comm 1] at hnext
    refine exec_iter.mpr (exec_bind.mpr ⟨.inl (i + 1), _, ?_, hnext⟩)
    rw [spinRound, if_pos hlt]
    have hstore : Exec (access C) (write32 spinScratch i) w () { w with rounds := w.rounds + 1 } :=
      exec_store.mpr ⟨le_rfl, rfl⟩
    exact exec_bind.mpr ⟨(), _, hstore, .ret _ _⟩

theorem exec_spin (w : World) :
    Exec (access C) (spin total) w () { w with rounds := w.rounds + total.toNat } :=
  exec_loop_spinRound total.toNat w (Nat.zero_add _)

end Spin

/-! ### Milliseconds -/

/-- A product in 32 bits is never larger than the product, and is it only if that fits. -/
theorem mul_le_toNat_mul_iff (ms k : Word) :
    k.toNat * ms.toNat ≤ (ms * k).toNat ↔ k.toNat * ms.toNat < 2 ^ 32 := by
  rw [BitVec.toNat_mul, Nat.mul_comm ms.toNat]
  constructor
  · exact fun h => h.trans_lt (Nat.mod_lt _ (by decide))
  · exact fun h => (Nat.mod_eq_of_lt h).ge

theorem toNat_mul_le (ms k : Word) : (ms * k).toNat ≤ k.toNat * ms.toNat := by
  rw [BitVec.toNat_mul, Nat.mul_comm ms.toNat]
  exact Nat.mod_le _ _

/-- The rounds of the busy loop. -/
theorem spinsFor_iff {C : Chip} {ms : Word} :
    SpinsFor C (spin (ms * spinItersPerMs)) (8000 * ms.toNat) ↔ 8000 * ms.toNat < 2 ^ 32 := by
  refine Iff.trans ?_ (mul_le_toNat_mul_iff ms spinItersPerMs)
  constructor
  · intro h
    have hrounds := h ⟨0, 0⟩ () _ (exec_spin _)
    rwa [Nat.zero_add, Nat.zero_add] at hrounds
  · intro hle w u w' h
    rw [rounds_spin h]
    exact Nat.add_le_add_left hle _

/-- **Sleeping.** A sleep on the timer can be too short whenever it is not empty: `sleep_us` by less
than a microsecond, `sleep_ms` so only if the number of microseconds is below `2 ^ 32`. The busy
loop makes the rounds it is to make if and only if their number is. -/
theorem sleep_never_early (C : Chip) :
    (∀ us, (NeverEarly C (sleepUs C us) us.toNat ↔ us = 0#32) ∧
      NeverTickEarly C (sleepUs C us) us.toNat) ∧
    ∀ ms, (SleepsMs C ms ↔ if C.usesHwTimer then ms = 0#32 else 8000 * ms.toNat < 2 ^ 32) ∧
      (NearlySleepsMs C ms ↔ perMs C * ms.toNat < 2 ^ 32) := by
  have hzero : ∀ v : Word, v.toNat = 0 ↔ v = 0#32 := fun v =>
    ⟨fun h => BitVec.eq_of_toNat_eq h, fun h => h ▸ rfl⟩
  refine ⟨fun us => ⟨?_, neverTickEarly_sleepUs_iff.mpr le_rfl⟩, fun ms => ?_⟩
  · exact (neverEarly_sleepUs_iff le_rfl).trans (hzero us)
  rw [SleepsMs, NearlySleepsMs, perMs, sleepMs]
  split
  · have hms : 1000 * ms.toNat = 0 ↔ ms.toNat = 0 := by omega
    refine ⟨?_, ?_⟩
    · exact (neverEarly_sleepUs_iff (toNat_mul_le ms 1000)).trans (hms.trans (hzero ms))
    · exact neverTickEarly_sleepUs_iff.trans (mul_le_toNat_mul_iff ms 1000)
  · exact ⟨spinsFor_iff, spinsFor_iff⟩

/-- A microsecond that begins in the middle of one can be over after a half, and seventy-two minutes
after less than a millisecond. -/
theorem sleep_early :
    (¬ NeverEarly .rp2040 (sleepUs .rp2040 1) 1 ∧
      Exec (access .rp2040) (sleepUs .rp2040 1) ⟨1 / 2, 0⟩ () ⟨1, 0⟩) ∧
    ¬ SleepsMs .rp2040 4294968 ∧
      Exec (access .rp2040) (sleepMs .rp2040 4294968) ⟨0, 0⟩ () ⟨704, 0⟩ := by
  have hus : Exec (access .rp2040) (sleepUs .rp2040 1) ⟨1 / 2, 0⟩ () ⟨1, 0⟩ := by
    have hrun := @exec_sleepUs_half .rp2040 1 (by decide)
    rwa [show BitVec.toNat (1 : Word) = 1 from rfl, Nat.cast_one] at hrun
  have hms : Exec (access .rp2040) (sleepMs .rp2040 4294968) ⟨0, 0⟩ () ⟨704, 0⟩ := by
    have hrun := exec_sleepUs_zero (C := .rp2040) (4294968 * 1000)
    rwa [show BitVec.toNat (4294968 * 1000 : Word) = 704 from rfl] at hrun
  refine ⟨⟨fun h => ?_, hus⟩, fun h => ?_, hms⟩
  · exact absurd (h _ _ _ hus) (by norm_num)
  · have hlate : (0 : ℚ≥0) + (1000 * BitVec.toNat (4294968 : Word) : ℕ) ≤ 704 :=
      (if_pos rfl : SleepsMs .rp2040 4294968 = _).mp h ⟨0, 0⟩ () ⟨704, 0⟩ hms
    rw [zero_add] at hlate
    have hle : 1000 * BitVec.toNat (4294968 : Word) ≤ 704 := by exact_mod_cast hlate
    exact absurd hle (by decide)

end Time
