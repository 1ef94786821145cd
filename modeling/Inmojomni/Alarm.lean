import Inmojomni.Effect.Frame
import Inmojomni.Effect.RelyGuarantee
import Inmojomni.Mmio.Bus
import Inmojomni.Multicore
import Mathlib.Data.List.Basic

/-!
# The alarm of the timer

`alarm0_arm` reads the time and stores the sum with the delay into ALARM0, which arms the alarm: it
fires when the low word of the timer is equal to ALARM0, and disarms itself. Between the reading and
the store there may be any amount of time, as when an interrupt comes. Time is what the timer has
counted.

So the alarm is due at the first time from the store on whose low word is the sum (`due`). It is
never early, it is exact if the store comes within the delay, and otherwise late by a round of the
low word, which is 71 minutes. `alarm_due` is that it fires at this time and at no other, once,
whatever else goes on, as long as nothing but the acknowledgement is stored to the timer and nothing
to what can reset it: such a store may disarm the alarm, or stop or set the time (`Disturbs`).
-/

namespace Alarm

open Mmio Effect

variable (C : Chip)

/-! ### The firmware -/

def alarm0 : Word := C.timerBase + 0x10#32

def timerawl : Word := C.timerBase + 0x28#32

def intr : Word := C.timerBase + C.timerIntrOff

def inte : Word := C.timerBase + C.timerInteOff

/-- One-shot: fire TIMER IRQ 0 in `usFromNow` µs. -/
def alarm0Arm (usFromNow : Word) : Firmware Unit := do
  write32Set (C.timerBase + C.timerInteOff) 1#32
  let now ← Multicore.timeUs C
  write32 (C.timerBase + 0x10#32) (now + usFromNow)

/-- Clear the latched interrupt. -/
def alarm0Ack : Firmware Unit := write32 (C.timerBase + C.timerIntrOff) 1#32

/-! ### The timer -/

/-- The peripheral that an address belongs to, through an alias or not. -/
def block (addr : Word) : Word := addr &&& ~~~0x3FFF#32

/-- What can reset the timer, or the chip: RESETS, PSM, WATCHDOG, and the power management. -/
def resetBlocks : Chip → List Word
  | .rp2040 => [0x4000C000#32, 0x40010000#32, 0x40058000#32, 0x40064000#32]
  | .rp2350 => [0x40020000#32, 0x40018000#32, 0x400D8000#32, 0x40100000#32]

/-- A store to this address may change the timer. -/
def Disturbs (addr : Word) : Prop := block addr = C.timerBase ∨ block addr ∈ resetBlocks C

/-- The timer with its alarm: when ALARM0 was last stored, and at what times it has fired since. -/
structure State where
  now : ℕ
  alarm : Word
  armed : Bool
  inte : Word
  latched : Bool
  setAt : ℕ
  fired : List ℕ

namespace State

variable (s : State)

/-- A store. Ones to INTR clear the latch. What the other registers that disturb the timer do to it
is left open. -/
structure Stored (addr v : Word) (s' : State) : Prop where
  alarm0 : addr = alarm0 C →
    s' = { s with alarm := v, armed := true, setAt := s.now, fired := [] }
  intr : addr = Alarm.intr C → s' = { s with latched := s.latched && v &&& 1#32 = 0#32 }
  inte : register addr = Alarm.inte C → s' = { s with inte := combine addr s.inte v }
  other : ¬ Disturbs C addr → s' = s

def access : (e : Op) → State → e.Answer → State → Prop
  | .read32 addr, s, (r : Word), s' => s' = s ∧ (addr = timerawl C → r = BitVec.ofNat 32 s.now)
  | .write32 addr v, s, _, s' => s.Stored C addr v s'
  | .write8 addr _, s, _, s' => ¬ Disturbs C addr → s' = s
  | _, s, _, s' => s' = s

/-- Time passes, unless the alarm is to fire. -/
inductive Step : State → State → Prop
  | tick {s : State} (h : ¬ (s.armed = true ∧ s.alarm = BitVec.ofNat 32 s.now)) :
    Step s { s with now := s.now + 1 }
  | fire {s : State} (harmed : s.armed = true) (h : s.alarm = BitVec.ofNat 32 s.now) :
    Step s { s with armed := false, latched := true, fired := s.now :: s.fired }

end State

/-- Threads are cores and their handlers. -/
def machine (T : Type) : Machine T Op.Answer State where
  access _ := State.access C
  env := State.Step

/-! ### When an alarm is due -/

/-- The first time from `setAt` on whose low word is that of `t₀ + us`. -/
def due (t₀ : ℕ) (us : Word) (setAt : ℕ) : ℕ :=
  setAt + (BitVec.ofNat 32 t₀ + us - BitVec.ofNat 32 setAt).toNat

section Due

variable {t₀ setAt now : ℕ} {us : Word}

theorem setAt_le_due : setAt ≤ due t₀ us setAt := Nat.le_add_right _ _

theorem due_lt : due t₀ us setAt < setAt + 2 ^ 32 := Nat.add_lt_add_left (BitVec.isLt _) _

theorem ofNat_due : BitVec.ofNat 32 (due t₀ us setAt) = BitVec.ofNat 32 t₀ + us := by
  rw [due, BitVec.ofNat_add, BitVec.ofNat_toNat, BitVec.setWidth_eq, BitVec.add_comm,
    BitVec.sub_add_cancel]

/-- It is the only one, up to a round. -/
theorem eq_due (h : BitVec.ofNat 32 t₀ + us = BitVec.ofNat 32 now) (hset : setAt ≤ now)
    (hle : now ≤ due t₀ us setAt) : now = due t₀ us setAt := by
  have hmod : now % 2 ^ 32 = due t₀ us setAt % 2 ^ 32 := by
    have hword := congrArg BitVec.toNat (ofNat_due.trans h : BitVec.ofNat 32 (due t₀ us setAt) = _)
    rw [BitVec.toNat_ofNat, BitVec.toNat_ofNat] at hword
    exact hword.symm
  have hlt : due t₀ us setAt < setAt + 2 ^ 32 := due_lt
  omega

/-- The sum, in numbers. -/
theorem due_mod : due t₀ us setAt % 2 ^ 32 = (t₀ + us.toNat) % 2 ^ 32 := by
  have hword := congrArg BitVec.toNat (ofNat_due : BitVec.ofNat 32 (due t₀ us setAt) = _)
  rw [BitVec.toNat_ofNat, BitVec.toNat_add, BitVec.toNat_ofNat, Nat.mod_add_mod] at hword
  exact hword

/-- **Exact, if the store is in time.** -/
theorem due_eq (h₀ : t₀ ≤ setAt) (h : setAt ≤ t₀ + us.toNat) :
    due t₀ us setAt = t₀ + us.toNat := by
  have hmod : due t₀ us setAt % 2 ^ 32 = _ := due_mod
  have hle : setAt ≤ due t₀ us setAt := setAt_le_due
  have hlt : due t₀ us setAt < setAt + 2 ^ 32 := due_lt
  have hus := us.isLt
  omega

/-- **A round late, if it is not.** -/
theorem due_late (h : t₀ + us.toNat < setAt) : t₀ + us.toNat + 2 ^ 32 ≤ due t₀ us setAt := by
  have hmod : due t₀ us setAt % 2 ^ 32 = _ := due_mod
  have hle : setAt ≤ due t₀ us setAt := setAt_le_due
  omega

end Due

/-! ### The alarm that is set -/

/-- The alarm is set for `us` after `t₀`, and has fired when it was due or not yet. -/
structure SetFor (t₀ : ℕ) (us : Word) (s : State) : Prop where
  read_le : t₀ ≤ s.setAt
  set_le : s.setAt ≤ s.now
  alarm : s.alarm = BitVec.ofNat 32 t₀ + us
  enabled : s.inte &&& 1#32 ≠ 0#32
  outcome : s.armed = true ∧ s.now ≤ due t₀ us s.setAt ∧ s.fired = [] ∨
    s.armed = false ∧ due t₀ us s.setAt ≤ s.now ∧ s.fired = [due t₀ us s.setAt]

/-- What leaves the alarm alone. -/
structure Quiet (s s' : State) : Prop where
  now : s'.now = s.now
  alarm : s'.alarm = s.alarm
  armed : s'.armed = s.armed
  inte : s'.inte = s.inte
  setAt : s'.setAt = s.setAt
  fired : s'.fired = s.fired

section Keeps

variable {t₀ n : ℕ} {us : Word} {s s' : State}

theorem Quiet.refl (s : State) : Quiet s s := ⟨rfl, rfl, rfl, rfl, rfl, rfl⟩

theorem SetFor.quiet (h : SetFor t₀ us s) (hq : Quiet s s') : SetFor t₀ us s' := by
  refine ⟨?_, ?_, ?_, ?_, ?_⟩
  · rw [hq.setAt]
    exact h.read_le
  · rw [hq.setAt, hq.now]
    exact h.set_le
  · rw [hq.alarm]
    exact h.alarm
  · rw [hq.inte]
    exact h.enabled
  · rw [hq.setAt, hq.now, hq.armed, hq.fired]
    exact h.outcome

/-- **It fires when it is due.** -/
theorem SetFor.step (h : SetFor t₀ us s) (hs : s.Step s') : SetFor t₀ us s' := by
  cases hs with
  | tick hnot =>
    refine ⟨h.read_le, Nat.le_succ_of_le h.set_le, h.alarm, h.enabled, ?_⟩
    rcases h.outcome with ⟨harmed, hle, hfired⟩ | ⟨harmed, hle, hfired⟩
    · -- time does not pass the alarm
      have hne : s.now ≠ due t₀ us s.setAt := by
        intro heq
        refine hnot ⟨harmed, ?_⟩
        rw [h.alarm, heq, ofNat_due]
      exact .inl ⟨harmed, Nat.lt_of_le_of_ne hle hne, hfired⟩
    · exact .inr ⟨harmed, Nat.le_succ_of_le hle, hfired⟩
  | fire harmed hnow =>
    refine ⟨h.read_le, h.set_le, h.alarm, h.enabled, ?_⟩
    rcases h.outcome with ⟨-, hle, hfired⟩ | ⟨harmed', -, -⟩
    · have heq : s.now = due t₀ us s.setAt := eq_due (h.alarm.symm.trans hnow) h.set_le hle
      refine .inr ⟨rfl, heq.ge, ?_⟩
      rw [hfired, heq]
    · exact absurd (harmed.symm.trans harmed') (by decide)

/-- The time only goes on. -/
theorem now_step (hs : s.Step s') : s.now ≤ s'.now := by
  cases hs with
  | tick => exact Nat.le_succ _
  | fire => exact le_rfl

theorem inte_step (hs : s.Step s') : s'.inte = s.inte := by
  cases hs with
  | tick | fire => rfl

end Keeps

/-! ### Others -/

section Others

variable {C : Chip} {T : Type}

/-- Accesses that store nothing to what disturbs the timer, but to INTR. -/
def Apart (C : Chip) : Op → Prop
  | .write32 addr _ => addr = intr C ∨ ¬ Disturbs C addr
  | .write8 addr _ => ¬ Disturbs C addr
  | _ => True

theorem Apart.quiet {e : Op} {r : e.Answer} {s s' : State} (h : Apart C e)
    (ha : State.access C e s r s') : Quiet s s' := by
  cases e with
  | write32 addr v =>
    rcases h with hintr | hnot
    · obtain rfl := State.Stored.intr ha hintr
      exact ⟨rfl, rfl, rfl, rfl, rfl, rfl⟩
    · obtain rfl := State.Stored.other ha hnot
      exact .refl _
  | read32 addr =>
    obtain ⟨rfl, -⟩ := ha
    exact .refl _
  | write8 addr v =>
    obtain rfl : s' = s := ha h
    exact .refl _
  | read8 addr | external f =>
    obtain rfl := ha
    exact .refl _

/-- Thread `t` sets the alarm, and the others leave it alone. -/
def protocol (C : Chip) (t : T) : Protocol (machine C T) where
  rely u s s' := u = t → Quiet s s' ∨ s.Step s'
  guar u _ s _ s' := u ≠ t → Quiet s s'
  guar_rely hne _ hg heq := .inl (hg fun h => hne (h.trans heq.symm))
  env_rely h _ := .inr h

variable {t u : T}

theorem stable_set {t₀ : ℕ} {us : Word} : Stable (protocol C t) t (SetFor t₀ us) :=
  fun _ _ hr h => (hr rfl).elim h.quiet h.step

theorem stable_now (n : ℕ) : Stable (protocol C t) t fun s => n ≤ s.now :=
  fun _ _ hr h => (hr rfl).elim (fun hq => h.trans hq.now.ge) fun hs => h.trans (now_step hs)

theorem stable_enabled : Stable (protocol C t) t fun s => s.inte &&& 1#32 ≠ 0#32 := by
  intro s s' hr h
  have heq : s'.inte = s.inte := (hr rfl).elim Quiet.inte inte_step
  rwa [heq]

/-- A program that leaves the alarm alone, next to the one that sets it. -/
theorem triple_apart {α : Type} {p : Firmware α} (hp : p.Only (Apart C)) :
    Triple (protocol C t) u (fun _ => True) p fun _ _ => True := by
  refine (Triple.of_step (K := fun q _ => q.Only (Apart C)) (fun _ _ _ _ h => h)
    (fun _ _ _ => trivial) ?_ ?_ p).pre fun _ _ => hp
  · intro e k s r s' hk ha
    exact ⟨fun _ => hk.1.quiet ha, hk.2 r⟩
  · intro β γ body b k s hk
    exact Prog.Only.unfold hk

end Others

/-! ### alarm0_arm -/

section Arm

variable {C : Chip} {T : Type} {t : T}

theorem plain_inte (C : Chip) : Plain (inte C) := by
  cases C <;> decide

theorem stored_inte {s s' : State} {v : Word}
    (h : s.Stored C (C.timerBase + C.timerInteOff + setAlias) v s') :
    s' = { s with inte := s.inte ||| v } := by
  refine (h.inte ((plain_inte C).register_add (by decide))).trans ?_
  rw [← inte, (plain_inte C).combine_set]

theorem enabled_or (x : Word) : (x ||| 1#32) &&& 1#32 ≠ 0#32 := by
  rw [BitVec.or_and_self]
  decide

/-- The reading is not before the call, and whatever comes after it is up to `SetFor`. -/
theorem alarm0Arm_spec (n : ℕ) (us : Word) :
    Triple (protocol C t) t (fun s => n ≤ s.now) (alarm0Arm C us)
      fun _ s => ∃ t₀, n ≤ t₀ ∧ SetFor t₀ us s := by
  have hpost : Stable (protocol C t) t fun s => ∃ t₀, n ≤ t₀ ∧ SetFor t₀ us s :=
    .exists fun t₀ s s' hr h => ⟨h.1, stable_set s s' hr h.2⟩
  have henabled : ∀ m, Stable (protocol C t) t fun s => s.inte &&& 1#32 ≠ 0#32 ∧ m ≤ s.now :=
    fun m => stable_enabled.and (stable_now m)
  refine Triple.bind (Q := fun _ s => s.inte &&& 1#32 ≠ 0#32 ∧ n ≤ s.now)
    (Triple.call (stable_now n) (fun _ => henabled n) ?_) fun _ => ?_
  · intro s r s' hn ha
    have hs' := stored_inte ha
    subst hs'
    exact ⟨fun hne => absurd rfl hne, enabled_or s.inte, hn⟩
  refine Triple.bind (Q := fun (r : Word) s => ∃ t₀, (n ≤ t₀ ∧ r = BitVec.ofNat 32 t₀) ∧
    s.inte &&& 1#32 ≠ 0#32 ∧ t₀ ≤ s.now) (Triple.call (henabled n) (fun r => ?_) ?_) fun r => ?_
  · exact .exists fun t₀ s s' hr h => ⟨h.1, henabled t₀ s s' hr h.2⟩
  · rintro s (r : Word) s' ⟨hen, hn⟩ ⟨rfl, hr⟩
    exact ⟨fun hne => absurd rfl hne, _, ⟨hn, hr rfl⟩, hen, le_rfl⟩
  refine Triple.exists fun t₀ => Triple.assume fun h => ?_
  obtain ⟨hn, rfl⟩ := h
  refine Triple.call (henabled t₀) (fun _ => hpost) ?_
  rintro s r s' ⟨hen, hle⟩ ha
  have hs' := State.Stored.alarm0 ha rfl
  subst hs'
  refine ⟨fun hne => absurd rfl hne, t₀, hn, ?_⟩
  exact ⟨hle, le_rfl, rfl, hen, .inl ⟨rfl, setAt_le_due, rfl⟩⟩

end Arm

/-! ### What the alarm does -/

/-- An alarm for `us`, set by a call between `called` and `returned`, which reads the time at `t₀`:
it has fired once, when it was due, or it was not yet due. It is due `us` after the reading, unless
that is over when it is set, and then a round later. -/
def Fires (us : Word) (called returned : ℕ) (s : State) : Prop :=
  ∃ t₀, called ≤ t₀ ∧ t₀ ≤ s.setAt ∧ s.setAt ≤ returned ∧ s.inte &&& 1#32 ≠ 0#32 ∧
    (s.now ≤ due t₀ us s.setAt ∧ s.fired = [] ∨
      due t₀ us s.setAt ≤ s.now ∧ s.fired = [due t₀ us s.setAt]) ∧
    (s.setAt ≤ t₀ + us.toNat → due t₀ us s.setAt = t₀ + us.toNat) ∧
    (t₀ + us.toNat < s.setAt → t₀ + us.toNat + 2 ^ 32 ≤ due t₀ us s.setAt)

section Runs

variable {C : Chip} {T : Type} [DecidableEq T] {t : T} {us : Word} {s₀ : State}
  {others later : T → Firmware Unit} {c₁ c : Config T Op.Answer Unit State}

theorem SetFor.fires {t₀ n m : ℕ} {s : State} (h : SetFor t₀ us s) (hn : n ≤ t₀) (hm : s.setAt ≤ m) :
    Fires us n m s := by
  refine ⟨t₀, hn, h.read_le, hm, h.enabled, ?_, due_eq h.read_le, due_late⟩
  exact h.outcome.imp And.right And.right

/-- The call, among others. -/
theorem set_of_reach (hothers : ∀ u ≠ t, (others u).Only (Apart C))
    (h₁ : (machine C T).Reach ⟨s₀, Function.update others t (alarm0Arm C us)⟩ c₁)
    (hend : c₁.threads t = .ret ()) : ∃ t₀, s₀.now ≤ t₀ ∧ SetFor t₀ us c₁.shared := by
  have htriple : ∀ u, Triple (protocol C t) u (fun s => s₀.now ≤ s.now)
      (Function.update others t (alarm0Arm C us) u)
      fun _ s => u = t → ∃ t₀, s₀.now ≤ t₀ ∧ SetFor t₀ us s := by
    intro u
    rcases eq_or_ne u t with rfl | hne
    · rw [Function.update_self]
      exact (alarm0Arm_spec s₀.now us).post fun _ _ h _ => h
    · rw [Function.update_of_ne hne]
      exact ((triple_apart (hothers u hne)).pre fun _ _ => trivial).post
        fun _ _ _ heq => absurd heq hne
  have hsafe := (protocol C t).sound (P := fun _ s => s₀.now ≤ s.now)
    (Q := fun u _ s => u = t → ∃ t₀, s₀.now ≤ t₀ ∧ SetFor t₀ us s) htriple (fun _ => le_rfl) h₁ t
  exact Safe.result hsafe hend rfl

/-- **The alarm fires when it is due.** Whatever the other threads do while `alarm0_arm` runs, and
all of them afterwards, as long as they leave the timer alone. -/
theorem alarm_due (hothers : ∀ u ≠ t, (others u).Only (Apart C))
    (h₁ : (machine C T).Reach ⟨s₀, Function.update others t (alarm0Arm C us)⟩ c₁)
    (hend : c₁.threads t = .ret ()) (hlater : ∀ u, (later u).Only (Apart C))
    (h : (machine C T).Reach ⟨c₁.shared, later⟩ c) :
    Fires us s₀.now c₁.shared.now c.shared := by
  obtain ⟨t₀, hn, hset⟩ := set_of_reach hothers h₁ hend
  have hkeeps : SetFor t₀ us c.shared ∧ c.shared.setAt = c₁.shared.setAt := by
    refine Machine.Reach.keeps (I := fun s => SetFor t₀ us s ∧ s.setAt = c₁.shared.setAt) h
      (fun u => (hlater u).mono fun e he s r s' ha hs => ?_) (fun s s' hs h => ?_) ⟨hset, rfl⟩
    · have hq := he.quiet ha
      exact ⟨hs.1.quiet hq, hq.setAt.trans hs.2⟩
    · refine ⟨h.1.step hs, Eq.trans ?_ h.2⟩
      cases hs with
      | tick | fire => rfl
  refine hkeeps.1.fires hn ?_
  rw [hkeeps.2]
  exact hset.set_le

/-! ### A run -/

/-- What the timer answers, to stores of the alarm. -/
def State.answer (C : Chip) : (e : Op) → State → Option (e.Answer × State)
  | .read32 _, s => some (BitVec.ofNat 32 s.now, s)
  | .write32 addr v, s =>
    if addr = alarm0 C then
      some ((), { s with alarm := v, armed := true, setAt := s.now, fired := [] })
    else if addr = Alarm.intr C then
      some ((), { s with latched := s.latched && v &&& 1#32 = 0#32 })
    else if register addr = Alarm.inte C then
      some ((), { s with inte := combine addr s.inte v })
    else none
  | _, _ => none

/-- The registers of the alarm are apart, and the timer's. -/
theorem registers_apart (C : Chip) :
    (alarm0 C ≠ intr C ∧ register (alarm0 C) ≠ inte C ∧ Disturbs C (alarm0 C)) ∧
      register (intr C) ≠ inte C ∧ Disturbs C (intr C) ∧ block (inte C) = C.timerBase := by
  cases C
  · exact ⟨⟨by decide, by decide, .inl rfl⟩, by decide, .inl rfl, rfl⟩
  · exact ⟨⟨by decide, by decide, .inl rfl⟩, by decide, .inl rfl, rfl⟩

theorem block_register (addr : Word) : block (register addr) = block addr := by
  rw [block, block, register, BitVec.and_assoc]
  rfl

theorem access_of_answer {e : Op} {s : State} {p : e.Answer × State}
    (h : State.answer C e s = some p) : State.access C e s p.1 p.2 := by
  cases e with
  | read32 addr =>
    cases h
    exact ⟨rfl, fun _ => rfl⟩
  | write32 addr v =>
    obtain ⟨⟨hne, hreg, halarm⟩, hreg', hintr, hinte⟩ := registers_apart C
    simp only [State.answer] at h
    split_ifs at h with h₁ h₂ h₃
    · cases h
      subst h₁
      exact ⟨fun _ => rfl, fun h => absurd h hne, fun h => absurd h hreg, absurd halarm⟩
    · cases h
      subst h₂
      exact ⟨fun h => absurd h h₁, fun _ => rfl, fun h => absurd h hreg', absurd hintr⟩
    · cases h
      have hblock : block addr = C.timerBase := by rw [← block_register, h₃, hinte]
      exact ⟨fun h => absurd h h₁, fun h => absurd h h₂, fun _ => rfl, absurd (.inl hblock)⟩
  | read8 | write8 | external => cases h

/-- Time passes, or the alarm fires. -/
def State.move (_ : Unit) (s : State) : Option State :=
  some (if s.armed = true ∧ s.alarm = BitVec.ofNat 32 s.now then
    { s with armed := false, latched := true, fired := s.now :: s.fired }
  else { s with now := s.now + 1 })

theorem step_of_move {s s' : State} (h : s.move () = some s') : s.Step s' := by
  rw [State.move] at h
  split_ifs at h with hdue
  · cases h
    exact .fire hdue.1 hdue.2
  · cases h
    exact .tick hdue

theorem reach_of_play {c c' : Config T Op.Answer Unit State} (cs : List (Machine.Choice T Unit))
    (h : Machine.play (fun _ => State.answer C) State.move c cs = some c') :
    (machine C T).Reach c c' := by
  have hacc : ∀ (t : T) (e : Op) (s : State) (p : e.Answer × State),
      State.answer C e s = some p → (machine C T).access t e s p.1 p.2 :=
    fun _ _ _ _ h => access_of_answer h
  exact Machine.Reach.of_play hacc (fun _ _ _ h => step_of_move h) cs h

end Runs

/-- The alarm has never been set. -/
def idle : State := ⟨0, 0#32, false, 0#32, false, 0, []⟩

/-- An alarm of two microseconds, of which one is over when it is set, while another thread
acknowledges. -/
theorem alarm_due_two : ∃ c₁ c : Config Bool Op.Answer Unit State,
    (machine .rp2350 Bool).Reach ⟨idle, Function.update (fun _ => alarm0Ack .rp2350) true
      (alarm0Arm .rp2350 2#32)⟩ c₁ ∧ c₁.threads true = .ret () ∧
    (machine .rp2350 Bool).Reach ⟨c₁.shared, fun _ => alarm0Ack .rp2350⟩ c ∧
    c.shared.fired = [2] ∧ Fires 2#32 0 c₁.shared.now c.shared := by
  let t : Machine.Choice Bool Unit := .thread true
  let u : Machine.Choice Bool Unit := .thread false
  obtain ⟨c₁, h₁, hend, c, h, hfired⟩ : ∃ c₁,
      Machine.play (fun _ => State.answer .rp2350) State.move
        ⟨idle, Function.update (fun _ => alarm0Ack .rp2350) true (alarm0Arm .rp2350 2#32)⟩
        [t, t, .env (), u, t] = some c₁ ∧ c₁.threads true = .ret () ∧
      ∃ c, Machine.play (fun _ => State.answer .rp2350) State.move
        ⟨c₁.shared, fun _ => alarm0Ack .rp2350⟩ [.env (), .env (), t] = some c ∧
        c.shared.fired = [2] := ⟨_, rfl, rfl, _, rfl, rfl⟩
  have hack : (alarm0Ack .rp2350).Only (Apart .rp2350) := ⟨.inl rfl, fun _ => trivial⟩
  have hc₁ : (machine .rp2350 Bool).Reach _ c₁ := reach_of_play _ h₁
  have hc : (machine .rp2350 Bool).Reach _ c := reach_of_play _ h
  exact ⟨c₁, c, hc₁, hend, hc, hfired,
    alarm_due (fun _ _ => hack) hc₁ hend (fun _ => hack) hc⟩

end Alarm
