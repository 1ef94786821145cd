import Inmojomni.Effect.History
import Inmojomni.Effect.RelyGuarantee
import Inmojomni.Mmio
import Mathlib.Algebra.BigOperators.Group.Finset.Basic
import Mathlib.Algebra.BigOperators.Fin
import Mathlib.Data.Fintype.Basic

/-!
# Dual-core synchronization: the 32 hardware spinlocks

SIO implements the locks: a read of SPINLOCK<N> attempts the claim and answers non-zero if it
succeeded, a write releases it. `Spinlock` is the driver, `Sio.access` the hardware, and
`lockedIncrements` the critical section that both cores run in the on-target test.

The argument is a rely–guarantee one, over the record of all accesses. Every access of a core
keeps `Consistent`: at most one core is inside, the lock is held while one is, and the counter
holds the number of stores to it. What a core needs from the others is that the counter stays
put while it is inside itself. So each increment, although a read and a later write, adds one.
-/

open Mmio Effect

/-! ### The driver -/

/-- The claim-state bitmap. -/
def sioSpinlockSt : Word := 0xD000005C

/-- Read claims, write frees. -/
def sioSpinlock0 : Word := 0xD0000100

/-- Hardware spinlock `n`. -/
structure Spinlock where
  n : Fin 32

namespace Spinlock

def addr (l : Spinlock) : Word := sioSpinlock0 + BitVec.ofNat 32 (4 * l.n)

/-- One claim attempt; `true` if the lock is now held by this core. -/
def tryAcquire (l : Spinlock) : Firmware Bool := do
  return (← read32 l.addr) != 0

def acquire (l : Spinlock) : Firmware Unit :=
  (Prog.poll (Op.read32 l.addr) fun r : Word => r != 0).bind fun _ => .ret ()

def release (l : Spinlock) : Firmware Unit := write32 l.addr 1

/-- Read the claim state without acquiring. -/
def isLocked (l : Spinlock) : Firmware Bool := do
  return (← read32 sioSpinlockSt) &&& (1#32 <<< (BitVec.ofNat 32 l.n)) != 0

end Spinlock

/-- The counter that both cores increment. -/
def sharedCtr : Word := 0x20024020

/-- `incs` increments of the counter under spinlock 0. -/
def lockedIncrements (incs : ℕ) : Firmware Unit :=
  let lock : Spinlock := ⟨0⟩
  Prog.forRange (fun _ => do
    lock.acquire
    write32 sharedCtr ((← read32 sharedCtr) + 1)
    lock.release) 0 incs

/-! ### The hardware -/

/-- Which locks are claimed, and the memory behind every other address. -/
structure Sio where
  held : Fin 32 → Bool
  mem : Word → Word

namespace Sio

/-- The lock at an address. -/
def lockAt (addr : Word) : Option (Fin 32) :=
  let d := (addr - sioSpinlock0).toNat
  if h : d < 4 * 32 then some ⟨d / 4, by omega⟩ else none

/-- The bitmap of the claimed locks. -/
def status (s : Sio) : Word := BitVec.ofNat 32 (∑ n, if s.held n then 2 ^ n.val else 0)

/-- How an access is answered and what it does. The code here makes word accesses only. -/
def access : (e : Op) → Sio → e.Answer → Sio → Prop
  | .read32 addr, s, (r : Word), s' =>
    match lockAt addr with
    | some n =>
      if s.held n then r = 0 ∧ s' = s
      else r ≠ 0 ∧ s' = { s with held := Function.update s.held n true }
    | none => r = (if addr = sioSpinlockSt then s.status else s.mem addr) ∧ s' = s
  | .write32 addr v, s, _, s' =>
    match lockAt addr with
    | some n => s' = { s with held := Function.update s.held n false }
    | none => s' = { s with mem := Function.update s.mem addr v }
  | _, _, _, _ => False

theorem lockAt_addr (l : Spinlock) : lockAt l.addr = some l.n := by
  have hd : (l.addr - sioSpinlock0).toNat = 4 * l.n := by
    rw [Spinlock.addr, BitVec.add_comm, BitVec.add_sub_cancel, BitVec.toNat_ofNat]
    omega
  simp only [lockAt, hd]
  rw [dif_pos (by omega)]
  simp

theorem lockAt_sharedCtr : lockAt sharedCtr = none := by decide

end Sio

/-- The cores `T` on the hardware. -/
def sioMachine (T : Type) : Machine T Op.Answer Sio where
  access _ := Sio.access

/-! ### What the record says -/

section Record

variable {T : Type}

/-- Core `t` is between a successful claim of the lock and its release: of the two, the
claim is the newer one in the record. -/
def Inside (l : Spinlock) (t : T) : List (Event T Op.Answer) → Prop
  | [] => False
  | ⟨u, .read32 addr, (r : Word)⟩ :: tr => (u = t ∧ addr = l.addr ∧ r ≠ 0) ∨ Inside l t tr
  | ⟨u, .write32 addr _, _⟩ :: tr => ¬ (u = t ∧ addr = l.addr) ∧ Inside l t tr
  | _ :: tr => Inside l t tr

/-- The operation is a store to the counter. -/
def storesCtr : Op → Bool
  | .write32 addr _ => addr == sharedCtr
  | _ => false

/-- How often core `t` has stored to the counter. -/
def increments [DecidableEq T] (t : T) (tr : List (Event T Op.Answer)) : ℕ :=
  tr.countP fun e => e.thread = t && storesCtr e.op

variable {l : Spinlock} {t u : T} {addr v : Word} {tr : List (Event T Op.Answer)}

theorem inside_read {r : Word} : Inside l t (⟨u, .read32 addr, r⟩ :: tr) ↔
    (u = t ∧ addr = l.addr ∧ r ≠ 0) ∨ Inside l t tr := Iff.rfl

theorem inside_write {r : Unit} : Inside l t (⟨u, .write32 addr v, r⟩ :: tr) ↔
    ¬ (u = t ∧ addr = l.addr) ∧ Inside l t tr := Iff.rfl

/-- A read that is no successful claim moves nobody. -/
theorem inside_read_idle {r : Word} (h : addr = l.addr → r = 0) :
    Inside l t (⟨u, .read32 addr, r⟩ :: tr) ↔ Inside l t tr := by
  rw [inside_read]
  exact or_iff_right fun ⟨_, ha, hr⟩ => hr (h ha)

theorem inside_write_other {r : Unit} (h : addr ≠ l.addr) :
    Inside l t (⟨u, .write32 addr v, r⟩ :: tr) ↔ Inside l t tr := by
  rw [inside_write]
  exact and_iff_right fun ⟨_, ha⟩ => h ha

/-- What another core does moves nobody. -/
theorem inside_other (e : Event T Op.Answer) (h : e.thread ≠ t) :
    Inside l t (e :: tr) ↔ Inside l t tr := by
  obtain ⟨u, op, r⟩ := e
  cases op <;> simp_all [Inside]

variable [DecidableEq T]

theorem increments_cons (e : Event T Op.Answer) :
    increments t (e :: tr) = increments t tr + if e.thread = t ∧ storesCtr e.op then 1 else 0 := by
  simp [increments, List.countP_cons]

/-- An access that is no store to the counter is not counted. -/
theorem increments_idle {e : Event T Op.Answer} (h : storesCtr e.op = false) :
    increments t (e :: tr) = increments t tr := by
  rw [increments_cons, h]
  simp

end Record

/-! ### What an access keeps -/

section Protocol

variable {T : Type} [DecidableEq T] [Fintype T] {l : Spinlock}

/-- The record matches the hardware, and at most one core is inside. -/
structure Consistent (l : Spinlock) (s : Sio × List (Event T Op.Answer)) : Prop where
  unique : ∀ t u, Inside l t s.2 → Inside l u s.2 → t = u
  held : ∀ t, Inside l t s.2 → s.1.held l.n = true
  counter : s.1.mem sharedCtr = BitVec.ofNat 32 (∑ t, increments t s.2)

namespace Consistent

variable {s : Sio} {tr : List (Event T Op.Answer)}

/-- A read that claims nothing. -/
theorem read (h : Consistent l (s, tr)) (t : T) {addr r : Word} (hr : addr = l.addr → r = 0) :
    Consistent l (s, ⟨t, .read32 addr, r⟩ :: tr) where
  unique u u' hu hu' := h.unique u u' ((inside_read_idle hr).mp hu) ((inside_read_idle hr).mp hu')
  held u hu := h.held u ((inside_read_idle hr).mp hu)
  counter := by
    simp only [increments_idle (e := ⟨_, .read32 addr, r⟩) rfl]
    exact h.counter

/-- A claim of the free lock: nobody was inside. -/
theorem claim (h : Consistent l (s, tr)) (hfree : s.held l.n = false) (t : T) (r : Word) :
    Consistent l ({ s with held := Function.update s.held l.n true },
      ⟨t, .read32 l.addr, r⟩ :: tr) where
  unique u u' hu hu' := by
    have honly : ∀ w, Inside l w (⟨t, .read32 l.addr, r⟩ :: tr) → t = w := by
      rintro w (⟨hw, -, -⟩ | hw)
      · exact hw
      · have hheld := h.held w hw
        simp only [hfree, Bool.false_eq_true] at hheld
    exact (honly u hu).symm.trans (honly u' hu')
  held u _ := Function.update_self _ _ _
  counter := by
    simp only [increments_idle (e := ⟨_, .read32 l.addr, r⟩) rfl]
    exact h.counter

/-- A store to the counter by the core inside, of one more than it holds. -/
theorem store (h : Consistent l (s, tr)) (hl : sharedCtr ≠ l.addr) (t : T) :
    Consistent l ({ s with mem := Function.update s.mem sharedCtr (s.mem sharedCtr + 1) },
      ⟨t, .write32 sharedCtr (s.mem sharedCtr + 1), ()⟩ :: tr) where
  unique u u' hu hu' :=
    h.unique u u' ((inside_write_other hl).mp hu) ((inside_write_other hl).mp hu')
  held u hu := h.held u ((inside_write_other hl).mp hu)
  counter := by
    have hsum : ∑ u, increments u (⟨t, .write32 sharedCtr (s.mem sharedCtr + 1), ()⟩ :: tr)
        = ∑ u, increments u tr + 1 := by
      simp [increments_cons, storesCtr, Finset.sum_add_distrib]
    rw [hsum, BitVec.ofNat_add, ← h.counter]
    exact Function.update_self sharedCtr _ s.mem

/-- A release by the core inside: nobody else was. -/
theorem release (h : Consistent l (s, tr)) (hl : sharedCtr ≠ l.addr) {t : T}
    (ht : Inside l t tr) (v : Word) :
    Consistent l ({ s with held := Function.update s.held l.n false },
      ⟨t, .write32 l.addr v, ()⟩ :: tr) where
  unique u u' hu hu' := h.unique u u' hu.2 hu'.2
  held u hu := absurd ⟨h.unique t u ht hu.2, rfl⟩ hu.1
  counter := by
    have hstore : storesCtr (.write32 l.addr v) = false := by simpa [storesCtr] using hl.symm
    simp only [increments_idle (e := ⟨_, .write32 l.addr v, ()⟩) hstore]
    exact h.counter

end Consistent

/-! ### The protocol -/

/-- What the cores owe each other: consistency, and the counter to whoever is inside. -/
def lockProtocol (l : Spinlock) : Effect.Protocol (sioMachine T).recorded where
  rely t s s' := (Consistent l s → Consistent l s') ∧ (Inside l t s'.2 ↔ Inside l t s.2) ∧
    increments t s'.2 = increments t s.2 ∧
    (Inside l t s.2 → s'.1.mem sharedCtr = s.1.mem sharedCtr)
  guar t _ s _ s' := (Consistent l s → Consistent l s') ∧
    ∀ u, u ≠ t → Inside l u s.2 → s'.1.mem sharedCtr = s.1.mem sharedCtr
  guar_rely := by
    rintro t u e ⟨s, tr⟩ ⟨s', tr'⟩ r htu ⟨-, rfl⟩ ⟨hc, hctr⟩
    -- an access of `t` is recorded as one of `t`, so it changes nothing recorded about `u`
    refine ⟨hc, inside_other _ htu, ?_, hctr u htu.symm⟩
    rw [increments_cons]
    simp [htu]
  env_rely h := h.1.elim

/-- Where core `t` stands between two accesses of its loop: whether it is inside, and how often
it has stored to the counter. -/
structure At (l : Spinlock) (t : T) (inside : Prop) (i : ℕ)
    (s : Sio × List (Event T Op.Answer)) : Prop where
  consistent : Consistent l s
  inside_iff : Inside l t s.2 ↔ inside
  increments_eq : increments t s.2 = i

namespace At

variable {t : T} {inside : Prop} {i : ℕ}

theorem stable : Stable (lockProtocol l) t (At l t inside i) :=
  fun _ _ hr h => ⟨hr.1 h.consistent, hr.2.1.trans h.inside_iff, hr.2.2.1.trans h.increments_eq⟩

/-- What a core has read from the counter stays true while it is inside. -/
theorem stable_read {r : Word} :
    Stable (lockProtocol l) t fun s => At l t True i s ∧ s.1.mem sharedCtr = r :=
  fun s s' hr h => ⟨stable s s' hr h.1, (hr.2.2.2 (h.1.inside_iff.mpr trivial)).trans h.2⟩

/-- A read that claims nothing leaves the core where it is. -/
theorem read {s : Sio} {tr : List (Event T Op.Answer)} (h : At l t inside i (s, tr))
    {addr r : Word} (hr : addr = l.addr → r = 0) :
    At l t inside i (s, ⟨t, .read32 addr, r⟩ :: tr) where
  consistent := h.consistent.read t hr
  inside_iff := (inside_read_idle hr).trans h.inside_iff
  increments_eq := (increments_idle rfl).trans h.increments_eq

end At

/-! ### One round of the loop -/

/-- Each failed claim leaves the core outside, the successful one moves it inside. -/
theorem acquire_spec (t : T) (i : ℕ) :
    Triple (lockProtocol l) t (At l t False i) l.acquire fun _ => At l t True i := by
  refine Triple.bind (Q := fun _ => At l t True i) (Triple.poll At.stable (fun _ => At.stable) ?_)
    fun _ => .ret At.stable fun _ h => h
  rintro ⟨s, tr⟩ (r : Word) ⟨s', tr'⟩ h ⟨ha, rfl⟩
  simp only [sioMachine, Sio.access, Sio.lockAt_addr] at ha
  cases hheld : s.held l.n with
  | true =>
    rw [if_pos hheld] at ha
    obtain ⟨rfl, rfl⟩ := ha
    exact ⟨⟨fun hc => hc.read t fun _ => rfl, fun _ _ _ => rfl⟩, h.read fun _ => rfl⟩
  | false =>
    rw [if_neg (by simp [hheld])] at ha
    obtain ⟨hr, rfl⟩ := ha
    have hdone : (r != 0) = true := bne_iff_ne.mpr hr
    rw [hdone]
    exact ⟨⟨fun hc => hc.claim hheld t r, fun _ _ _ => rfl⟩, h.consistent.claim hheld t r,
      iff_of_true (.inl ⟨rfl, rfl, hr⟩) trivial, (increments_idle rfl).trans h.increments_eq⟩

/-- The increment, from inside: the counter still holds what was read when it is stored. -/
theorem increment_spec (hl : sharedCtr ≠ l.addr) (t : T) (i : ℕ) :
    Triple (lockProtocol l) t (At l t True i)
      ((read32 sharedCtr).bind fun r => write32 sharedCtr (r + 1))
      fun _ => At l t True (i + 1) := by
  refine Triple.op (P := At l t True i) (e := Op.read32 sharedCtr)
    (K := fun (r : Word) s => At l t True i s ∧ s.1.mem sharedCtr = r) At.stable ?_ ?_
  · rintro ⟨s, tr⟩ (r : Word) ⟨s', tr'⟩ h ⟨ha, rfl⟩
    simp only [sioMachine, Sio.access, Sio.lockAt_sharedCtr] at ha
    obtain ⟨hr, rfl⟩ := ha
    exact ⟨⟨fun hc => hc.read t fun ha => absurd ha hl, fun _ _ _ => rfl⟩,
      h.read fun ha => absurd ha hl, hr.symm⟩
  · refine fun r => Triple.call At.stable_read (fun _ => At.stable) ?_
    rintro ⟨s, tr⟩ (_ : Unit) ⟨s', tr'⟩ ⟨h, rfl⟩ ⟨ha, rfl⟩
    simp only [sioMachine, Sio.access, Sio.lockAt_sharedCtr] at ha
    subst ha
    refine ⟨⟨fun hc => hc.store hl t, fun u hu hin => ?_⟩, h.consistent.store hl t, ?_, ?_⟩
    · exact absurd (h.consistent.unique u t hin (h.inside_iff.mpr trivial)) hu
    · exact (inside_write_other hl).trans h.inside_iff
    · rw [increments_cons, h.increments_eq]
      simp [storesCtr]

theorem release_spec (hl : sharedCtr ≠ l.addr) (t : T) (i : ℕ) :
    Triple (lockProtocol l) t (At l t True i) l.release fun _ => At l t False i := by
  refine Triple.call At.stable (fun _ => At.stable) ?_
  rintro ⟨s, tr⟩ (_ : Unit) ⟨s', tr'⟩ h ⟨ha, rfl⟩
  simp only [sioMachine, Sio.access, Sio.lockAt_addr] at ha
  subst ha
  have hin : Inside l t tr := h.inside_iff.mpr trivial
  refine ⟨⟨fun hc => hc.release hl hin 1, fun _ _ _ => rfl⟩, h.consistent.release hl hin 1, ?_, ?_⟩
  · exact iff_of_false (fun hw => hw.1 ⟨rfl, rfl⟩) id
  · have hstore : storesCtr (.write32 l.addr 1) = false := by simpa [storesCtr] using hl.symm
    exact (increments_idle hstore).trans h.increments_eq

/-- A core makes its increments one round at a time. -/
theorem lockedIncrements_spec (t : T) (incs : ℕ) :
    Triple (lockProtocol ⟨0⟩) t (At ⟨0⟩ t False 0) (lockedIncrements incs)
      fun _ => At ⟨0⟩ t False incs := by
  have hl : sharedCtr ≠ Spinlock.addr ⟨0⟩ := by decide
  refine Triple.forRange (I := fun i => At ⟨0⟩ t False i) At.stable fun i _ => ?_
  refine (acquire_spec t i).bind fun _ => ?_
  have hround := (increment_spec hl t i).bind fun _ => release_spec hl t (i + 1)
  rwa [Prog.bind_assoc] at hround

end Protocol

/-! ### Both cores -/

/-- The cores. -/
inductive Core
  | core0
  | core1
  deriving DecidableEq

instance : Fintype Core where
  elems := {.core0, .core1}
  complete t := by cases t <;> decide

/-- `m` rounds of the loop on core 0, and `n` on core 1. -/
def contention (m n : ℕ) : Core → Firmware Unit
  | .core0 => lockedIncrements m
  | .core1 => lockedIncrements n

/-- How many rounds a core makes. -/
def Core.rounds (m n : ℕ) : Core → ℕ
  | .core0 => m
  | .core1 => n

theorem contention_spec (m n : ℕ) (t : Core) :
    Triple (lockProtocol ⟨0⟩) t (At ⟨0⟩ t False 0) (contention m n t)
      fun _ => At ⟨0⟩ t False (t.rounds m n) := by
  cases t with
  | core0 => exact lockedIncrements_spec Core.core0 m
  | core1 => exact lockedIncrements_spec Core.core1 n

/-- **Mutual exclusion.** In every interleaving at most one core is between a successful acquire
and its release, and when both loops have finished, from a counter of 0, no increment is lost.
Lock 0 need not be free at the start: while it is not, nobody gets inside. -/
theorem spinlock_contention (m n : ℕ) {s₀ : Sio} (hctr : s₀.mem sharedCtr = 0) :
    (∀ c, (sioMachine Core).recorded.Reach ⟨(s₀, []), contention m n⟩ c →
      ∀ t u, Inside ⟨0⟩ t c.shared.2 → Inside ⟨0⟩ u c.shared.2 → t = u) ∧
    ∀ c, (sioMachine Core).Reach ⟨s₀, contention m n⟩ c → (∀ t, c.threads t = .ret ()) →
      (c.shared.mem sharedCtr).toNat = (m + n) % 2 ^ 32 := by
  have hinit : Consistent (T := Core) ⟨0⟩ (s₀, []) :=
    ⟨fun _ _ h => h.elim, fun _ h => h.elim, hctr⟩
  have hstart : ∀ t : Core, At ⟨0⟩ t False 0 (s₀, []) := fun _ => ⟨hinit, Iff.rfl, rfl⟩
  have hinv : ∀ c, (sioMachine Core).recorded.Reach ⟨(s₀, []), contention m n⟩ c →
      Consistent ⟨0⟩ c.shared := fun c hc =>
    (lockProtocol ⟨0⟩).invariant (contention_spec m n) hstart hinit
      (fun _ _ _ _ _ _ hg => hg.1) (fun _ _ he => he.1.elim) hc
  refine ⟨fun c hc => (hinv c hc).unique, fun c hc hdone => ?_⟩
  obtain ⟨tr, htr⟩ := hc.recorded
  have hend : ∀ t : Core, increments t tr = t.rounds m n := fun t =>
    (Safe.result ((lockProtocol ⟨0⟩).sound (contention_spec m n) hstart htr t)
      (hdone t)).increments_eq
  have hsum : ∑ t, increments t tr = m + n := by
    rw [Finset.sum_congr rfl fun t _ => hend t]
    rfl
  rw [(hinv _ htr).counter, hsum, BitVec.toNat_ofNat]

/-- The answers of the hardware, with the lock's own bit for a successful claim. -/
def Sio.answer : (e : Op) → Sio → Option (e.Answer × Sio)
  | .read32 addr, s =>
    match lockAt addr with
    | some n =>
      if s.held n then some ((0 : Word), s)
      else some (1#32 <<< n.val, { s with held := Function.update s.held n true })
    | none => some ((if addr = sioSpinlockSt then s.status else s.mem addr : Word), s)
  | .write32 addr v, s =>
    match lockAt addr with
    | some n => some ((), { s with held := Function.update s.held n false })
    | none => some ((), { s with mem := Function.update s.mem addr v })
  | _, _ => none

theorem Sio.access_of_answer {e : Op} {s : Sio} {p : e.Answer × Sio}
    (h : Sio.answer e s = some p) : Sio.access e s p.1 p.2 := by
  have hbit : ∀ n : Fin 32, 1#32 <<< n.val ≠ 0 := by decide
  cases e with
  | read32 addr =>
    simp only [answer, access] at h ⊢
    cases hl : lockAt addr with
    | some n =>
      simp only [hl] at h ⊢
      split at h <;> cases h
      · simp [*]
      · simpa [*] using hbit n
    | none =>
      simp only [hl] at h ⊢
      cases h
      exact ⟨rfl, rfl⟩
  | write32 addr v =>
    simp only [answer, access] at h ⊢
    cases hl : lockAt addr <;> simp only [hl] at h ⊢ <;> cases h <;> rfl
  | read8 addr => cases h
  | write8 addr v => cases h
  | external f => cases h

/-- A schedule of the cores is a run. -/
theorem Sio.reach_of_play {c c' : Config Core Op.Answer Unit Sio} (ts : List Core)
    (h : Machine.play (fun _ => Sio.answer) (fun (_ : Empty) _ => none) c (ts.map .thread)
      = some c') : (sioMachine Core).Reach c c' := by
  have hacc : ∀ (t : Core) (e : Op) (s : Sio) (p : e.Answer × Sio), Sio.answer e s = some p →
      (sioMachine Core).access t e s p.1 p.2 := fun _ _ _ _ h => Sio.access_of_answer h
  exact Machine.Reach.of_play hacc (fun (i : Empty) _ _ _ => i.elim) _ h

/-- One round each, core 1 trying in vain while core 0 is inside. -/
theorem spinlock_contention_overlap :
    ∃ c, (sioMachine Core).Reach ⟨⟨fun _ => false, fun _ => 0⟩, contention 1 1⟩ c ∧
      (∀ t, c.threads t = .ret ()) ∧ (c.shared.mem sharedCtr).toNat = 2 := by
  have h := Sio.reach_of_play (c := ⟨⟨fun _ => false, fun _ => 0⟩, contention 1 1⟩)
    (List.replicate 2 Core.core0 ++ List.replicate 4 Core.core1 ++ List.replicate 3 Core.core0
      ++ List.replicate 5 Core.core1) rfl
  exact ⟨_, h, fun t => by cases t <;> rfl,
    (spinlock_contention 1 1 rfl).2 _ h fun t => by cases t <;> rfl⟩
