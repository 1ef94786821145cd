import Inmojomni.Effect.Atomic
import Inmojomni.Effect.Frame
import Inmojomni.Effect.History
import Inmojomni.Effect.Trace
import Inmojomni.Sync

/-!
# Critical sections

The locks do not know what they protect. `Sections` is the discipline that makes them useful: every
lock guards a region of memory of its own, and what is done under a lock touches only the region of
that lock. A program that keeps to it is a client of `LockOp`: critical sections, attempts at one,
and accesses to memory that no lock guards.

`sections_atomic` says what the discipline is worth. However the accesses of the threads interleave,
the sections happen one at a time, each of them alone and from beginning to end; sections under
different locks do not have to wait for each other for that.

A section takes effect when it releases its lock. Until then the memory shows it half done, so the
state above is not the memory: it is a history variable, `Ghost.kept`, into which a release copies
the region of its lock.
-/

open Mmio Effect

namespace Sync

/-! ### The discipline -/

/-- An operation touches only the region `A`. -/
def Within (A : Set Word) : Op → Prop
  | .read32 addr => addr ∈ A
  | .write32 addr _ => addr ∈ A
  | _ => False

/-- The critical sections of a program, each with its lock, its code and the type of its result, and
the memory that each lock guards. -/
structure Sections (ι : Type) (ρ : ι → Type) where
  lock : ι → Spinlock
  body : (i : ι) → Firmware (ρ i)
  region : Fin 32 → Set Word
  disjoint : ∀ {m n : Fin 32} {addr : Word}, addr ∈ region m → addr ∈ region n → m = n
  memory : ∀ {n : Fin 32} {addr : Word}, addr ∈ region n →
    Sio.lockAt addr = none ∧ addr ≠ sioSpinlockSt
  guarded : ∀ i, (body i).Only (Within (region (lock i).n))

section Discipline

variable {ι : Type} {ρ : ι → Type}

/-- Memory that no lock guards. -/
def Sections.Unguarded (S : Sections ι ρ) (addr : Word) : Prop :=
  (∀ n, addr ∉ S.region n) ∧ Sio.lockAt addr = none ∧ addr ≠ sioSpinlockSt

/-- What a program that keeps to the discipline does. -/
inductive LockOp (S : Sections ι ρ)
  | locked (i : ι)
  | tried (i : ι)
  | load (addr : { addr // S.Unguarded addr })
  | store (addr : { addr // S.Unguarded addr }) (v : Word)

/-- An attempt answers nothing if the lock was taken. -/
def LockOp.Answer {S : Sections ι ρ} : LockOp S → Type
  | locked i => ρ i
  | tried i => Option (ρ i)
  | load _ => Word
  | store _ _ => Unit

/-- The code: the section between `acquire` and `release`, or behind a `try_acquire`. -/
def LockOp.code {S : Sections ι ρ} : (e : LockOp S) → Firmware e.Answer
  | locked i => do
    (S.lock i).acquire
    let a ← S.body i
    (S.lock i).release
    return a
  | tried i => do
    if ← (S.lock i).tryAcquire then
      let a ← S.body i
      (S.lock i).release
      return some a
    else return none
  | load addr => read32 addr
  | store addr v => write32 addr v

/-! ### Sections as single steps -/

/-- Memory alone. -/
def memoryAccess : (e : Op) → (Word → Word) → e.Answer → (Word → Word) → Prop
  | .read32 addr, m, (r : Word), m' => r = m addr ∧ m' = m
  | .write32 addr v, m, _, m' => m' = Function.update m addr v
  | _, _, _, _ => False

/-- The machine above: a section is one step, which runs its code alone. -/
def Sections.memoryMachine (S : Sections ι ρ) (T : Type) :
    Machine T (LockOp.Answer (S := S)) (Word → Word) where
  access _ e m r m' := match e, r with
    | .locked i, r => Exec memoryAccess (S.body i) m r m'
    | .tried _, none => m' = m
    | .tried i, some a => Exec memoryAccess (S.body i) m a m'
    | .load addr, r => memoryAccess (.read32 addr) m r m'
    | .store addr v, r => memoryAccess (.write32 addr v) m r m'

theorem memoryAccess_unique (e : Op) (m : Word → Word) (r : e.Answer) (n : Word → Word)
    (r' : e.Answer) (n' : Word → Word) (h : memoryAccess e m r n) (h' : memoryAccess e m r' n') :
    r' = r ∧ n' = n := by
  cases e with
  | read32 addr => exact ⟨h'.1.trans h.1.symm, h'.2.trans h.2.symm⟩
  | write32 addr v => exact ⟨rfl, h'.trans h.symm⟩
  | read8 addr => exact h.elim
  | write8 addr v => exact h.elim
  | external f => exact h.elim

open Classical in
/-- What a section answers, run alone from `m`. -/
noncomputable def Sections.outcome (S : Sections ι ρ) (i : ι) (m : Word → Word) : Option (ρ i) :=
  if h : ∃ a m', Exec memoryAccess (S.body i) m a m' then some h.choose else none

theorem Sections.outcome_eq {S : Sections ι ρ} {i : ι} {m m' : Word → Word} {a : ρ i}
    (h : Exec memoryAccess (S.body i) m a m') : S.outcome i m = some a := by
  have hex : ∃ a m', Exec memoryAccess (S.body i) m a m' := ⟨a, m', h⟩
  obtain ⟨n, hn⟩ := hex.choose_spec
  rw [outcome, dif_pos hex, (Exec.unique memoryAccess_unique h hn).1]

/-! ### The history variable -/

/-- Who holds the locks, and the memory with the regions as their last releases left them. -/
structure Ghost (T : Type) where
  owner : Fin 32 → Option T
  kept : Word → Word

variable {T : Type}

open Classical in
/-- The region of lock `n` from `m`, the rest from `o`. -/
noncomputable def Sections.merge (S : Sections ι ρ) (n : Fin 32) (m o : Word → Word) :
    Word → Word :=
  fun addr => if addr ∈ S.region n then m addr else o addr

open Classical in
/-- What an access of thread `t` changes. -/
noncomputable def Sections.note (S : Sections ι ρ) (t : T) :
    (e : Op) → Sio → e.Answer → Ghost T → Ghost T
  | .read32 addr, _, (r : Word), g =>
    match Sio.lockAt addr with
    | some n => if r = 0 then g else { g with owner := Function.update g.owner n (some t) }
    | none => g
  | .write32 addr v, s, _, g =>
    match Sio.lockAt addr with
    | some n => ⟨Function.update g.owner n none, S.merge n s.mem g.kept⟩
    | none =>
      if ∃ n, addr ∈ S.region n then g else { g with kept := Function.update g.kept addr v }
  | _, _, _, g => g

theorem Sections.merge_of_mem (S : Sections ι ρ) {n : Fin 32} {addr : Word} (h : addr ∈ S.region n)
    (m o : Word → Word) : S.merge n m o addr = m addr := if_pos h

theorem Sections.merge_of_notMem (S : Sections ι ρ) {n : Fin 32} {addr : Word}
    (h : addr ∉ S.region n) (m o : Word → Word) : S.merge n m o addr = o addr := if_neg h

theorem Sections.merge_self (S : Sections ι ρ) (n : Fin 32) (m : Word → Word) :
    S.merge n m m = m := by
  funext addr
  exact ite_self _

/-- A change inside the region. -/
theorem Sections.merge_update (S : Sections ι ρ) {n : Fin 32} {addr : Word} (h : addr ∈ S.region n)
    (m o : Word → Word) (v : Word) :
    S.merge n (Function.update m addr v) o = Function.update (S.merge n m o) addr v := by
  funext a
  by_cases ha : a = addr
  · subst ha
    rw [S.merge_of_mem h, Function.update_self, Function.update_self]
  · by_cases hn : a ∈ S.region n
    · rw [S.merge_of_mem hn, Function.update_of_ne ha, Function.update_of_ne ha, S.merge_of_mem hn]
    · rw [S.merge_of_notMem hn, Function.update_of_ne ha, S.merge_of_notMem hn]

/-- Regions that agree merge alike. -/
theorem Sections.merge_congr (S : Sections ι ρ) {n : Fin 32} {m m' : Word → Word}
    (h : ∀ addr ∈ S.region n, m' addr = m addr) (o : Word → Word) :
    S.merge n m' o = S.merge n m o := by
  funext a
  by_cases hn : a ∈ S.region n
  · rw [S.merge_of_mem hn, S.merge_of_mem hn, h a hn]
  · rw [S.merge_of_notMem hn, S.merge_of_notMem hn]

/-- The threads on the hardware, with the history variable. -/
noncomputable def Sections.machine (S : Sections ι ρ) (T : Type) :
    Machine T Op.Answer (Sio × Ghost T) := (sioMachine T).track S.note

/-- Lock `n` goes to `t`. -/
def claimed (n : Fin 32) (t : T) (s : Sio × Ghost T) : Sio × Ghost T :=
  (⟨Function.update s.1.held n true, s.1.mem⟩, ⟨Function.update s.2.owner n (some t), s.2.kept⟩)

/-- Lock `n` is free again, and its region counts. -/
noncomputable def Sections.released (S : Sections ι ρ) (n : Fin 32) (s : Sio × Ghost T) :
    Sio × Ghost T :=
  (⟨Function.update s.1.held n false, s.1.mem⟩,
    ⟨Function.update s.2.owner n none, S.merge n s.1.mem s.2.kept⟩)

/-- A store to a region. -/
def stored (addr v : Word) (s : Sio × Ghost T) : Sio × Ghost T :=
  (⟨s.1.held, Function.update s.1.mem addr v⟩, s.2)

/-- A store to memory that no lock guards. -/
def storedUnguarded (addr v : Word) (s : Sio × Ghost T) : Sio × Ghost T :=
  (⟨s.1.held, Function.update s.1.mem addr v⟩, ⟨s.2.owner, Function.update s.2.kept addr v⟩)

section Access

variable {S : Sections ι ρ} {t : T} {s s' : Sio × Ghost T}

/-- A claim fails, or it takes the lock from nobody. -/
theorem access_claim {l : Spinlock} {r : Word}
    (ha : (S.machine T).access t (.read32 l.addr) s r s') :
    r = 0 ∧ s' = s ∨ r ≠ 0 ∧ s.1.held l.n = false ∧ s' = claimed l.n t s := by
  obtain ⟨hsio, hghost⟩ := ha
  simp only [sioMachine, Sio.access, Sections.note, Sio.lockAt_addr] at hsio hghost
  cases hheld : s.1.held l.n with
  | true =>
    rw [if_pos hheld] at hsio
    obtain ⟨hr, hs⟩ := hsio
    rw [if_pos hr] at hghost
    exact .inl ⟨hr, Prod.ext hs hghost⟩
  | false =>
    rw [if_neg (by simp [hheld])] at hsio
    obtain ⟨hr, hs⟩ := hsio
    rw [if_neg hr] at hghost
    exact .inr ⟨hr, rfl, Prod.ext hs hghost⟩

theorem access_release {l : Spinlock} {v : Word} {r : Unit}
    (ha : (S.machine T).access t (.write32 l.addr v) s r s') : s' = S.released l.n s := by
  obtain ⟨hsio, hghost⟩ := ha
  simp only [sioMachine, Sio.access, Sections.note, Sio.lockAt_addr] at hsio hghost
  exact Prod.ext hsio hghost

theorem access_load {addr r : Word} (hlock : Sio.lockAt addr = none) (hst : addr ≠ sioSpinlockSt)
    (ha : (S.machine T).access t (.read32 addr) s r s') : r = s.1.mem addr ∧ s' = s := by
  obtain ⟨hsio, hghost⟩ := ha
  simp only [sioMachine, Sio.access, Sections.note, hlock, if_neg hst] at hsio hghost
  exact ⟨hsio.1, Prod.ext hsio.2 hghost⟩

theorem access_store {addr v : Word} {r : Unit} {n : Fin 32} (hn : addr ∈ S.region n)
    (ha : (S.machine T).access t (.write32 addr v) s r s') : s' = stored addr v s := by
  obtain ⟨hsio, hghost⟩ := ha
  simp only [sioMachine, Sio.access, Sections.note, (S.memory hn).1] at hsio hghost
  rw [if_pos ⟨n, hn⟩] at hghost
  exact Prod.ext hsio hghost

theorem access_store_unguarded {addr v : Word} {r : Unit} (h : S.Unguarded addr)
    (ha : (S.machine T).access t (.write32 addr v) s r s') : s' = storedUnguarded addr v s := by
  obtain ⟨hsio, hghost⟩ := ha
  simp only [sioMachine, Sio.access, Sections.note, h.2.1] at hsio hghost
  rw [if_neg (not_exists.mpr h.1)] at hghost
  exact Prod.ext hsio hghost

end Access

/-! ### What the threads owe each other -/

/-- A lock with an owner is held, and memory that is not in the region of an owner is as the last
releases left it. -/
structure Consistent (S : Sections ι ρ) (s : Sio × Ghost T) : Prop where
  held : ∀ n t, s.2.owner n = some t → s.1.held n = true
  kept : ∀ addr, (∀ n, addr ∈ S.region n → s.2.owner n = none) → s.1.mem addr = s.2.kept addr

/-- Thread `t` keeps its locks, and gets no other; and their regions are as they were. -/
def Spares (S : Sections ι ρ) (t : T) (s s' : Sio × Ghost T) : Prop :=
  ∀ n, (s'.2.owner n = some t ↔ s.2.owner n = some t) ∧ (s.2.owner n = some t →
    ∀ addr ∈ S.region n, s'.1.mem addr = s.1.mem addr ∧ s'.2.kept addr = s.2.kept addr)

/-- Each thread spares the others. -/
noncomputable def Sections.protocol (S : Sections ι ρ) (T : Type) : Protocol (S.machine T) where
  rely t s s' := (Consistent S s → Consistent S s') ∧ Spares S t s s'
  guar t _ s _ s' := (Consistent S s → Consistent S s') ∧ ∀ u, t ≠ u → Spares S u s s'
  guar_rely := fun htu _ hg => ⟨hg.1, hg.2 _ htu⟩
  env_rely := fun h => h.1.elim

section Protocol

variable {S : Sections ι ρ} {t u : T} {s : Sio × Ghost T} {n : Fin 32}

theorem Spares.refl (S : Sections ι ρ) (t : T) (s : Sio × Ghost T) : Spares S t s s :=
  fun _ => ⟨Iff.rfl, fun _ _ _ => ⟨rfl, rfl⟩⟩

theorem owner_claimed (n : Fin 32) (t : T) (s : Sio × Ghost T) :
    (claimed n t s).2.owner n = some t := Function.update_self _ _ _

theorem owner_claimed_of_ne {m : Fin 32} (h : m ≠ n) (t : T) (s : Sio × Ghost T) :
    (claimed n t s).2.owner m = s.2.owner m := Function.update_of_ne h _ _

theorem owner_released (S : Sections ι ρ) (n : Fin 32) (s : Sio × Ghost T) :
    (S.released n s).2.owner n = none := Function.update_self _ _ _

theorem owner_released_of_ne {m : Fin 32} (h : m ≠ n) (S : Sections ι ρ) (s : Sio × Ghost T) :
    (S.released n s).2.owner m = s.2.owner m := Function.update_of_ne h _ _

theorem Consistent.claim (h : Consistent S s) (n : Fin 32) (t : T) :
    Consistent S (claimed n t s) := by
  refine ⟨fun m u hm => ?_, fun addr haddr => h.kept addr fun m hm => ?_⟩
  · by_cases hmn : m = n
    · subst hmn
      exact Function.update_self _ _ _
    · rw [owner_claimed_of_ne hmn] at hm
      exact (Function.update_of_ne hmn _ _).trans (h.held m u hm)
  · have hnone := haddr m hm
    by_cases hmn : m = n
    · subst hmn
      rw [owner_claimed] at hnone
      cases hnone
    · rwa [owner_claimed_of_ne hmn] at hnone

/-- A free lock has no owner. -/
theorem Consistent.spares_claim (h : Consistent S s) (hfree : s.1.held n = false) (htu : t ≠ u) :
    Spares S u s (claimed n t s) := by
  refine fun m => ⟨?_, fun _ _ _ => ⟨rfl, rfl⟩⟩
  by_cases hmn : m = n
  · subst hmn
    rw [owner_claimed]
    refine iff_of_false (fun he => htu (Option.some.inj he)) fun hu => ?_
    exact absurd (h.held m u hu) (by simp [hfree])
  · rw [owner_claimed_of_ne hmn]

theorem Consistent.release (h : Consistent S s) (n : Fin 32) : Consistent S (S.released n s) := by
  refine ⟨fun m u hm => ?_, fun addr haddr => ?_⟩
  · by_cases hmn : m = n
    · subst hmn
      rw [owner_released] at hm
      cases hm
    · rw [owner_released_of_ne hmn] at hm
      exact (Function.update_of_ne hmn _ _).trans (h.held m u hm)
  · by_cases hn : addr ∈ S.region n
    · exact (S.merge_of_mem hn _ _).symm
    · refine (h.kept addr fun m hm => ?_).trans (S.merge_of_notMem hn _ _).symm
      have hmn : m ≠ n := fun he => hn (he ▸ hm)
      have hnone := haddr m hm
      rwa [owner_released_of_ne hmn] at hnone

theorem spares_release (hown : s.2.owner n = some t) (htu : t ≠ u) :
    Spares S u s (S.released n s) := by
  intro m
  by_cases hmn : m = n
  · subst hmn
    have hne : s.2.owner m ≠ some u := fun he => htu (Option.some.inj (hown.symm.trans he))
    rw [owner_released]
    exact ⟨iff_of_false (by simp) hne, fun hu => absurd hu hne⟩
  · refine ⟨by rw [owner_released_of_ne hmn], fun _ addr hm => ⟨rfl, ?_⟩⟩
    exact S.merge_of_notMem (fun hn => hmn (S.disjoint hm hn)) _ _

/-- A store by the owner of the lock, inside its region. -/
theorem Consistent.store (h : Consistent S s) (hown : s.2.owner n = some t) {addr : Word}
    (hn : addr ∈ S.region n) (v : Word) : Consistent S (stored addr v s) := by
  refine ⟨h.held, fun a ha => ?_⟩
  have hne : a ≠ addr := by
    rintro rfl
    exact absurd ((ha n hn).symm.trans hown) (by simp)
  exact (Function.update_of_ne hne _ _).trans (h.kept a ha)

theorem spares_store (hown : s.2.owner n = some t) {addr : Word} (hn : addr ∈ S.region n)
    (v : Word) (htu : t ≠ u) : Spares S u s (stored addr v s) := by
  refine fun m => ⟨Iff.rfl, fun hu a ha => ⟨Function.update_of_ne ?_ _ _, rfl⟩⟩
  rintro rfl
  obtain rfl := S.disjoint ha hn
  exact htu (Option.some.inj (hown.symm.trans hu))

theorem Consistent.storeUnguarded (h : Consistent S s) (addr v : Word) :
    Consistent S (storedUnguarded addr v s) := by
  refine ⟨h.held, fun a ha => ?_⟩
  change Function.update s.1.mem addr v a = Function.update s.2.kept addr v a
  by_cases hne : a = addr
  · rw [hne, Function.update_self, Function.update_self]
  · rw [Function.update_of_ne hne, Function.update_of_ne hne, h.kept a ha]

theorem spares_storeUnguarded {addr : Word} (haddr : S.Unguarded addr) (v : Word) (u : T)
    (s : Sio × Ghost T) : Spares S u s (storedUnguarded addr v s) := by
  refine fun m => ⟨Iff.rfl, fun _ a ha => ?_⟩
  have hne : a ≠ addr := by
    rintro rfl
    exact haddr.1 m ha
  exact ⟨Function.update_of_ne hne _ _, Function.update_of_ne hne _ _⟩

end Protocol

/-! ### The sections take effect at one point -/

/-- A section takes effect when it releases its lock, with what its code answers on the memory as
the last release left it; an access to unguarded memory when it is made. -/
noncomputable def commit (S : Sections ι ρ) :
    (e' : LockOp S) → (e : Op) → e.Answer → Sio × Ghost T → Option e'.Answer
  | .locked i, .write32 addr _, _, s =>
    if addr = (S.lock i).addr then S.outcome i s.2.kept else none
  | .tried i, .write32 addr _, _, s =>
    if addr = (S.lock i).addr then (S.outcome i s.2.kept).map some else none
  | .load _, .read32 _, (r : Word), _ => some r
  | .store _ _, .write32 _ _, _, _ => some ()
  | _, _, _, _ => none

/-- Between two operations a thread holds no lock. -/
def Outside (S : Sections ι ρ) (t : T) (s : Sio × Ghost T) : Prop :=
  Consistent S s ∧ ∀ n, s.2.owner n ≠ some t

/-- Thread `t` holds lock `n`. -/
def Inside (S : Sections ι ρ) (n : Fin 32) (t : T) (s : Sio × Ghost T) : Prop :=
  Consistent S s ∧ ∀ m, s.2.owner m = some t ↔ m = n

/-- How what the threads do on the hardware is read as sections on the memory. -/
noncomputable def linearization (S : Sections ι ρ) (T : Type) :
    Linearization (S.machine T) (S.memoryMachine T) where
  abs s := s.2.kept
  protocol := S.protocol T
  inv := Outside S
  commit := commit S
  inv_stable := fun _ _ hr h => ⟨hr.1 h.1, fun n he => h.2 n ((hr.2 n).1.mp he)⟩
  env_abs := fun h => h.1.elim

section Calls

variable {S : Sections ι ρ} {t : T} {e' : LockOp S}

/-- The duties of thread `t` inside operation `e'`. -/
noncomputable abbrev duty (S : Sections ι ρ) (t : T) (e' : LockOp S) :=
  (linearization S T).duty t e'

theorem Inside.stable (n : Fin 32) : Stable (S.protocol T) t (Inside S n t) :=
  fun _ _ hr h => ⟨hr.1 h.1, fun m => (hr.2 m).1.trans (h.2 m)⟩

/-- The region of the lock as it was released, and no effect yet. -/
def Fresh (S : Sections ι ρ) (n : Fin 32) (t : T) (s : Sio × Ghost T) : Prop :=
  Inside S n t s ∧ ∀ addr ∈ S.region n, s.1.mem addr = s.2.kept addr

theorem Fresh.stable (n : Fin 32) : Stable (S.protocol T) t (Fresh S n t) := by
  intro s s' hr h
  refine ⟨Inside.stable n s s' hr h.1, fun addr ha => ?_⟩
  obtain ⟨hmem, hkept⟩ := (hr.2 n).2 ((h.1.2 n).mpr rfl) addr ha
  rw [hmem, hkept, h.2 addr ha]

/-- A claim of the lock, from outside. -/
theorem claim_spec {l : Spinlock} {s s' : Sio × Ghost T} {r : Word} (hs : Outside S t s)
    (ha : (S.machine T).access t (.read32 l.addr) s r s') :
    ((Consistent S s → Consistent S s') ∧ ∀ u, t ≠ u → Spares S u s s') ∧ s'.2.kept = s.2.kept ∧
      if r != 0 then Fresh S l.n t s' else Outside S t s' := by
  obtain ⟨hr, rfl⟩ | ⟨hr, hfree, rfl⟩ := access_claim ha
  · refine ⟨⟨id, fun u _ => .refl S u s'⟩, rfl, ?_⟩
    rw [if_neg (by simp [hr])]
    exact hs
  · refine ⟨⟨fun h => h.claim l.n t, fun u htu => hs.1.spares_claim hfree htu⟩, rfl, ?_⟩
    have hinside : Inside S l.n t (claimed l.n t s) := by
      refine ⟨hs.1.claim l.n t, fun m => ?_⟩
      by_cases hm : m = l.n
      · subst hm
        exact iff_of_true (owner_claimed _ _ _) rfl
      · rw [owner_claimed_of_ne hm]
        exact iff_of_false (hs.2 m) hm
    rw [if_pos (bne_iff_ne.mpr hr)]
    refine ⟨hinside, fun addr haddr => hs.1.kept addr fun m hm => ?_⟩
    obtain rfl := S.disjoint hm haddr
    cases hown : s.2.owner l.n with
    | none => rfl
    | some u => exact absurd (hs.1.held _ _ hown) (by simp [hfree])

theorem acquire_spec (l : Spinlock)
    (hc : ∀ (r : Word) (s : Sio × Ghost T), commit S e' (.read32 l.addr) r s = none) :
    Triple (duty S t e') () (fun s => Outside S t s.1 ∧ s.2 = none) l.acquire
      fun _ s => Fresh S l.n t s.1 ∧ s.2 = none := by
  have hout := (linearization S T).stable_duty (t := t) e' none (linearization S T).inv_stable
  have hin := (linearization S T).stable_duty e' none (Fresh.stable (S := S) (t := t) l.n)
  refine Triple.bind (Q := fun _ s => Fresh S l.n t s.1 ∧ s.2 = none)
    (Triple.poll hout (fun _ => hin) ?_) fun _ => .ret hin fun _ hs => hs
  rintro s (r : Word) s' ⟨hs, hnone⟩ ⟨ha, hs'⟩
  have hcommit : (linearization S T).commit e' (.read32 l.addr) r s.1 = none := hc r s.1
  obtain ⟨hguar, hkept, hnext⟩ := claim_spec hs ha
  rw [hcommit, Option.none_or, hnone] at hs'
  refine ⟨⟨hguar, ?_⟩, ?_⟩
  · rw [hcommit]
    exact hkept
  · cases hr : r != 0 with
    | true =>
      rw [hr] at hnext
      exact ⟨hnext, hs'⟩
    | false =>
      rw [hr] at hnext
      exact ⟨hnext, hs'⟩

/-- While the rest `p` of the code `p₀` of a section is to run: on the region as it is now, `p` ends
as `p₀` does on the region as it was released, whatever is in the rest of the memory. -/
def Running {α : Type} (S : Sections ι ρ) (n : Fin 32) (t : T) (p₀ p : Firmware α)
    (s : Sio × Ghost T) : Prop :=
  Inside S n t s ∧ p.Only (Within (S.region n)) ∧
    ∀ o a m', Exec memoryAccess p (S.merge n s.1.mem o) a m' →
      Exec memoryAccess p₀ (S.merge n s.2.kept o) a m'

/-- The code of a section is at its end. -/
def Ran {α : Type} (S : Sections ι ρ) (n : Fin 32) (t : T) (p₀ : Firmware α) (a : α)
    (s : Sio × Ghost T) : Prop :=
  Inside S n t s ∧ ∀ o, Exec memoryAccess p₀ (S.merge n s.2.kept o) a (S.merge n s.1.mem o)

section Body

variable {α : Type} {n : Fin 32} {p₀ : Firmware α}

/-- Inside, the region and its last release stay as they are. -/
theorem Inside.merge_eq {s s' : Sio × Ghost T} (h : Inside S n t s)
    (hr : (S.protocol T).rely t s s') (o : Word → Word) :
    S.merge n s'.1.mem o = S.merge n s.1.mem o ∧ S.merge n s'.2.kept o = S.merge n s.2.kept o := by
  have hregion := (hr.2 n).2 ((h.2 n).mpr rfl)
  exact ⟨S.merge_congr (fun addr ha => (hregion addr ha).1) o,
    S.merge_congr (fun addr ha => (hregion addr ha).2) o⟩

theorem Running.stable (p : Firmware α) : Stable (S.protocol T) t (Running S n t p₀ p) := by
  intro s s' hr h
  refine ⟨Inside.stable n s s' hr h.1, h.2.1, fun o a m' hexec => ?_⟩
  obtain ⟨hmem, hkept⟩ := h.1.merge_eq hr o
  rw [hmem] at hexec
  rw [hkept]
  exact h.2.2 o a m' hexec

theorem Ran.stable (a : α) : Stable (S.protocol T) t (Ran S n t p₀ a) := by
  intro s s' hr h
  refine ⟨Inside.stable n s s' hr h.1, fun o => ?_⟩
  obtain ⟨hmem, hkept⟩ := h.1.merge_eq hr o
  rw [hmem, hkept]
  exact h.2 o

/-- One access of the code. -/
theorem Running.access {e : Op} {k : e.Answer → Firmware α} {s s' : Sio × Ghost T} {r : e.Answer}
    (h : Running S n t p₀ (.op e k) s) (ha : (S.machine T).access t e s r s') :
    ((Consistent S s → Consistent S s') ∧ ∀ u, t ≠ u → Spares S u s s') ∧
      s'.2.kept = s.2.kept ∧ Running S n t p₀ (k r) s' := by
  obtain ⟨hin, ⟨hwithin, honly⟩, hexec⟩ := h
  have hown : s.2.owner n = some t := (hin.2 n).mpr rfl
  cases e with
  | read32 addr =>
    have haddr : addr ∈ S.region n := hwithin
    obtain ⟨hr, rfl⟩ := access_load (S.memory haddr).1 (S.memory haddr).2 ha
    refine ⟨⟨id, fun u _ => .refl S u s'⟩, rfl, hin, honly r, fun o a m' hk => ?_⟩
    exact hexec o a m' (.op ⟨hr.trans (S.merge_of_mem haddr _ _).symm, rfl⟩ hk)
  | write32 addr v =>
    have haddr : addr ∈ S.region n := hwithin
    obtain rfl := access_store haddr ha
    refine ⟨⟨fun h => h.store hown haddr v, fun u htu => spares_store hown haddr v htu⟩, rfl,
      ⟨hin.1.store hown haddr v, hin.2⟩, honly r, fun o a m' hk => ?_⟩
    have hmerge : S.merge n (stored addr v s).1.mem o
        = Function.update (S.merge n s.1.mem o) addr v := S.merge_update haddr _ _ v
    rw [hmerge] at hk
    exact hexec o a m' (.op (r := r) rfl hk)
  | read8 addr => exact hwithin.elim
  | write8 addr v => exact hwithin.elim
  | external f => exact hwithin.elim

theorem body_spec
    (hc : ∀ e r (s : Sio × Ghost T), Within (S.region n) e → commit S e' e r s = none)
    (hp₀ : p₀.Only (Within (S.region n))) :
    Triple (duty S t e') () (fun s => Fresh S n t s.1 ∧ s.2 = none) p₀
      fun a s => Ran S n t p₀ a s.1 ∧ s.2 = none := by
  have hstable : ∀ p, Stable (S.protocol T) t (Running S n t p₀ p) := Running.stable
  refine (Triple.of_step (fun p => (linearization S T).stable_duty e' none (hstable p))
    ?_ ?_ ?_ p₀).pre ?_
  · rintro a s ⟨⟨hin, -, hexec⟩, hnone⟩
    exact ⟨⟨hin, fun o => hexec o a _ (.ret _ _)⟩, hnone⟩
  · rintro e k s r s' ⟨h, hnone⟩ ⟨ha, hs'⟩
    have hcommit : (linearization S T).commit e' e r s.1 = none := hc e r s.1 h.2.1.1
    obtain ⟨hguar, hkept, hnext⟩ := h.access ha
    rw [hcommit, Option.none_or, hnone] at hs'
    refine ⟨⟨hguar, ?_⟩, hnext, hs'⟩
    rw [hcommit]
    exact hkept
  · rintro β γ body b k s ⟨⟨hin, honly, hexec⟩, hnone⟩
    exact ⟨⟨hin, Prog.Only.unfold honly, fun o a m' h => hexec o a m' (.iter h)⟩, hnone⟩
  · rintro s ⟨⟨hin, hfresh⟩, hnone⟩
    refine ⟨⟨hin, hp₀, fun o a m' h => ?_⟩, hnone⟩
    rwa [S.merge_congr hfresh o] at h

end Body

/-- The release is where the section happens. -/
theorem release_spec (e' : LockOp S) (i : ι) (a : ρ i) (g : e'.Answer)
    (hc : ∀ s : Sio × Ghost T, S.outcome i s.2.kept = some a →
      commit S e' (.write32 (S.lock i).addr 1) () s = some g)
    (heff : ∀ m m', Exec memoryAccess (S.body i) m a m' → (S.memoryMachine T).access t e' m g m') :
    Triple (duty S t e') () (fun s => Ran S (S.lock i).n t (S.body i) a s.1 ∧ s.2 = none)
      (S.lock i).release fun _ s => Outside S t s.1 ∧ s.2 = some g := by
  have hstable : Stable (S.protocol T) t (Ran S (S.lock i).n t (S.body i) a) := Ran.stable a
  have hst := (linearization S T).stable_duty e' none hstable
  have hout := (linearization S T).stable_duty (t := t) e' (some g) (linearization S T).inv_stable
  refine Triple.call hst (fun _ => hout) ?_
  rintro s (r : Unit) s' ⟨⟨hin, hran⟩, hnone⟩ ⟨ha, hs'⟩
  have hexec := hran s.1.2.kept
  rw [S.merge_self] at hexec
  have hcommit : (linearization S T).commit e' (.write32 (S.lock i).addr 1) r s.1 = some g :=
    hc s.1 (S.outcome_eq hexec)
  have heq : s'.1 = S.released (S.lock i).n s.1 := access_release ha
  have hown : s.1.2.owner (S.lock i).n = some t := (hin.2 _).mpr rfl
  rw [hcommit] at hs'
  refine ⟨⟨?_, ?_⟩, ?_, hs'⟩
  · rw [heq]
    exact ⟨fun h => h.release _, fun u htu => spares_release hown htu⟩
  · rw [hcommit]
    refine ⟨hnone, ?_⟩
    rw [heq]
    exact heff _ _ hexec
  · rw [heq]
    refine ⟨hin.1.release _, fun m => ?_⟩
    by_cases hm : m = (S.lock i).n
    · subst hm
      rw [owner_released]
      simp
    · rw [owner_released_of_ne hm]
      exact fun he => hm ((hin.2 m).mp he)

theorem Within.ne_lock {n : Fin 32} {addr : Word} (h : addr ∈ S.region n) (l : Spinlock) :
    addr ≠ l.addr := by
  rintro rfl
  exact absurd ((S.memory h).1.symm.trans (Sio.lockAt_addr l)) (by simp)

/-- Before its release a section has no effect. -/
theorem commit_within {i : ι} (he : e' = .locked i ∨ e' = .tried i) (e : Op) (r : e.Answer)
    (s : Sio × Ghost T) (h : Within (S.region (S.lock i).n) e) : commit S e' e r s = none := by
  obtain rfl | rfl := he <;> cases e <;>
    first | rfl | exact h.elim | exact if_neg (Within.ne_lock h (S.lock i))

/-- The end of a section: the release, and its answer. -/
theorem release_ret_spec (e' : LockOp S) (i : ι) (a : ρ i) (g : e'.Answer)
    (hc : ∀ s : Sio × Ghost T, S.outcome i s.2.kept = some a →
      commit S e' (.write32 (S.lock i).addr 1) () s = some g)
    (heff : ∀ m m', Exec memoryAccess (S.body i) m a m' → (S.memoryMachine T).access t e' m g m') :
    Triple (duty S t e') () (fun s => Ran S (S.lock i).n t (S.body i) a s.1 ∧ s.2 = none)
      ((S.lock i).release.bind fun _ => .ret g) ((linearization S T).Done t e') := by
  have hinv := (linearization S T).inv_stable (t := t)
  refine (release_spec e' i a g hc heff).bind fun _ => ?_
  exact .ret ((linearization S T).stable_duty e' (some g) hinv) fun s hs => ⟨hs.1, .inl hs.2⟩

theorem locked_spec (i : ι) : Triple (duty S t (.locked i)) ()
    (fun s => Outside S t s.1 ∧ s.2 = none) (LockOp.locked (S := S) i).code
    ((linearization S T).Done t (.locked i)) := by
  refine (acquire_spec _ fun _ _ => rfl).bind fun _ =>
    (body_spec (commit_within (.inl rfl)) (S.guarded i)).bind fun a => ?_
  exact release_ret_spec (.locked i) i a a (fun s h => (if_pos rfl).trans h) fun _ _ h => h

/-- One claim, and the section only if it succeeds. -/
theorem tried_spec (i : ι) : Triple (duty S t (.tried i)) ()
    (fun s => Outside S t s.1 ∧ s.2 = none) (LockOp.tried (S := S) i).code
    ((linearization S T).Done t (.tried i)) := by
  have hinv := (linearization S T).inv_stable (t := t)
  have hout := (linearization S T).stable_duty (t := t) (.tried i) none hinv
  refine Triple.op (e := Op.read32 (S.lock i).addr) (K := fun (r : Word) s =>
    (if r != 0 then Fresh S (S.lock i).n t s.1 else Outside S t s.1) ∧ s.2 = none) hout ?_ ?_
  · rintro s (r : Word) s' ⟨hs, hnone⟩ ⟨ha, hs'⟩
    obtain ⟨hguar, hkept, hnext⟩ := claim_spec hs ha
    exact ⟨⟨hguar, hkept⟩, hnext, hs'.trans hnone⟩
  · intro (r : Word)
    change Triple _ _ _ (if (r != 0) = true then _ else _) _
    cases hr : r != 0 with
    | true =>
      refine (body_spec (commit_within (.inr rfl)) (S.guarded i)).bind fun a => ?_
      refine release_ret_spec (.tried i) i a (some a) (fun s h => ?_) fun _ _ h => h
      exact (if_pos rfl).trans (by rw [h]; rfl)
    | false => exact .ret hout fun s hs => ⟨hs.1, .inr ⟨hs.2, rfl⟩⟩

theorem load_spec (addr : { addr // S.Unguarded addr }) : Triple (duty S t (.load addr)) ()
    (fun s => Outside S t s.1 ∧ s.2 = none) (LockOp.load addr).code
    ((linearization S T).Done t (.load addr)) := by
  have hinv := (linearization S T).inv_stable (t := t)
  have hout := fun g => (linearization S T).stable_duty (t := t) (.load addr) g hinv
  refine Triple.op (e := Op.read32 addr) (K := fun (r : Word) s => Outside S t s.1 ∧ s.2 = some r)
    (hout none) ?_ fun r => .ret (hout (some r)) fun s hs => ⟨hs.1, .inl hs.2⟩
  rintro s (r : Word) s' ⟨hs, hnone⟩ ⟨ha, hs'⟩
  obtain ⟨hr, heq⟩ := access_load addr.2.2.1 addr.2.2.2 ha
  have hkept : s.1.1.mem addr = s.1.2.kept addr := hs.1.kept _ fun n hn => absurd hn (addr.2.1 n)
  refine ⟨⟨?_, hnone, hr.trans hkept, congrArg (fun s => s.2.kept) heq⟩, ?_, hs'⟩
  · rw [heq]
    exact ⟨id, fun u _ => .refl S u s.1⟩
  · rw [heq]
    exact hs

theorem store_spec (addr : { addr // S.Unguarded addr }) (v : Word) :
    Triple (duty S t (.store addr v)) () (fun s => Outside S t s.1 ∧ s.2 = none)
      (LockOp.store addr v).code ((linearization S T).Done t (.store addr v)) := by
  have hinv := (linearization S T).inv_stable (t := t)
  have hout := fun g => (linearization S T).stable_duty (t := t) (.store addr v) g hinv
  refine Triple.op (e := Op.write32 addr v)
    (K := fun _ (s : (Sio × Ghost T) × Option Unit) => Outside S t s.1 ∧ s.2 = some ())
    (hout none) ?_ fun _ => .ret (hout (some ())) fun s hs => ⟨hs.1, .inl hs.2⟩
  rintro s (r : Unit) s' ⟨hs, hnone⟩ ⟨ha, hs'⟩
  have heq : s'.1 = storedUnguarded addr v s.1 := access_store_unguarded addr.2 ha
  have hkept : s'.1.2.kept = Function.update s.1.2.kept addr v := by rw [heq]; rfl
  refine ⟨⟨?_, hnone, hkept⟩, ?_, hs'⟩
  · rw [heq]
    exact ⟨fun h => h.storeUnguarded addr v, fun u _ => spares_storeUnguarded addr.2 v u s.1⟩
  · rw [heq]
    exact ⟨hs.1.storeUnguarded addr v, hs.2⟩

/-- The code of an operation takes effect at one point. -/
theorem atomic (S : Sections ι ρ) (T : Type) : (linearization S T).Atomic LockOp.code := by
  intro t e'
  cases e' with
  | locked i => exact locked_spec i
  | tried i => exact tried_spec i
  | load addr => exact load_spec addr
  | store addr v => exact store_spec addr v

end Calls

/-! ### Whole runs -/

theorem LockOp.code_ne_ret {S : Sections ι ρ} (e : LockOp S) (a : e.Answer) : e.code ≠ .ret a := by
  cases e <;> rintro ⟨⟩

/-- **Critical sections are atomic.** Whatever the threads do within the discipline, and however
their accesses interleave: what they have done is what they can do with each section as one step
that runs its code alone, on a memory `m` that the hardware's memory agrees with wherever no lock
that guards it is held; and a program that has ended has the result it has there. -/
theorem sections_atomic (S : Sections ι ρ) [DecidableEq T] {α : Type}
    {clients : T → Prog (LockOp.Answer (S := S)) α} {s₀ : Sio} {c : Config T Op.Answer α Sio}
    (hc : (sioMachine T).Reach ⟨s₀, fun t => (clients t).implement LockOp.code⟩ c) :
    ∃ m ts, (S.memoryMachine T).Reach ⟨s₀.mem, clients⟩ ⟨m, ts⟩ ∧
      (∀ t a, c.threads t = .ret a → ts t = .ret a) ∧
      ∀ addr, (∀ n, addr ∈ S.region n → c.shared.held n = false) → c.shared.mem addr = m addr := by
  obtain ⟨g, hg⟩ := hc.track S.note ⟨fun _ => none, s₀.mem⟩
  have hinit : Consistent S (s₀, (⟨fun _ => none, s₀.mem⟩ : Ghost T)) :=
    ⟨fun _ _ h => (Option.some_ne_none _ h.symm).elim, fun _ _ => rfl⟩
  have hstart : ∀ t, (linearization S T).inv t (s₀, ⟨fun _ => none, s₀.mem⟩) :=
    fun t => ⟨hinit, fun _ h => Option.some_ne_none _ h.symm⟩
  obtain ⟨ts, hreach, hfollows⟩ := Linearization.simulates (atomic S T) LockOp.code_ne_ret hstart hg
  have hcons : Consistent S (c.shared, g) :=
    Linearization.invariant (I := Consistent S) (atomic S T) LockOp.code_ne_ret hstart hinit
      (fun _ _ _ _ _ _ hguar => hguar.1) (fun _ _ h => h.1.elim) hg
  refine ⟨g.kept, ts, hreach, fun t a ht => ?_, fun addr haddr => ?_⟩
  · have hf := hfollows t
    dsimp only at hf
    rw [ht] at hf
    exact hf.result LockOp.code_ne_ret
  · refine hcons.kept addr fun n hn => ?_
    cases hown : g.owner n with
    | none => rfl
    | some t => exact absurd (hcons.held n t hown) (by simp [haddr n hn])

end Discipline

/-- The counter under one lock, each increment answered with the old value. -/
def counting (l : Spinlock) : Sections Unit fun _ => Word where
  lock _ := l
  body _ := do
    let v ← read32 sharedCtr
    write32 sharedCtr (v + 1)
    return v
  region n := { addr | n = l.n ∧ addr = sharedCtr }
  disjoint h h' := h.1.trans h'.1.symm
  memory h := by
    obtain ⟨-, rfl⟩ := h
    exact ⟨Sio.lockAt_sharedCtr, by decide⟩
  guarded _ := by
    have hread : Within { addr | l.n = l.n ∧ addr = sharedCtr } (.read32 sharedCtr) := ⟨rfl, rfl⟩
    have hwrite : ∀ v, Within { addr | l.n = l.n ∧ addr = sharedCtr } (.write32 sharedCtr v) :=
      fun _ => ⟨rfl, rfl⟩
    exact Prog.only_op.mpr ⟨hread, fun _ => Prog.only_op.mpr ⟨hwrite _, fun _ => trivial⟩⟩

/-- Core 0 waits for the lock, core 1 makes an attempt. -/
def counters (l : Spinlock) : Core → Prog (LockOp.Answer (S := counting l)) Unit
  | .core0 => .op (.locked ()) fun _ => .ret ()
  | .core1 => .op (.tried ()) fun _ => .ret ()

/-- Core 1 tries in vain while core 0 is inside. -/
theorem sections_atomic_counting : ∃ c : Config Core Op.Answer Unit Sio,
    (sioMachine Core).Reach
      ⟨⟨fun _ => false, fun _ => 0⟩, fun t => (counters ⟨0⟩ t).implement LockOp.code⟩ c ∧
    c.shared.mem sharedCtr = 1 ∧ (∀ t, c.threads t = .ret ()) ∧ ∃ m ts,
      ((counting ⟨0⟩).memoryMachine Core).Reach ⟨fun _ => 0, counters ⟨0⟩⟩ ⟨m, ts⟩ ∧
      (∀ t a, c.threads t = .ret a → ts t = .ret a) ∧
      ∀ addr, (∀ n, addr ∈ (counting ⟨0⟩).region n → c.shared.held n = false) →
        c.shared.mem addr = m addr := by
  have h := Sio.reach_of_play
    (c := ⟨⟨fun _ => false, fun _ => 0⟩, fun t => (counters ⟨0⟩ t).implement LockOp.code⟩)
    (List.replicate 3 Core.core0 ++ [Core.core1] ++ List.replicate 2 Core.core0) rfl
  exact ⟨_, h, rfl, fun t => by cases t <;> rfl, sections_atomic (counting ⟨0⟩) h⟩

end Sync
