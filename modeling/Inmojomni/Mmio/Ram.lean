import Inmojomni.Mmio
import Inmojomni.Bits
import Mathlib.Logic.Function.Basic

/-!
# Byte-addressed memory

Memory behind volatile loads and stores: bytes, with words in little-endian order. Addresses
wrap around, so that `Apart` needs no side condition.
-/

namespace Mmio

/-- The contents of memory. -/
abbrev Ram := Word → Byte

namespace Ram

/-- Byte `i` of a word. -/
def byte (v : Word) (i : ℕ) : Byte := v.extractLsb' (8 * i) 8

def read32 (m : Ram) (addr : Word) : Word :=
  m (addr + 3) ++ m (addr + 2) ++ m (addr + 1) ++ m addr

def write32 (m : Ram) (addr v : Word) : Ram := fun x =>
  if (x - addr).toNat < 4 then byte v (x - addr).toNat else m x

def write8 (m : Ram) (addr : Word) (v : Byte) : Ram := Function.update m addr v

/-- How an access is answered and what it does. -/
def access : (e : Op) → Ram → e.Answer → Ram → Prop
  | .read32 addr, m, (r : Word), m' => r = m.read32 addr ∧ m' = m
  | .write32 addr v, m, _, m' => m' = m.write32 addr v
  | .read8 addr, m, (r : Byte), m' => r = m addr ∧ m' = m
  | .write8 addr v, m, _, m' => m' = m.write8 addr v
  | .external _, m, _, m' => m' = m

/-- The operation stores into the byte at `x`. -/
def Stores (x : Word) : Op → Prop
  | .write32 addr _ => (x - addr).toNat < 4
  | .write8 addr _ => x = addr
  | _ => False

/-- The answer of memory, as a function; a function written in assembly has none. -/
def answer : (e : Op) → Ram → Option (e.Answer × Ram)
  | .read32 addr, m => some (m.read32 addr, m)
  | .write32 addr v, m => some ((), m.write32 addr v)
  | .read8 addr, m => some (m addr, m)
  | .write8 addr v, m => some ((), m.write8 addr v)
  | .external _, _ => none

theorem access_of_answer {e : Op} {m : Ram} {p : e.Answer × Ram} (h : answer e m = some p) :
    access e m p.1 p.2 := by
  cases e with
  | external f => cases h
  | _ => cases h; first | exact ⟨rfl, rfl⟩ | rfl

/-- A store can always be made. -/
theorem exists_access_of_stores {e : Op} {x : Word} (h : Stores x e) (m : Ram) :
    ∃ r m', access e m r m' := by
  cases e with
  | write32 => exact ⟨(), _, rfl⟩
  | write8 => exact ⟨(), _, rfl⟩
  | _ => exact h.elim

theorem exec_write32 {addr v : Word} {m m' : Ram} {u : Unit} :
    Effect.Exec access (Mmio.write32 addr v) m u m' ↔ m' = m.write32 addr v := by
  constructor
  · intro h
    obtain ⟨_, t, rfl, ht⟩ := Effect.exec_op.mp h
    exact (Effect.exec_ret.mp ht).2
  · rintro rfl
    exact .op (r := ()) rfl (.ret _ _)

theorem exec_read32 {addr r : Word} {m m' : Ram} :
    Effect.Exec access (Mmio.read32 addr) m r m' ↔ r = m.read32 addr ∧ m' = m := by
  constructor
  · intro h
    obtain ⟨_, t, ⟨hr, rfl⟩, ht⟩ := Effect.exec_op.mp h
    obtain ⟨rfl, rfl⟩ := Effect.exec_ret.mp ht
    exact ⟨hr, rfl⟩
  · rintro ⟨hr, rfl⟩
    have ha : access (.read32 addr) m' r m' := ⟨hr, rfl⟩
    exact .op ha (.ret _ _)

/-- Two words that do not overlap. -/
def Apart (a b : Word) : Prop := 4 ≤ (a - b).toNat ∧ 4 ≤ (b - a).toNat

instance (a b : Word) : Decidable (Apart a b) := inferInstanceAs (Decidable (_ ∧ _))

theorem Apart.symm {a b : Word} (h : Apart a b) : Apart b a := And.symm h

theorem Apart.add_left {a b : Word} (h : Apart a b) (base : Word) :
    Apart (base + a) (base + b) := by
  obtain ⟨hab, hba⟩ := h
  have hsub : ∀ x y : Word, base + x - (base + y) = x - y := fun x y => by bv_omega
  rw [Apart, hsub, hsub]
  exact ⟨hab, hba⟩

variable {m : Ram} {addr a b v : Word}

theorem append_byte (v : Word) : byte v 3 ++ byte v 2 ++ byte v 1 ++ byte v 0 = v := by
  refine BitVec.eq_of_getLsbD_eq fun i hi => ?_
  simp only [BitVec.getLsbD_append, byte, BitVec.getLsbD_extractLsb']
  grind

theorem read32_congr {m' : Ram} (h : ∀ x, (x - addr).toNat < 4 → m x = m' x) :
    m.read32 addr = m'.read32 addr := by
  have hoff : ∀ i : Word, i.toNat < 4 → m (addr + i) = m' (addr + i) := fun i hi => by
    refine h _ ?_
    rwa [BitVec.add_comm, BitVec.add_sub_cancel]
  have h0 := hoff 0#32 (by decide)
  rw [BitVec.add_zero] at h0
  rw [read32, read32, hoff 3 (by decide), hoff 2 (by decide), hoff 1 (by decide), h0]

/-- What was stored is read back. -/
theorem read32_write32 : (m.write32 addr v).read32 addr = v := by
  have hoff : ∀ i : Word, i.toNat < 4 → m.write32 addr v (addr + i) = byte v i.toNat :=
    fun i hi => by
      rw [write32, BitVec.add_comm, BitVec.add_sub_cancel, if_pos hi]
  have h0 := hoff 0#32 (by decide)
  rw [BitVec.add_zero] at h0
  rw [read32, hoff 3 (by decide), hoff 2 (by decide), hoff 1 (by decide), h0]
  exact append_byte v

/-- A store leaves the bytes outside it alone. -/
theorem write32_of_le (h : 4 ≤ (a - addr).toNat) : m.write32 addr v a = m a :=
  if_neg (by omega)

theorem read32_write32_of_apart (h : Apart a b) :
    (m.write32 a v).read32 b = m.read32 b := by
  refine read32_congr fun x hx => write32_of_le ?_
  obtain ⟨hab, hba⟩ := h
  bv_omega

theorem read32_write8 {v : Byte} (h : 4 ≤ (a - addr).toNat) :
    (m.write8 a v).read32 addr = m.read32 addr := by
  refine read32_congr fun x hx => Function.update_of_ne ?_ _ _
  rintro rfl
  omega

/-! ### A sequence of stores -/

/-- Memory after storing words one after the other. -/
def storeAll (m : Ram) (ws : List (Word × Word)) : Ram :=
  ws.foldl (fun m w => m.write32 w.1 w.2) m

section StoreAll

variable {ws : List (Word × Word)}

/-- A byte outside all the words keeps its value. -/
theorem storeAll_of_le {x : Word} (h : ∀ w ∈ ws, 4 ≤ (x - w.1).toNat) : m.storeAll ws x = m x := by
  induction ws generalizing m with
  | nil => rfl
  | cons w ws ih =>
    obtain ⟨hw, hws⟩ := List.forall_mem_cons.mp h
    exact (ih hws).trans (write32_of_le hw)

theorem read32_storeAll_of_apart (h : ∀ w ∈ ws, Apart w.1 addr) :
    (m.storeAll ws).read32 addr = m.read32 addr := by
  induction ws generalizing m with
  | nil => rfl
  | cons w ws ih =>
    obtain ⟨hw, hws⟩ := List.forall_mem_cons.mp h
    exact (ih hws).trans (read32_write32_of_apart hw)

/-- If the words do not overlap, each one is there at the end. -/
theorem read32_storeAll_mem (h : ws.Pairwise fun w w' => Apart w'.1 w.1) {w : Word × Word}
    (hw : w ∈ ws) : (m.storeAll ws).read32 w.1 = w.2 := by
  induction ws generalizing m with
  | nil => exact absurd hw List.not_mem_nil
  | cons w' ws ih =>
    obtain ⟨hhead, htail⟩ := List.pairwise_cons.mp h
    rcases List.mem_cons.mp hw with rfl | hw
    · exact (read32_storeAll_of_apart hhead).trans read32_write32
    · exact ih htail hw

theorem storeAll_append {ws' : List (Word × Word)} :
    m.storeAll (ws ++ ws') = (m.storeAll ws).storeAll ws' := List.foldl_append

/-- Stores of words one after the other, from `base` on. -/
def block (base : Word) : List Word → List (Word × Word)
  | [] => []
  | v :: vs => (base, v) :: block (base + 4#32) vs

theorem exists_of_mem_block {base : Word} {vs : List Word} {w : Word × Word}
    (h : w ∈ block base vs) : ∃ k < vs.length, w.1 = base + BitVec.ofNat 32 (4 * k) := by
  induction vs generalizing base with
  | nil => exact absurd h List.not_mem_nil
  | cons v vs ih =>
    rcases List.mem_cons.mp h with rfl | h
    · exact ⟨0, Nat.succ_pos _, (BitVec.add_zero _).symm⟩
    · obtain ⟨k, hk, hw⟩ := ih h
      refine ⟨k + 1, Nat.succ_lt_succ hk, hw.trans ?_⟩
      rw [BitVec.add_assoc, Nat.mul_succ, Nat.add_comm, BitVec.ofNat_add]

theorem apart_offsets {base : Word} {j k : ℕ} (hjk : j ≠ k) (hj : 4 * j + 4 ≤ 2 ^ 32)
    (hk : 4 * k + 4 ≤ 2 ^ 32) :
    Apart (base + BitVec.ofNat 32 (4 * j)) (base + BitVec.ofNat 32 (4 * k)) := by
  constructor
  · bv_omega
  · bv_omega

/-- A block of words is read back word by word. -/
theorem read32_storeAll_block {base : Word} {vs : List Word} (hvs : 4 * vs.length ≤ 2 ^ 32) {k : ℕ}
    (hk : k < vs.length) :
    (m.storeAll (block base vs)).read32 (base + BitVec.ofNat 32 (4 * k)) = vs[k] := by
  induction vs generalizing base m k with
  | nil => exact absurd hk (Nat.not_lt_zero k)
  | cons v vs ih =>
    rw [List.length_cons] at hvs hk
    change ((m.write32 base v).storeAll (block (base + 4#32) vs)).read32 _ = _
    cases k with
    | zero =>
      rw [Nat.mul_zero, BitVec.add_zero, List.getElem_cons_zero]
      refine (read32_storeAll_of_apart fun w hw => ?_).trans read32_write32
      obtain ⟨j, hj, hw⟩ := exists_of_mem_block hw
      have hapart : Apart (base + BitVec.ofNat 32 (4 * (j + 1))) (base + BitVec.ofNat 32 (4 * 0)) :=
        apart_offsets (Nat.succ_ne_zero j) (by omega) (by omega)
      rwa [Nat.mul_zero, BitVec.add_zero, Nat.mul_succ, Nat.add_comm, BitVec.ofNat_add,
        ← BitVec.add_assoc, ← hw] at hapart
    | succ k =>
      have haddr : base + BitVec.ofNat 32 (4 * (k + 1))
          = base + 4#32 + BitVec.ofNat 32 (4 * k) := by
        rw [BitVec.add_assoc, Nat.mul_succ, Nat.add_comm, BitVec.ofNat_add]
      rw [haddr, List.getElem_cons_succ]
      exact ih (by omega) (Nat.lt_of_succ_lt_succ hk)

/-- One context on memory, with nobody else. -/
def machine : Effect.Machine Unit Op.Answer Ram where
  access _ := access

/-- The stores, one after the other. -/
def stores (ws : List (Word × Word)) : Firmware Unit :=
  Effect.Prog.forEach (fun w => Mmio.write32 w.1 w.2) ws

/-- The only step of a sequence of stores is the next store. -/
theorem step_stores {w : Word × Word} {c : Effect.Config Unit Op.Answer Unit Ram}
    {l : Effect.Label Unit} : machine.Step ⟨m, fun _ => stores (w :: ws)⟩ l c ↔
      l = .access () ∧ c = ⟨m.write32 w.1 w.2, fun _ => stores ws⟩ := by
  constructor
  · intro h
    cases h with
    | access ht ha =>
      have hop : Effect.Prog.op (Op.write32 w.1 w.2) (fun _ => stores ws) = .op _ _ := ht
      cases hop
      obtain rfl := ha
      exact ⟨rfl, rfl⟩
    | unfold ht => cases (ht : Effect.Prog.op (Op.write32 w.1 w.2) (fun _ => stores ws) = _)
    | env he => exact he.elim
  · rintro ⟨rfl, rfl⟩
    have ha : machine.access () (Op.write32 w.1 w.2) m () (m.write32 w.1 w.2) := rfl
    exact .access (k := fun _ => stores ws) rfl ha

theorem not_step_stores_nil {c : Effect.Config Unit Op.Answer Unit Ram} {l : Effect.Label Unit} :
    ¬ machine.Step ⟨m, fun _ => stores []⟩ l c := by
  intro h
  cases h with
  | access ht ha => cases (ht : Effect.Prog.ret () = _)
  | unfold ht => cases (ht : Effect.Prog.ret () = _)
  | env he => exact he.elim

/-- The states of a sequence of stores are those after its first `k` stores. -/
theorem reach_stores {c : Effect.Config Unit Op.Answer Unit Ram} :
    machine.Reach ⟨m, fun _ => stores ws⟩ c ↔
      ∃ k ≤ ws.length, c = ⟨m.storeAll (ws.take k), fun _ => stores (ws.drop k)⟩ := by
  have hnext : ∀ k (hk : k < ws.length), (m.storeAll (ws.take k)).write32 ws[k].1 ws[k].2
      = m.storeAll (ws.take (k + 1)) := fun k hk => by
    rw [← List.take_concat_get' _ _ hk, storeAll, storeAll, List.foldl_append]
    rfl
  constructor
  · intro h
    refine h.induction (P := fun c => ∃ k ≤ ws.length, c = ⟨m.storeAll (ws.take k),
      fun _ => stores (ws.drop k)⟩) ⟨0, Nat.zero_le _, rfl⟩ ?_
    rintro _ l c' - ⟨k, hk, rfl⟩ hs
    rcases Nat.lt_or_eq_of_le hk with hlt | rfl
    · rw [List.drop_eq_getElem_cons hlt] at hs
      obtain ⟨-, rfl⟩ := step_stores.mp hs
      exact ⟨k + 1, hlt, by rw [hnext k hlt]⟩
    · rw [List.drop_length] at hs
      exact absurd hs not_step_stores_nil
  · rintro ⟨k, hk, rfl⟩
    induction k with
    | zero => exact .refl _
    | succ k ih =>
      refine (ih (by omega)).step (l := .access ()) ?_
      rw [List.drop_eq_getElem_cons hk, ← hnext k hk]
      exact step_stores.mpr ⟨rfl, rfl⟩

end StoreAll

end Ram

end Mmio
