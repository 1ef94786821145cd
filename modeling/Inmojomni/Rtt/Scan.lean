import Inmojomni.Rtt.Stream

/-!
# What a host scan can find

A host looks for the magic at the head of the control block. `init` stores it last, so that a
block that is found is complete. But RAM survives a reset, and `init` does not take an old magic
away before it starts: over an old block with other offsets, a scan finds the magic with
offsets that are not set yet (`scan_halfBuilt`). `scan_iff` says exactly when that cannot happen.
-/

open Mmio Effect

namespace Rtt

/-- The descriptor words and their values, in the order of the stores. -/
def descriptor : List (Word × Word) :=
  [(maxUp, 1), (maxDown, 0), (upName, 0), (upBuf, buf), (upSize, bufSize), (upWrOff, 0),
    (upRdOff, 0), (upFlags, 0)]

/-- The words of the magic, in the order of the stores. -/
def magicWords : List (Word × Word) :=
  [(rttBase + 12, 0), (rttBase + 8, 0x00005454), (rttBase + 4, 0x52205245), (rttBase + 0, 0x47474553)]

/-- What a host scan looks for. -/
def magic : List Byte :=
  ascii ['S', 'E', 'G', 'G', 'E', 'R', ' ', 'R', 'T', 'T'] ++ List.replicate 6 0

/-- The 16 bytes at the head of the control block spell the magic. -/
def Spells (m : Ram) : Prop :=
  ∀ i, (h : i < magic.length) → m (rttBase + BitVec.ofNat 32 i) = magic[i]

instance (m : Ram) : Decidable (Spells m) :=
  Nat.decidableBallLT _ _

/-- The words hold their values. -/
def Holds (m : Ram) (ws : List (Word × Word)) : Prop := ∀ w ∈ ws, m.read32 w.1 = w.2

instance (m : Ram) (ws : List (Word × Word)) : Decidable (Holds m ws) :=
  List.decidableBAll _ ws

/-- Memory is `m'` between two stores of `init`, which found `m`: some store is made, and
another one is to come. -/
def BetweenStores (m m' : Ram) : Prop :=
  ∃ c₁ c₂ c₃ l l', Ram.machine.Step ⟨m, fun _ => init⟩ l c₁ ∧ Ram.machine.Reach c₁ c₂ ∧
    Ram.machine.Step c₂ l' c₃ ∧ c₂.shared = m'

/-! ### The stores of `init` -/

/-- `init` stores the descriptor and then the magic. -/
theorem init_eq : init = Ram.stores (descriptor ++ magicWords) := rfl

/-- No two of its words overlap. -/
theorem apart_stores :
    (descriptor ++ magicWords).Pairwise fun w w' => Ram.Apart w'.1 w.1 := by decide

theorem betweenStores_iff {m m' : Ram} : BetweenStores m m' ↔
    ∃ k, 0 < k ∧ k < (descriptor ++ magicWords).length ∧
      m' = m.storeAll ((descriptor ++ magicWords).take k) := by
  have hinit : init = Ram.stores ((maxUp, 1) :: (descriptor.tail ++ magicWords)) := init_eq
  rw [BetweenStores, hinit]
  constructor
  · rintro ⟨c₁, c₂, c₃, l, l', hfirst, hreach, hnext, rfl⟩
    obtain ⟨-, rfl⟩ := Ram.step_stores.mp hfirst
    obtain ⟨k, hk, rfl⟩ := Ram.reach_stores.mp hreach
    refine ⟨k + 1, Nat.succ_pos k, ?_, rfl⟩
    -- there is a store to come
    rcases Nat.lt_or_eq_of_le hk with hlt | rfl
    · exact Nat.succ_lt_succ hlt
    · rw [List.drop_length] at hnext
      exact absurd hnext Ram.not_step_stores_nil
  · rintro ⟨k, hpos, hlt, rfl⟩
    obtain ⟨k, rfl⟩ := Nat.exists_eq_succ_of_ne_zero hpos.ne'
    have hk : k < (descriptor.tail ++ magicWords).length := Nat.lt_of_succ_lt_succ hlt
    have hreach : Ram.machine.Reach
        ⟨m.write32 maxUp 1, fun _ => Ram.stores (descriptor.tail ++ magicWords)⟩ ⟨_, _⟩ :=
      Ram.reach_stores.mpr ⟨k, hk.le, rfl⟩
    rw [List.drop_eq_getElem_cons hk] at hreach
    exact ⟨_, _, _, _, _, Ram.step_stores.mpr ⟨rfl, rfl⟩, hreach,
      Ram.step_stores.mpr ⟨rfl, rfl⟩, rfl⟩

/-- The descriptor lies outside the magic. -/
theorem spells_storeAll_iff {m : Ram} {ws : List (Word × Word)} (h : ∀ w ∈ ws, w ∈ descriptor) :
    Spells (m.storeAll ws) ↔ Spells m := by
  have hall : ∀ i < magic.length,
      descriptor.all (fun w => 4 ≤ (rttBase + BitVec.ofNat 32 i - w.1).toNat) = true := by decide
  have hout : ∀ i < magic.length, ∀ w ∈ descriptor,
      4 ≤ (rttBase + BitVec.ofNat 32 i - w.1).toNat :=
    fun i hi w hw => of_decide_eq_true (List.all_eq_true.mp (hall i hi) w hw)
  refine forall_congr' fun i => forall_congr' fun hi => ?_
  rw [Ram.storeAll_of_le fun w hw => hout i hi w (h w hw)]

/-- After `k` stores the first `k` words hold their values, and the others what they held. -/
theorem holds_storeAll_iff {m : Ram} {ws : List (Word × Word)}
    (h : ws.Pairwise fun w w' => Ram.Apart w'.1 w.1) (k : ℕ) :
    Holds (m.storeAll (ws.take k)) ws ↔ Holds m (ws.drop k) := by
  have hpair : (ws.take k ++ ws.drop k).Pairwise fun w w' => Ram.Apart w'.1 w.1 := by
    rwa [List.take_append_drop]
  obtain ⟨htake, -, hapart⟩ := List.pairwise_append.mp hpair
  have hkept : ∀ w ∈ ws.drop k, (m.storeAll (ws.take k)).read32 w.1 = m.read32 w.1 := fun w hw =>
    Ram.read32_storeAll_of_apart fun w' hw' => (hapart w' hw' w hw).symm
  constructor
  · intro hall w hw
    rw [← hkept w hw]
    exact hall w (List.mem_of_mem_drop hw)
  · intro hall w hw
    rw [← List.take_append_drop k ws, List.mem_append] at hw
    rcases hw with hw | hw
    · exact Ram.read32_storeAll_mem htake hw
    · rw [hkept w hw]
      exact hall w hw

/-- **When a scan finds complete blocks only.** Between any two stores of `init`, a block with
the magic is complete, exactly if memory did not hold the magic before, or all the descriptor
behind its first word was as `init` sets it. -/
theorem scan_iff (m : Ram) :
    (∀ m', BetweenStores m m' → Spells m' → Holds m' descriptor) ↔
      (Spells m → Holds m descriptor.tail) := by
  have hdescriptor : descriptor.Pairwise fun w w' => Ram.Apart w'.1 w.1 := by decide
  have hspells : ∀ k, Spells (m.storeAll (descriptor.take k)) ↔ Spells m := fun k =>
    spells_storeAll_iff fun _ => List.mem_of_mem_take
  constructor
  · intro h hs
    have hfirst := h (m.storeAll (descriptor.take 1))
      (betweenStores_iff.mpr ⟨1, by decide, by decide, rfl⟩)
    exact (holds_storeAll_iff hdescriptor 1).mp (hfirst ((hspells 1).mpr hs))
  · rintro h m' hm' hs
    obtain ⟨k, hpos, hlt, rfl⟩ := betweenStores_iff.mp hm'
    rcases Nat.lt_or_ge descriptor.length k with hgt | hle
    · -- the descriptor is complete, and the magic leaves it alone
      refine fun w hw => Ram.read32_storeAll_mem (apart_stores.sublist (List.take_sublist _ _)) ?_
      rw [List.take_append, List.take_of_length_le hgt.le]
      exact List.mem_append_left _ hw
    · rw [List.take_append_of_le_length hle] at hs ⊢
      refine (holds_storeAll_iff hdescriptor k).mpr fun w hw => h ((hspells k).mp hs) w ?_
      obtain ⟨k, rfl⟩ := Nat.exists_eq_succ_of_ne_zero hpos.ne'
      rw [← List.drop_one]
      exact List.mem_of_mem_drop (by rwa [List.drop_drop, Nat.add_comm])

/-- A block of an earlier boot with five bytes in the ring: after the first store of `init` a
scan finds it with its old write offset. -/
theorem scan_halfBuilt :
    ¬ ∀ m m', BetweenStores m m' → Spells m' → Holds m' descriptor := by
  intro h
  have hall := (scan_iff _).mp (h ((initialised fun _ => 0).write32 upWrOff 5))
  exact absurd hall (by decide)

end Rtt
