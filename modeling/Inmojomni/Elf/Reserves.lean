import Inmojomni.Elf.MemoryMap
import Inmojomni.Rtt

/-!
# Fixed addresses in RAM

The SDK uses RAM that no section of the firmware knows of: the stacks of the two cores at the
top, and the RTT control block and ring below them. `check` only bounds how much of RAM the
sections take together, so a section at the wrong place passes (`reserves_occupied`). Where RAM
is filled from its origin without gaps, what is taken is an interval as long as that sum, which
leaves core 0 its stack, and the other two areas are free exactly as long as it ends before
them (`reserves_free`).
-/

namespace Elf

/-- `_stack_top` -/
def stackTop : ℕ := 0x20000000 + 256 * 1024

/-- `_core1_stack_top` -/
def core1StackTop : ℕ := 0x20000000 + 256 * 1024 - 4 * 1024

/-- What is to be left for the stack of core 0. -/
def core0Reserve : Finset ℕ := Finset.Ico (stackTop - stackMargin.toNat) stackTop

/-- The 4 KB stack of core 1. -/
def core1Stack : Finset ℕ := Finset.Ico (core1StackTop - 4 * 1024) core1StackTop

/-- The RTT control block and its ring. -/
def rttBlock : Finset ℕ := Finset.Ico Rtt.rttBase.toNat (Rtt.buf.toNat + Rtt.bufSize.toNat)

/-- No allocated section has an address in the area. -/
def Free (sects : List Sect) (area : Finset ℕ) : Prop :=
  ∀ s ∈ sects, s.Allocated → Disjoint s.range area

/-- RAM is filled from its origin: below a section in RAM every address belongs to a section. -/
def Gapless (sects : List Sect) : Prop :=
  ∀ s ∈ sects, s.Allocated → s.InRam → ∀ a ∈ Finset.Ico 0x20000000 s.addr.toNat,
    ∃ t ∈ sects, t.Allocated ∧ a ∈ t.range

/-- The allocated sections in RAM. -/
def ramSects (sects : List Sect) : List Sect := (allocated sects).filter fun s => s.InRam

/-- How much of RAM the sections take. -/
def ramTotal (sects : List Sect) : ℕ := ((ramSects sects).map fun s => s.size.toNat).sum

/-- The addresses of RAM that are taken. -/
def ramTaken (sects : List Sect) : Finset ℕ :=
  Intervals.covered ((ramSects sects).map Sect.range)

variable {sects : List Sect}

theorem mem_ramSects {s : Sect} : s ∈ ramSects sects ↔ s ∈ sects ∧ s.Allocated ∧ s.InRam := by
  rw [ramSects, List.mem_filter, mem_allocated, decide_eq_true_iff, and_assoc]

theorem mem_ramTaken {a : ℕ} :
    a ∈ ramTaken sects ↔ ∃ s ∈ sects, s.Allocated ∧ s.InRam ∧ a ∈ s.range := by
  rw [ramTaken, Intervals.mem_covered]
  constructor
  · rintro ⟨r, hr, ha⟩
    obtain ⟨s, hs, rfl⟩ := List.mem_map.mp hr
    obtain ⟨hs, halloc, hram⟩ := mem_ramSects.mp hs
    exact ⟨s, hs, halloc, hram, ha⟩
  · rintro ⟨s, hs, halloc, hram, ha⟩
    exact ⟨s.range, List.mem_map_of_mem (mem_ramSects.mpr ⟨hs, halloc, hram⟩), ha⟩

/-! ### What a sound memory map takes of RAM -/

section Sound

variable (h : MemoryMap sects)
include h

/-- A section that has an address in RAM starts there. -/
theorem MemoryMap.inRam {s : Sect} (hs : s ∈ sects) (halloc : s.Allocated) {a : ℕ}
    (ha : a ∈ s.range) (hram : 0x20000000 ≤ a) : s.InRam := by
  have hend := (Finset.mem_Ico.mp ha).2
  have hpos := halloc.size_pos
  have hinside := h.inside s hs halloc
  rw [flash, ram, Sect.range_subset_iff halloc, Sect.range_subset_iff halloc] at hinside
  change 0x20000000 ≤ s.addr.toNat ∧ s.addr.toNat < 0x20040000
  omega

theorem MemoryMap.ramTaken_subset : ramTaken sects ⊆ ram := by
  intro a ha
  obtain ⟨s, hs, halloc, hram, ha⟩ := mem_ramTaken.mp ha
  have hlo : 0x20000000 ≤ s.addr.toNat := hram.1
  have hinside := h.inside s hs halloc
  have hpos := halloc.size_pos
  rw [flash, ram, Sect.range_subset_iff halloc, Sect.range_subset_iff halloc] at hinside
  obtain ⟨hstart, hend⟩ := Finset.mem_Ico.mp ha
  rw [ram, Finset.mem_Ico]
  omega

/-- The sections have no address in common, so that their sizes add up. -/
theorem MemoryMap.card_ramTaken : (ramTaken sects).card = ramTotal sects := by
  have hp : ((ramSects sects).map Sect.range).Pairwise Disjoint := by
    rw [List.pairwise_map, ramSects, allocated, List.filter_filter, List.pairwise_filter]
    refine h.disjoint.imp fun hst hs ht => hst ?_ ?_
    · simp only [Bool.and_eq_true, decide_eq_true_eq] at hs
      exact hs.2
    · simp only [Bool.and_eq_true, decide_eq_true_eq] at ht
      exact ht.2
  have hcard : ∀ s : Sect, s.range.card = s.size.toNat := fun s => by
    rw [Sect.range, Nat.card_Ico, Nat.add_sub_cancel_left]
  rw [ramTaken, Intervals.card_covered hp, ramTotal, List.map_map]
  exact congrArg List.sum (List.map_congr_left fun s _ => hcard s)

theorem MemoryMap.ramTotal_le : ramTotal sects ≤ 0x40000 := by
  have hcard := Finset.card_le_card h.ramTaken_subset
  rw [h.card_ramTaken, ram, Nat.card_Ico] at hcard
  omega

/-- The 32-bit sum of the check is the sum. -/
theorem MemoryMap.toNat_sum_ramSize :
    ((allocated sects).map Sect.ramSize).sum.toNat = ramTotal sects := by
  have hsum : ∀ l : List Sect, (l.map Sect.ramSize).sum.toNat =
      ((l.filter fun s => s.InRam).map fun s => s.size.toNat).sum % 2 ^ 32 := by
    intro l
    induction l with
    | nil => rfl
    | cons s l ih =>
      rw [List.map_cons, List.sum_cons, BitVec.toNat_add, ih, Nat.add_mod_mod]
      by_cases hram : s.InRam
      · rw [List.filter_cons, if_pos (decide_eq_true hram), List.map_cons, List.sum_cons,
          Sect.ramSize, if_pos hram]
      · rw [List.filter_cons, if_neg (by simpa using hram), Sect.ramSize, if_neg hram]
        exact congrArg (· % 2 ^ 32) (Nat.zero_add _)
  have hle := h.ramTotal_le
  rw [hsum]
  exact Nat.mod_eq_of_lt (by
    rw [ramTotal, ramSects] at hle
    omega)

/-- An area in RAM is free when it is not taken. -/
theorem MemoryMap.free_iff {area : Finset ℕ} (harea : area ⊆ ram) :
    Free sects area ↔ Disjoint (ramTaken sects) area := by
  rw [Finset.disjoint_left]
  constructor
  · intro hfree a ha
    obtain ⟨s, hs, halloc, -, ha⟩ := mem_ramTaken.mp ha
    exact Finset.disjoint_left.mp (hfree s hs halloc) ha
  · intro hfree s hs halloc
    refine Finset.disjoint_left.mpr fun a ha hin => ?_
    have hram := h.inRam hs halloc ha (Finset.mem_Ico.mp (harea hin)).1
    exact hfree (mem_ramTaken.mpr ⟨s, hs, halloc, hram, ha⟩) hin

/-- Without gaps, what is taken is the start of RAM. -/
theorem MemoryMap.ramTaken_eq (hgap : Gapless sects) :
    ramTaken sects = Finset.Ico 0x20000000 (0x20000000 + ramTotal sects) := by
  rw [← h.card_ramTaken]
  refine Intervals.eq_Ico_of_gapless
    (fun a ha => (Finset.mem_Ico.mp (h.ramTaken_subset ha)).1) fun a ha b hlo hle => ?_
  obtain ⟨s, hs, halloc, hram, ha⟩ := mem_ramTaken.mp ha
  rcases Nat.lt_or_ge b s.addr.toNat with hbelow | hin
  · obtain ⟨t, ht, halloc', hb⟩ := hgap s hs halloc hram b (Finset.mem_Ico.mpr ⟨hlo, hbelow⟩)
    exact mem_ramTaken.mpr ⟨t, ht, halloc', h.inRam ht halloc' hb hlo, hb⟩
  · have hb : b ∈ s.range := Finset.mem_Ico.mpr ⟨hin, hle.trans_lt (Finset.mem_Ico.mp ha).2⟩
    exact mem_ramTaken.mpr ⟨s, hs, halloc, hram, hb⟩

/-- Without gaps, an area is free when the sections end before it. -/
theorem MemoryMap.free_Ico_iff (hgap : Gapless sects) {k n : ℕ} (hn : k < n) (hend : n ≤ 0x40000) :
    Free sects (Finset.Ico (0x20000000 + k) (0x20000000 + n)) ↔ ramTotal sects ≤ k := by
  have harea : Finset.Ico (0x20000000 + k) (0x20000000 + n) ⊆ ram :=
    Finset.Ico_subset_Ico (by omega) (by omega)
  rw [h.free_iff harea, h.ramTaken_eq hgap, Finset.disjoint_left]
  constructor
  · intro hfree
    by_contra hlt
    -- the first address of the area is taken
    exact hfree (a := 0x20000000 + k) (Finset.mem_Ico.mpr (by omega)) (Finset.mem_Ico.mpr (by omega))
  · intro hle a ha hin
    have ha := (Finset.mem_Ico.mp ha).2
    have hin := (Finset.mem_Ico.mp hin).1
    omega

end Sound

/-! ### The areas -/

/-- Firmware that passes, that fills RAM from its origin and whose ends fit leaves core 0 its
stack, and the other areas when it takes no more than what is below them. -/
theorem reserves_free {raw : List Byte} (h : checkSections raw sects = .ok [])
    (hends : ∀ s ∈ sects, s.Allocated → s.EndFits) (hgap : Gapless sects) :
    Free sects core0Reserve ∧ (Free sects core1Stack ↔ ramTotal sects ≤ 0x3E000) ∧
      (Free sects rttBlock ↔ ramTotal sects ≤ 0x38000) := by
  have hnone := memoryFailures_of_checkSections h
  have hmap := memoryMap_of_endFits hnone hends
  obtain ⟨-, -, hsum⟩ := memoryFailures_eq_nil_iff.mp hnone
  have hbudget : ramTotal sects ≤ 0x3F000 := by
    rw [← hmap.toNat_sum_ramSize]
    exact BitVec.le_def.mp hsum
  exact ⟨(hmap.free_Ico_iff hgap (k := 0x3F000) (n := 0x40000) (by decide) le_rfl).mpr hbudget,
    hmap.free_Ico_iff hgap (k := 0x3E000) (n := 0x3F000) (by decide) (by decide),
    hmap.free_Ico_iff hgap (k := 0x38000) (n := 0x38440) (by decide) (by decide)⟩

/-- A section that takes the upper eighth of RAM. -/
def highBss : Sect :=
  { name := ".bss", shType := 8, flags := 3, addr := 0x20038000, offset := 0, size := 0x8000 }

/-- It is small enough for the check, and overlaps all three areas. -/
theorem reserves_occupied :
    checkSections minimalFile [minimalBoot2, minimalVectorTable, highBss] = .ok [] ∧
      highBss.Allocated ∧ ¬ Disjoint highBss.range core0Reserve ∧
      ¬ Disjoint highBss.range core1Stack ∧ ¬ Disjoint highBss.range rttBlock := by
  have hmem : ∀ a : ℕ, 0x20038000 ≤ a → a < 0x20040000 → a ∈ highBss.range := fun a hlo hhi =>
    Finset.mem_Ico.mpr ⟨hlo, hhi⟩
  refine ⟨?_, by decide, fun hd => ?_, fun hd => ?_, fun hd => ?_⟩
  · rw [checkSections_minimal (by decide)]
    decide
  · exact Finset.disjoint_left.mp hd (hmem 0x2003F000 (by decide) (by decide))
      (Finset.mem_Ico.mpr (by decide))
  · exact Finset.disjoint_left.mp hd (hmem 0x2003E000 (by decide) (by decide))
      (Finset.mem_Ico.mpr (by decide))
  · exact Finset.disjoint_left.mp hd (hmem 0x20038000 (by decide) (by decide))
      (Finset.mem_Ico.mpr (by decide))

/-- A section at the start of RAM. -/
def lowBss : Sect :=
  { name := ".bss", shType := 8, flags := 3, addr := 0x20000000, offset := 0, size := 0x400 }

theorem reserves_free_lowBss :
    Free [minimalBoot2, minimalVectorTable, lowBss] core0Reserve ∧
      Free [minimalBoot2, minimalVectorTable, lowBss] core1Stack ∧
      Free [minimalBoot2, minimalVectorTable, lowBss] rttBlock := by
  have hpass : checkSections minimalFile [minimalBoot2, minimalVectorTable, lowBss] = .ok [] := by
    rw [checkSections_minimal (by decide)]
    decide
  have hgap : Gapless [minimalBoot2, minimalVectorTable, lowBss] := by
    intro s hs _ hram a ha
    rw [Finset.mem_Ico] at ha
    -- only the last one is in RAM, and nothing is below it
    rcases List.mem_cons.mp hs with rfl | hs
    · exact absurd hram (by decide)
    rcases List.mem_cons.mp hs with rfl | hs
    · exact absurd hram (by decide)
    rw [List.mem_singleton.mp hs] at ha
    exact absurd ha.2 (Nat.not_lt.mpr ha.1)
  obtain ⟨hcore0, hcore1, hrtt⟩ := reserves_free hpass (by decide) hgap
  exact ⟨hcore0, hcore1.mpr (by decide), hrtt.mpr (by decide)⟩

end Elf
