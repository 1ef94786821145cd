import Inmojomni.Elf.Boot2
import Mathlib.Order.Interval.Finset.Nat

/-!
# What the memory check proves about the sections

`check` computes the end of a section in 32 bits. For sections whose ends do not wrap around it
is exact: a file without failures has all its allocated sections inside flash or inside RAM, no
two of them with an address in common. A section that wraps around ends below everything else
and passes as well (`memoryMap_wrapped`), so that the ends are what decides (`memoryMap_iff`).
-/

namespace Elf

/-- The addresses of a section. -/
def Sect.range (s : Sect) : Finset ℕ := Finset.Ico s.addr.toNat (s.addr.toNat + s.size.toNat)

def flash : Finset ℕ := Finset.Ico 0x10000000 0x10200000

def ram : Finset ℕ := Finset.Ico 0x20000000 0x20040000

/-- Every allocated section lies inside flash or inside RAM, and no two of them meet. -/
structure MemoryMap (sects : List Sect) : Prop where
  inside : ∀ s ∈ sects, s.Allocated → s.range ⊆ flash ∨ s.range ⊆ ram
  disjoint : sects.Pairwise fun s t => s.Allocated → t.Allocated → Disjoint s.range t.range

/-- The end of the section is a 32-bit address. -/
def Sect.EndFits (s : Sect) : Prop := s.addr.toNat + s.size.toNat < 2 ^ 32

instance (s : Sect) : Decidable s.EndFits := inferInstanceAs (Decidable (_ < _))

/-! ### The budget -/

theorem Sect.InRam.not_inFlash {s : Sect} (h : s.InRam) : ¬ s.InFlash := by
  intro hflash
  have hlow := BitVec.le_def.mp h.1
  have hhigh := BitVec.lt_def.mp hflash.2
  have hends : flashEnd.toNat ≤ ramOrigin.toNat := by decide
  omega

/-- What is wrong with the place of an allocated section. -/
def Sect.placement (s : Sect) : List Failure :=
  if s.InFlash then reportIf (s.extent.hi > flashEnd) (.overflowsFlash s.name)
  else if s.InRam then reportIf (s.extent.hi > ramEnd) (.overflowsRam s.name)
  else [.outsideMemory s.name s.addr]

/-- How much of RAM the section takes. -/
def Sect.ramSize (s : Sect) : Word := if s.InRam then s.size else 0

/-- What one section adds to the budget. -/
theorem place_eq (m : Budget) (s : Sect) :
    place m s =
      if s.Allocated then
        { ramBytes := m.ramBytes + s.ramSize
          extents := m.extents ++ [s.extent]
          fails := m.fails ++ s.placement }
      else m := by
  by_cases hs : s.Allocated
  · rw [place, if_pos hs, if_pos hs, Sect.placement, Sect.ramSize]
    by_cases hram : s.InRam
    · have hflash := hram.not_inFlash
      simp only [if_neg hflash, if_pos hram]
    · by_cases hflash : s.InFlash
      · simp only [if_neg hram, if_pos hflash, BitVec.ofNat_eq_ofNat, BitVec.add_zero]
      · simp only [if_neg hram, if_neg hflash, BitVec.ofNat_eq_ofNat, BitVec.add_zero]
  · rw [place, if_neg hs, if_neg hs]

/-- The allocated sections, in the order of the file. -/
def allocated (sects : List Sect) : List Sect := sects.filter fun s => s.Allocated

theorem mem_allocated {sects : List Sect} {s : Sect} :
    s ∈ allocated sects ↔ s ∈ sects ∧ s.Allocated := by
  rw [allocated, List.mem_filter, decide_eq_true_iff]

theorem allocated_cons_of_allocated (sects : List Sect) {s : Sect} (h : s.Allocated) :
    allocated (s :: sects) = s :: allocated sects :=
  List.filter_cons_of_pos (decide_eq_true h)

theorem allocated_cons_of_not_allocated (sects : List Sect) {s : Sect} (h : ¬ s.Allocated) :
    allocated (s :: sects) = allocated sects :=
  List.filter_cons_of_neg (by simpa using h)

/-- The budget of all sections. -/
theorem foldl_place (m : Budget) (sects : List Sect) :
    sects.foldl place m =
      { ramBytes := m.ramBytes + ((allocated sects).map Sect.ramSize).sum
        extents := m.extents ++ (allocated sects).map Sect.extent
        fails := m.fails ++ (allocated sects).flatMap Sect.placement } := by
  induction sects generalizing m with
  | nil => simp [allocated]
  | cons s sects ih =>
    rw [List.foldl_cons, ih, place_eq]
    by_cases h : s.Allocated
    · rw [if_pos h, allocated_cons_of_allocated sects h]
      simp [BitVec.add_assoc]
    · rw [if_neg h, allocated_cons_of_not_allocated sects h]

/-! ### No failures -/

/-- The neighbour test finds nothing when each extent ends before the next one starts. -/
theorem overlaps_eq_nil_iff {l : List Extent} :
    overlaps l = [] ↔ l.IsChain fun a b => a.hi.toNat ≤ b.lo.toNat := by
  fun_induction overlaps l with
  | case1 a b rest ih =>
    rw [List.append_eq_nil_iff, reportIf_eq_nil_iff, ih, List.isChain_cons_cons]
    exact and_congr_left' (not_lt (α := ℕ))
  | case2 l hshort =>
    refine iff_of_true rfl ?_
    match l, hshort with
    | [], _ => exact List.IsChain.nil
    | [a], _ => exact List.IsChain.singleton a
    | a :: b :: rest, h => exact absurd rfl (h a b rest)

/-- What the memory check tests. -/
theorem memoryFailures_eq_nil_iff {sects : List Sect} :
    memoryFailures sects = [] ↔
      (∀ s ∈ allocated sects, s.placement = []) ∧
      (Intervals.swapSort (fun e => e.lo.toNat) ((allocated sects).map Sect.extent)).IsChain
        (fun a b => a.hi.toNat ≤ b.lo.toNat) ∧
      ((allocated sects).map Sect.ramSize).sum ≤ ramEnd - ramOrigin - stackMargin := by
  simp only [memoryFailures, foldl_place, List.nil_append, List.append_eq_nil_iff,
    overlaps_eq_nil_iff, reportIf_eq_nil_iff, List.flatMap_eq_nil_iff, and_assoc]
  simp only [BitVec.ofNat_eq_ofNat, BitVec.zero_add, gt_iff_lt, BitVec.not_lt]

theorem memoryFailures_of_checkSections {raw : List Byte} {sects : List Sect}
    (h : checkSections raw sects = .ok []) : memoryFailures sects = [] := by
  obtain ⟨fails, -, hfails⟩ := Fallible.bind_eq_ok_iff.mp h
  exact (List.append_eq_nil_iff.mp (Except.ok.inj hfails)).2

/-! ### Places -/

theorem Sect.Allocated.size_pos {s : Sect} (h : s.Allocated) : 0 < s.size.toNat := by
  rw [Nat.pos_iff_ne_zero]
  intro hzero
  exact h (Or.inr (BitVec.eq_of_toNat_eq hzero))

theorem Sect.toNat_hi {s : Sect} (h : s.EndFits) :
    s.extent.hi.toNat = s.addr.toNat + s.size.toNat := by
  rw [Sect.extent, BitVec.toNat_add, Nat.mod_eq_of_lt h]

theorem Sect.Allocated.lo_lt_hi {s : Sect} (h : s.Allocated) (hend : s.EndFits) :
    s.extent.lo.toNat < s.extent.hi.toNat := by
  rw [Sect.toNat_hi hend]
  exact Nat.lt_add_of_pos_right h.size_pos

/-- A section that lies inside a region ends there. -/
theorem Sect.range_subset_iff {s : Sect} (h : s.Allocated) {lo hi : ℕ} :
    s.range ⊆ Finset.Ico lo hi ↔ lo ≤ s.addr.toNat ∧ s.addr.toNat + s.size.toNat ≤ hi :=
  Finset.Ico_subset_Ico_iff (Nat.lt_add_of_pos_right h.size_pos)

/-- For an end that fits, the test of start and end is exact. -/
theorem Sect.placement_eq_nil_iff {s : Sect} (h : s.Allocated) (hend : s.EndFits) :
    s.placement = [] ↔ s.range ⊆ flash ∨ s.range ⊆ ram := by
  have hpos := h.size_pos
  rw [flash, ram, Sect.range_subset_iff h, Sect.range_subset_iff h, Sect.placement]
  have hflash : s.InFlash ↔ 0x10000000 ≤ s.addr.toNat ∧ s.addr.toNat < 0x10200000 := Iff.rfl
  have hram : s.InRam ↔ 0x20000000 ≤ s.addr.toNat ∧ s.addr.toNat < 0x20040000 := Iff.rfl
  have hhiFlash : s.extent.hi > flashEnd ↔ 0x10200000 < s.addr.toNat + s.size.toNat := by
    rw [← Sect.toNat_hi hend]
    rfl
  have hhiRam : s.extent.hi > ramEnd ↔ 0x20040000 < s.addr.toNat + s.size.toNat := by
    rw [← Sect.toNat_hi hend]
    rfl
  split
  · next hin =>
    rw [hflash] at hin
    rw [reportIf_eq_nil_iff, hhiFlash]
    omega
  · next hout =>
    rw [hflash] at hout
    split
    · next hin =>
      rw [hram] at hin
      rw [reportIf_eq_nil_iff, hhiRam]
      omega
    · next hout' =>
      rw [hram] at hout'
      refine iff_of_false (List.cons_ne_nil _ _) ?_
      omega

/-- The addresses of an extent. -/
def Extent.range (e : Extent) : Finset ℕ := Finset.Ico e.lo.toNat e.hi.toNat

theorem Sect.range_extent {s : Sect} (h : s.EndFits) : s.extent.range = s.range := by
  rw [Extent.range, Sect.toNat_hi h]
  rfl

/-- For ends that fit, the neighbour test after the sort is exact. -/
theorem isChain_swapSort_iff {l : List Sect} (h : ∀ s ∈ l, s.Allocated)
    (hend : ∀ s ∈ l, s.EndFits) :
    (Intervals.swapSort (fun e => e.lo.toNat) (l.map Sect.extent)).IsChain
        (fun a b => a.hi.toNat ≤ b.lo.toNat) ↔
      l.Pairwise fun s t => Disjoint s.range t.range := by
  have hperm : (Intervals.swapSort (fun e : Extent => e.lo.toNat) (l.map Sect.extent)).Perm
    (l.map Sect.extent) := Intervals.swapSort_perm _
  have hsorted : (Intervals.swapSort (fun e => e.lo.toNat) (l.map Sect.extent)).Pairwise
    (fun a b => a.lo.toNat ≤ b.lo.toNat) := Intervals.sorted_swapSort _
  generalize Intervals.swapSort (fun e => e.lo.toNat) (l.map Sect.extent) = sorted at hperm hsorted
  -- no extent is empty
  have hne : ∀ e ∈ sorted, e.lo.toNat < e.hi.toNat := by
    intro e he
    obtain ⟨s, hs, rfl⟩ := List.mem_map.mp (hperm.mem_iff.mp he)
    exact (h s hs).lo_lt_hi (hend s hs)
  -- disjointness does not depend on the order
  have hdisjoint : sorted.Pairwise (fun a b => Disjoint a.range b.range) ↔
      l.Pairwise fun s t => Disjoint s.range t.range := by
    rw [hperm.pairwise_iff fun hab => hab.symm, List.pairwise_map]
    refine ⟨fun hp => hp.imp_of_mem fun hs ht hst => ?_, fun hp => hp.imp_of_mem fun hs ht hst => ?_⟩
    · rwa [Sect.range_extent (hend _ hs), Sect.range_extent (hend _ ht)] at hst
    · rwa [Sect.range_extent (hend _ hs), Sect.range_extent (hend _ ht)]
  rw [← hdisjoint]
  constructor
  · intro hchain
    refine (Intervals.pairwise_of_isChain hne hchain).imp fun hab => ?_
    refine Finset.disjoint_left.mpr fun x ha hb => ?_
    have hxa := (Finset.mem_Ico.mp ha).2
    have hxb := (Finset.mem_Ico.mp hb).1
    omega
  · intro hp
    refine List.Pairwise.isChain ((hp.and hsorted).imp_of_mem fun ha hb hab => ?_)
    -- the start of the later one is not in the earlier one
    by_contra hlt
    exact Finset.disjoint_left.mp hab.1
      (Finset.mem_Ico.mpr ⟨hab.2, not_le.mp hlt⟩) (Finset.mem_Ico.mpr ⟨le_rfl, hne _ hb⟩)

/-! ### The memory map -/

/-- Sections whose ends fit, and of which the memory check finds nothing wrong. -/
theorem memoryMap_of_endFits {sects : List Sect} (h : memoryFailures sects = [])
    (hends : ∀ s ∈ sects, s.Allocated → s.EndFits) : MemoryMap sects := by
  obtain ⟨hplaced, hchain, -⟩ := memoryFailures_eq_nil_iff.mp h
  have hfits : ∀ s ∈ allocated sects, s.EndFits := fun s hs =>
    hends s (mem_allocated.mp hs).1 (mem_allocated.mp hs).2
  refine ⟨fun s hs halloc => ?_, ?_⟩
  · have hmem := mem_allocated.mpr ⟨hs, halloc⟩
    exact (Sect.placement_eq_nil_iff halloc (hfits s hmem)).mp (hplaced s hmem)
  · have hp := (isChain_swapSort_iff (fun s hs => (mem_allocated.mp hs).2) hfits).mp hchain
    rw [allocated, List.pairwise_filter] at hp
    exact hp.imp fun hst halloc halloc' => hst (decide_eq_true halloc) (decide_eq_true halloc')

/-- In a sound memory map all ends fit. -/
theorem MemoryMap.endFits {sects : List Sect} (h : MemoryMap sects) {s : Sect} (hs : s ∈ sects)
    (halloc : s.Allocated) : s.EndFits := by
  have hinside := h.inside s hs halloc
  rw [flash, ram, Sect.range_subset_iff halloc, Sect.range_subset_iff halloc] at hinside
  rw [Sect.EndFits]
  omega

/-- The memory check is sound exactly for sections whose ends are 32-bit addresses. -/
theorem memoryMap_iff {raw : List Byte} {sects : List Sect}
    (h : checkSections raw sects = .ok []) :
    MemoryMap sects ↔ ∀ s ∈ sects, s.Allocated → s.EndFits :=
  ⟨fun hmap _ hs halloc => hmap.endFits hs halloc,
    memoryMap_of_endFits (memoryFailures_of_checkSections h)⟩

/-! ### A section that wraps around -/

/-- An image of no code. -/
def blankBoot2 : List Byte := List.replicate 252 0 ++ bytes32 (crcOf (List.replicate 252 0))

/-- A file of a boot2 image and the first two words of a vector table. -/
def minimalFile : List Byte := blankBoot2 ++ (bytes32 0x20040000 ++ bytes32 0x10000201)

def minimalBoot2 : Sect :=
  { name := ".boot2", shType := 1, flags := 2, addr := 0x10000000, offset := 0, size := 256 }

def minimalVectorTable : Sect :=
  { name := ".vector_table", shType := 1, flags := 2, addr := 0x10000100, offset := 256, size := 8 }

/-- The checks of the named sections pass, whatever other sections there are. -/
theorem namedFailures_minimal {rest : List Sect}
    (h : ∀ s ∈ rest, s.name ≠ ".boot2" ∧ s.name ≠ ".vector_table") :
    namedFailures minimalFile (minimalBoot2 :: minimalVectorTable :: rest) = .ok [] := by
  have hlen : blankBoot2.length = 256 := by
    rw [blankBoot2, List.length_append, List.length_replicate]
    rfl
  have hboot2 : checkBoot2 minimalFile minimalBoot2 = .ok [] := by
    have hcontents : contents minimalFile minimalBoot2 = blankBoot2 := List.take_left' hlen
    rw [checkBoot2_eq rfl List.length_replicate hcontents, reportIf, reportIf,
      if_neg (by decide), if_neg (not_not.mpr rfl)]
    rfl
  have hvt : checkVectorTable minimalFile minimalVectorTable = .ok [] := by
    have hdrop : minimalFile.drop 256 = bytes32 0x20040000 ++ bytes32 0x10000201 :=
      List.drop_left' hlen
    have hfile : minimalFile.length = 264 := by
      rw [minimalFile, List.length_append, hlen]
      rfl
    have hsp : rd32 minimalFile 256 = .ok 0x20040000 := by
      rw [rd32_eq (by rw [hfile]; decide), ← word32_drop, hdrop]
      decide
    have hreset : rd32 minimalFile (256 + 4) = .ok 0x10000201 := by
      have hdrop' : minimalFile.drop (256 + 4) = bytes32 0x10000201 := by
        rw [← List.drop_drop, hdrop]
        rfl
      rw [rd32_eq hfile.ge, ← word32_drop, hdrop']
      decide
    have hoff : minimalVectorTable.offset.toNat = 256 := rfl
    rw [checkVectorTable, hoff, hsp, hreset]
    decide
  have hrest : ∀ s ∈ rest, ∀ st, checkNamed minimalFile st s = .ok st := fun s hs st =>
    checkNamed_other (h s hs).1 (h s hs).2
  have hloop : ∀ st, rest.foldlM (checkNamed minimalFile) st = .ok st := fun st => by
    rw [Fallible.foldlM_eq_ok hrest, List.foldl_fixed]
  rw [namedFailures, List.foldlM_cons, checkNamed_boot2 rfl hboot2, Fallible.ok_bind,
    List.foldlM_cons, checkNamed_vectorTable rfl hvt, Fallible.ok_bind, hloop]
  rfl

theorem checkSections_minimal {rest : List Sect}
    (h : ∀ s ∈ rest, s.name ≠ ".boot2" ∧ s.name ≠ ".vector_table") :
    checkSections minimalFile (minimalBoot2 :: minimalVectorTable :: rest) =
      .ok (memoryFailures (minimalBoot2 :: minimalVectorTable :: rest)) := by
  rw [checkSections, namedFailures_minimal h]
  rfl

/-- A section of almost 4 GB in flash. -/
def wrapped : Sect :=
  { name := ".text", shType := 1, flags := 6, addr := 0x10000200, offset := 0, size := 0xF0000000 }

/-- It ends at `0x200` for the check, and is not found to be too long. -/
theorem memoryMap_wrapped :
    checkSections minimalFile [minimalBoot2, minimalVectorTable, wrapped] = .ok [] ∧
      wrapped.Allocated ∧ ¬(wrapped.range ⊆ flash ∨ wrapped.range ⊆ ram) := by
  have halloc : wrapped.Allocated := by decide
  refine ⟨?_, halloc, ?_⟩
  · rw [checkSections_minimal (by decide)]
    decide
  · rw [flash, ram, Sect.range_subset_iff halloc, Sect.range_subset_iff halloc]
    decide

/-- The smallest firmware that passes has its sections in place. -/
theorem memoryMap_minimal : MemoryMap [minimalBoot2, minimalVectorTable] := by
  have hpass : checkSections minimalFile [minimalBoot2, minimalVectorTable] = .ok [] := by
    rw [checkSections_minimal (by decide)]
    decide
  refine (memoryMap_iff hpass).mpr ?_
  decide

end Elf
