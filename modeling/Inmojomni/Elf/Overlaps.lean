import Inmojomni.Elf.MemoryMap
import Inmojomni.Elf.Outcome

/-!
# Overlap messages

For sections whose ends do not wrap around, `check` reports an overlap exactly when two
allocated sections have an address in common, and each message names two that have
(`overlap_messages`).

The tool keeps the starts, the ends and the names in three lists. The sort exchanges the same
entries in all three, so the lists stay the columns of one list of extents
(`overlaps_columns`), which is sorted as in `Intervals`.
-/

namespace Elf

/-! ### Three lists -/

/-- The lists `lo_l`, `hi_l` and `name_l`. -/
structure Columns where
  lo : List Word
  hi : List Word
  name : List String

/-- Exchange the entries at `j` and `j + 1`. -/
def swapAt {α : Type} (l : List α) (j : ℕ) : List α :=
  match l[j]?, l[j + 1]? with
  | some a, some b => (l.set j b).set (j + 1) a
  | _, _ => l

/-- The loop that collects the sections. -/
def Columns.push (c : Columns) (s : Sect) : Columns :=
  if s.Allocated then
    { lo := c.lo ++ [s.addr], hi := c.hi ++ [s.addr + s.size], name := c.name ++ [s.name] }
  else c

/-- The inner loop of the insertion sort by start. -/
def Columns.sift (c : Columns) : ℕ → Columns
  | 0 => c
  | j + 1 =>
    match c.lo[j]?, c.lo[j + 1]? with
    | some a, some b =>
      if a > b then
        Columns.sift { lo := swapAt c.lo j, hi := swapAt c.hi j, name := swapAt c.name j } j
      else c
    | _, _ => c

def Columns.sort (c : Columns) : Columns :=
  (List.range' 1 (c.lo.length - 1)).foldl Columns.sift c

/-- The test of entry `i` against the one before it. -/
def Columns.overlapAt (c : Columns) (i : ℕ) : List Failure :=
  match c.hi[i - 1]?, c.lo[i]?, c.name[i - 1]?, c.name[i]? with
  | some hi, some lo, some name, some name' => reportIf (hi > lo) (.overlap name name')
  | _, _, _, _ => []

def Columns.overlaps (c : Columns) : List Failure :=
  (List.range' 1 (c.lo.length - 1)).flatMap c.overlapAt

/-- The columns of a list of extents. -/
def columns (rows : List Extent) : Columns where
  lo := rows.map Extent.lo
  hi := rows.map Extent.hi
  name := rows.map Extent.name

theorem swapAt_map {α β : Type} (f : α → β) (l : List α) (j : ℕ) :
    swapAt (l.map f) j = (swapAt l j).map f := by
  simp only [swapAt, List.getElem?_map]
  cases l[j]? with
  | none => rfl
  | some a =>
    cases l[j + 1]? with
    | none => rfl
    | some b => simp only [Option.map_some, List.map_set]

theorem push_columns (rows : List Extent) {s : Sect} (h : s.Allocated) :
    (columns rows).push s = columns (rows ++ [s.extent]) := by
  rw [Columns.push, if_pos h]
  simp [columns, Sect.extent]

/-- The loop collects the columns of the extents. -/
theorem foldl_push (rows : List Extent) (sects : List Sect) :
    sects.foldl Columns.push (columns rows)
      = columns (rows ++ (allocated sects).map Sect.extent) := by
  induction sects generalizing rows with
  | nil => simp [allocated]
  | cons s sects ih =>
    rw [List.foldl_cons]
    by_cases hs : s.Allocated
    · rw [push_columns rows hs, ih, allocated_cons_of_allocated sects hs]
      simp
    · rw [Columns.push, if_neg hs, ih, allocated_cons_of_not_allocated sects hs]

/-- The inner loop moves the three lists together. -/
theorem sift_columns (rows : List Extent) (j : ℕ) :
    (columns rows).sift j = columns (Intervals.sift (fun e => e.lo.toNat) rows j) := by
  induction j generalizing rows with
  | zero => rfl
  | succ j ih =>
    have hlo : ∀ i, (columns rows).lo[i]? = rows[i]?.map Extent.lo := fun i => List.getElem?_map
    rw [Columns.sift, Intervals.sift, hlo, hlo]
    cases ha : rows[j]? with
    | none => rfl
    | some a =>
      cases hb : rows[j + 1]? with
      | none => rfl
      | some b =>
        have hswap : swapAt rows j = (rows.set j b).set (j + 1) a := by rw [swapAt, ha, hb]
        have hcolumns : Columns.mk (swapAt (columns rows).lo j) (swapAt (columns rows).hi j)
            (swapAt (columns rows).name j) = columns ((rows.set j b).set (j + 1) a) := by
          rw [← hswap]
          simp only [columns, swapAt_map]
        simp only [Option.map_some, hcolumns, ih]
        exact (apply_ite columns (a.lo > b.lo) _ _).symm

theorem sort_columns (rows : List Extent) :
    (columns rows).sort = columns (Intervals.swapSort (fun e => e.lo.toNat) rows) := by
  have hlen : (columns rows).lo.length = rows.length := List.length_map _
  rw [Columns.sort, Intervals.swapSort, hlen]
  generalize List.range' 1 (rows.length - 1) = rounds
  induction rounds generalizing rows with
  | nil => rfl
  | cons j rounds ih =>
    rw [List.foldl_cons, List.foldl_cons, sift_columns, ih _ (List.length_map _)]

/-- One test of neighbours reads one row and the next. -/
theorem overlapAt_columns (rows : List Extent) (i : ℕ) :
    (columns rows).overlapAt (i + 1) = match rows[i]?, rows[i + 1]? with
      | some a, some b => reportIf (a.hi > b.lo) (.overlap a.name b.name)
      | _, _ => [] := by
  simp only [Columns.overlapAt, columns, List.getElem?_map, Nat.add_sub_cancel]
  cases rows[i]? with
  | none => rfl
  | some a =>
    cases rows[i + 1]? with
    | none => rfl
    | some b => rfl

/-- The tests of neighbours read the rows one after the other. -/
theorem overlaps_columns (rows : List Extent) : (columns rows).overlaps = overlaps rows := by
  have hlen : ∀ rows, (columns rows).lo.length = rows.length := fun rows => List.length_map _
  simp only [Columns.overlaps, hlen]
  fun_induction overlaps rows with
  | case1 a b rest ih =>
    -- the later tests are those of the list without its first row
    have hshift : ∀ i ∈ List.range' 1 rest.length,
        (columns (a :: b :: rest)).overlapAt (1 + i) = (columns (b :: rest)).overlapAt i := by
      intro i hi
      obtain ⟨k, rfl⟩ := Nat.exists_eq_add_of_le' (List.mem_range'_1.mp hi).1
      rw [overlapAt_columns, Nat.add_comm 1, overlapAt_columns]
      rfl
    have hrange : List.range' 1 ((a :: b :: rest).length - 1)
        = 1 :: (List.range' 1 rest.length).map (1 + ·) := by
      rw [List.map_add_range']
      rfl
    rw [hrange, List.flatMap_cons, List.flatMap_map, List.flatMap_congr hshift]
    exact congrArg₂ (· ++ ·) (overlapAt_columns (a :: b :: rest) 0) ih
  | case2 l hshort =>
    rcases l with _ | ⟨a, _ | ⟨b, rest⟩⟩
    · rfl
    · rfl
    · exact absurd rfl (hshort a b rest)

/-- What `check` finds with its three lists. -/
theorem overlaps_swapSort_extents (sects : List Sect) :
    overlaps (Intervals.swapSort (fun e => e.lo.toNat) ((allocated sects).map Sect.extent))
      = (sects.foldl Columns.push { lo := [], hi := [], name := [] }).sort.overlaps := by
  have hpush : sects.foldl Columns.push { lo := [], hi := [], name := [] }
      = columns ((allocated sects).map Sect.extent) := foldl_push [] sects
  rw [hpush, sort_columns, overlaps_columns]

/-! ### Messages -/

/-- The message is that of an overlap. -/
def OverlapMessage (m : String) : Prop := ∃ name name', m = (Failure.overlap name name').message

/-- The failure is about a single section, or about the whole file. -/
def Failure.Single : Failure → Prop
  | .cannotParse _ | .overlap _ _ => False
  | _ => True

/-- The last letter of a text. -/
def lastLetter (s : String) : Option Char := s.toList.getLast?

theorem lastLetter_append (s : String) {t : String} {c : Char} (h : lastLetter t = some c) :
    lastLetter (s ++ t) = some c := by
  rw [lastLetter] at h
  rw [lastLetter, String.toList_append, List.getLast?_append, h, Option.some_or]

/-- The message of such a failure ends with another letter than that of an overlap. -/
theorem Failure.Single.lastLetter_message {f : Failure} (h : f.Single) :
    ∃ c, lastLetter f.message = some c ∧ c ≠ 'p' := by
  cases f with
  | cannotParse msg => exact h.elim
  | boot2At addr => exact ⟨'0', lastLetter_append _ (by decide), by decide⟩
  | boot2Size size => exact ⟨'6', lastLetter_append _ (by decide), by decide⟩
  | boot2Checksum want got => exact ⟨')', lastLetter_append _ (by decide), by decide⟩
  | vectorTableAt addr => exact ⟨'0', lastLetter_append _ (by decide), by decide⟩
  | initialSp sp => exact ⟨'s', lastLetter_append _ (by decide), by decide⟩
  | resetThumb reset => exact ⟨'t', lastLetter_append _ (by decide), by decide⟩
  | resetOutside reset => exact ⟨'h', lastLetter_append _ (by decide), by decide⟩
  | missingBoot2 => exact ⟨'n', by decide, by decide⟩
  | missingVectorTable => exact ⟨'n', by decide, by decide⟩
  | overflowsFlash name => exact ⟨'h', lastLetter_append _ (by decide), by decide⟩
  | overflowsRam name => exact ⟨'M', lastLetter_append _ (by decide), by decide⟩
  | outsideMemory name lo => exact ⟨'M', lastLetter_append _ (by decide), by decide⟩
  | overlap name name' => exact h.elim
  | ramUsage ramBytes => exact ⟨'k', lastLetter_append _ (by decide), by decide⟩

theorem Failure.Single.not_overlapMessage {f : Failure} (h : f.Single) :
    ¬ OverlapMessage f.message := by
  rintro ⟨name, name', heq⟩
  obtain ⟨c, hc, hne⟩ := h.lastLetter_message
  have hp : lastLetter (Failure.overlap name name').message = some 'p' :=
    lastLetter_append _ (by decide)
  rw [heq, hp] at hc
  exact hne (Option.some.inj hc).symm

theorem mem_reportIf {p : Prop} [Decidable p] {f g : Failure} : g ∈ reportIf p f ↔ p ∧ g = f := by
  rw [reportIf]
  split
  · next h => rw [List.mem_singleton, and_iff_right h]
  · next h => exact iff_of_false List.not_mem_nil fun hg => h hg.1

/-- The named checks look at one section at a time. -/
theorem single_of_mem_namedOutcome {raw : List Byte} {sects : List Sect} {f : Failure}
    (h : f ∈ namedOutcome raw sects) : f.Single := by
  rw [namedOutcome, List.mem_append, List.mem_append, mem_reportIf, mem_reportIf] at h
  rcases h with (h | ⟨-, rfl⟩) | ⟨-, rfl⟩
  · obtain ⟨s, -, hs⟩ := List.mem_flatMap.mp h
    rw [sectFailures] at hs
    split at hs
    · rw [boot2Failures, List.mem_append, mem_reportIf] at hs
      rcases hs with ⟨-, rfl⟩ | hs
      · trivial
      split at hs
      · rw [List.mem_singleton.mp hs]
        trivial
      · rw [(mem_reportIf.mp hs).2]
        trivial
    split at hs
    · simp only [vectorTableFailures, List.mem_append, mem_reportIf] at hs
      rcases hs with ((⟨-, rfl⟩ | ⟨-, rfl⟩) | ⟨-, rfl⟩) | ⟨-, rfl⟩ <;> trivial
    · exact absurd hs List.not_mem_nil
  · trivial
  · trivial

theorem Sect.single_of_mem_placement {s : Sect} {f : Failure} (h : f ∈ s.placement) : f.Single := by
  rw [Sect.placement] at h
  split at h
  · rw [(mem_reportIf.mp h).2]
    trivial
  split at h
  · rw [(mem_reportIf.mp h).2]
    trivial
  · rw [List.mem_singleton.mp h]
    trivial

/-- An overlap that is found is one of neighbours. -/
theorem exists_of_mem_overlaps {l : List Extent} {f : Failure} (h : f ∈ overlaps l) :
    ∃ pre a b post, l = pre ++ a :: b :: post ∧ b.lo < a.hi ∧ f = .overlap a.name b.name := by
  fun_induction overlaps l with
  | case1 a b rest ih =>
    rw [List.mem_append, mem_reportIf] at h
    rcases h with ⟨hlt, rfl⟩ | h
    · exact ⟨[], a, b, rest, rfl, hlt, rfl⟩
    · obtain ⟨pre, a', b', post, hl, hlt, hf⟩ := ih h
      exact ⟨a :: pre, a', b', post, by rw [hl, List.cons_append], hlt, hf⟩
  | case2 l hshort => exact absurd h List.not_mem_nil

/-- The overlaps that `check` finds among the sections. -/
def foundOverlaps (sects : List Sect) : List Failure :=
  overlaps (Intervals.swapSort (fun e => e.lo.toNat) ((allocated sects).map Sect.extent))

/-- The overlap messages are the messages of these. -/
theorem overlapMessage_iff {raw : List Byte} {sects : List Sect} {fails : List Failure}
    (h : checkSections raw sects = .ok fails) {m : String} :
    m ∈ fails.map Failure.message ∧ OverlapMessage m ↔
      m ∈ (foundOverlaps sects).map Failure.message := by
  obtain ⟨named, hnamed, hfails⟩ := Fallible.bind_eq_ok_iff.mp h
  obtain ⟨-, rfl⟩ := namedFailures_eq_ok_iff.mp hnamed
  obtain rfl := Except.ok.inj hfails
  rw [memoryFailures, foldl_place, List.nil_append, List.nil_append, ← foundOverlaps]
  constructor
  · rintro ⟨hm, hoverlap⟩
    obtain ⟨f, hf, rfl⟩ := List.mem_map.mp hm
    have hsingle : ¬ f.Single := fun hs => hs.not_overlapMessage hoverlap
    rw [List.mem_append, List.mem_append, List.mem_append] at hf
    rcases hf with hf | (hf | hf) | hf
    · exact absurd (single_of_mem_namedOutcome hf) hsingle
    · obtain ⟨s, -, hs⟩ := List.mem_flatMap.mp hf
      exact absurd (Sect.single_of_mem_placement hs) hsingle
    · exact List.mem_map_of_mem hf
    · rw [(mem_reportIf.mp hf).2] at hsingle
      exact absurd trivial hsingle
  · intro hm
    obtain ⟨f, hf, rfl⟩ := List.mem_map.mp hm
    obtain ⟨-, a, b, -, -, -, rfl⟩ := exists_of_mem_overlaps hf
    refine ⟨List.mem_map_of_mem ?_, a.name, b.name, rfl⟩
    exact List.mem_append_right _ (List.mem_append_left _ (List.mem_append_right _ hf))

/-! ### Sections that meet -/

/-- Two allocated sections have an address in common. -/
def Sect.Meet (s t : Sect) : Prop := s.Allocated ∧ t.Allocated ∧ ¬ Disjoint s.range t.range

/-- A symmetric relation of allocated sections holds throughout the sorted list if it does in
the file. -/
theorem pairwise_swapSort_iff {R : Extent → Extent → Prop} (hR : ∀ {a b}, R a b → R b a)
    {sects : List Sect} :
    (Intervals.swapSort (fun e => e.lo.toNat) ((allocated sects).map Sect.extent)).Pairwise R ↔
      sects.Pairwise fun s t => s.Allocated → t.Allocated → R s.extent t.extent := by
  rw [(Intervals.swapSort_perm _).pairwise_iff hR, List.pairwise_map, allocated,
    List.pairwise_filter]
  simp only [decide_eq_true_iff]

/-- There is an overlap to be found exactly where two sections meet. -/
theorem foundOverlaps_eq_nil_iff {sects : List Sect}
    (hends : ∀ s ∈ sects, s.Allocated → s.EndFits) :
    foundOverlaps sects = [] ↔ sects.Pairwise fun s t =>
      s.Allocated → t.Allocated → Disjoint s.range t.range := by
  have hfits : ∀ s ∈ allocated sects, s.EndFits := fun s hs =>
    hends s (mem_allocated.mp hs).1 (mem_allocated.mp hs).2
  rw [foundOverlaps, overlaps_eq_nil_iff,
    isChain_swapSort_iff (fun s hs => (mem_allocated.mp hs).2) hfits, allocated,
    List.pairwise_filter]
  simp only [decide_eq_true_iff]

theorem exists_meet_iff {sects : List Sect} :
    (∃ s t, Intervals.PairIn sects s t ∧ s.Meet t) ↔
      ¬ sects.Pairwise fun s t => s.Allocated → t.Allocated → Disjoint s.range t.range := by
  rw [Intervals.not_pairwise_iff fun h ht hs => (h hs ht).symm]
  simp only [Classical.not_imp]
  rfl

theorem rel_of_neighbours {R : Extent → Extent → Prop} {pre post : List Extent} {a b : Extent}
    (h : (pre ++ a :: b :: post).Pairwise R) : R a b :=
  (List.pairwise_cons.mp (List.pairwise_append.mp h).2.1).1 b List.mem_cons_self

/-- The two extents do not meet, or their names are not the two given. -/
def Extent.Clear (name name' : String) (a b : Extent) : Prop :=
  Disjoint a.range b.range ∨
    ¬(a.name = name ∧ b.name = name' ∨ b.name = name ∧ a.name = name')

theorem Extent.Clear.symm {name name' : String} {a b : Extent} (h : Extent.Clear name name' a b) :
    Extent.Clear name name' b a :=
  h.imp (fun hd => hd.symm) (mt Or.symm)

/-- What is found names two sections that meet. -/
theorem exists_meet_of_mem_foundOverlaps {sects : List Sect}
    (hends : ∀ s ∈ sects, s.Allocated → s.EndFits) {f : Failure} (h : f ∈ foundOverlaps sects) :
    ∃ s t, Intervals.PairIn sects s t ∧ s.Meet t ∧ f = .overlap s.name t.name := by
  obtain ⟨pre, a, b, post, hsplit, hlt, rfl⟩ := exists_of_mem_overlaps h
  -- the start of the second is an address of both
  have hle : a.lo.toNat ≤ b.lo.toNat := rel_of_neighbours (hsplit ▸ Intervals.sorted_swapSort _)
  have hmem : b ∈ Intervals.swapSort (fun e => e.lo.toNat) ((allocated sects).map Sect.extent) := by
    rw [hsplit]
    simp
  obtain ⟨s, hs, rfl⟩ := List.mem_map.mp ((Intervals.swapSort_perm _).mem_iff.mp hmem)
  obtain ⟨hs, halloc⟩ := mem_allocated.mp hs
  have hmeet : ¬ Disjoint a.range s.extent.range := Finset.not_disjoint_iff.mpr
    ⟨s.extent.lo.toNat, Finset.mem_Ico.mpr ⟨hle, hlt⟩,
      Finset.mem_Ico.mpr ⟨le_rfl, halloc.lo_lt_hi (hends s hs halloc)⟩⟩
  have hbreak : ¬ sects.Pairwise fun s' t => s'.Allocated → t.Allocated →
      Extent.Clear a.name s.extent.name s'.extent t.extent := by
    rw [← pairwise_swapSort_iff (R := Extent.Clear a.name s.extent.name) Extent.Clear.symm, hsplit]
    exact fun hp => (rel_of_neighbours hp).elim hmeet fun hne => hne (.inl ⟨rfl, rfl⟩)
  obtain ⟨t, u, hpair, hclear⟩ :=
    (Intervals.not_pairwise_iff fun h hu ht => (h ht hu).symm).mp hbreak
  simp only [Classical.not_imp] at hclear
  obtain ⟨ht, hu, hclear⟩ := hclear
  obtain ⟨hdisjoint, hnames⟩ := not_or.mp hclear
  rw [Sect.range_extent (hends t hpair.mem.1 ht), Sect.range_extent (hends u hpair.mem.2 hu)]
    at hdisjoint
  rcases not_not.mp hnames with ⟨hta, hub⟩ | ⟨hua, htb⟩
  · exact ⟨t, u, hpair, ⟨ht, hu, hdisjoint⟩, by rw [← hta, ← hub]; rfl⟩
  · exact ⟨u, t, hpair.symm, ⟨hu, ht, fun h => hdisjoint h.symm⟩, by rw [← hua, ← htb]; rfl⟩

/-- **Overlap messages.** For sections whose ends do not wrap around, `check` reports an overlap
if and only if two sections meet, and every overlap message names two sections that do. -/
theorem overlap_messages {raw : List Byte} {sects : List Sect} {fails : List Failure}
    (h : checkSections raw sects = .ok fails) (hends : ∀ s ∈ sects, s.Allocated → s.EndFits) :
    ((∃ m ∈ fails.map Failure.message, OverlapMessage m) ↔
      ∃ s t, Intervals.PairIn sects s t ∧ s.Meet t) ∧
    ∀ m ∈ fails.map Failure.message, OverlapMessage m →
      ∃ s t, Intervals.PairIn sects s t ∧ s.Meet t ∧
        m = (Failure.overlap s.name t.name).message := by
  refine ⟨?_, fun m hm hoverlap => ?_⟩
  · have hany : (∃ m ∈ fails.map Failure.message, OverlapMessage m) ↔ foundOverlaps sects ≠ [] := by
      simp only [overlapMessage_iff h]
      constructor
      · rintro ⟨m, hm⟩ hnil
        rw [hnil] at hm
        exact List.not_mem_nil hm
      · intro hne
        obtain ⟨f, hf⟩ := List.exists_mem_of_ne_nil _ hne
        exact ⟨f.message, List.mem_map_of_mem hf⟩
    rw [hany, exists_meet_iff, ne_eq, foundOverlaps_eq_nil_iff hends]
  · obtain ⟨f, hf, rfl⟩ := List.mem_map.mp ((overlapMessage_iff h).mp ⟨hm, hoverlap⟩)
    obtain ⟨s, t, hpair, hmeet, rfl⟩ := exists_meet_of_mem_foundOverlaps hends hf
    exact ⟨s, t, hpair, hmeet, rfl⟩

/-- A section of code, and constants in the middle of it. -/
def nested : List Sect :=
  [{ name := ".text", shType := 1, flags := 6, addr := 0x10000200, offset := 0, size := 0x100 },
    { name := ".rodata", shType := 1, flags := 2, addr := 0x10000240, offset := 0, size := 8 }]

theorem overlap_messages_nested :
    ∃ s t, Intervals.PairIn (minimalBoot2 :: minimalVectorTable :: nested) s t ∧ s.Meet t := by
  have hfails : memoryFailures (minimalBoot2 :: minimalVectorTable :: nested)
      = [.overlap ".text" ".rodata"] := by decide
  have hcheck : checkSections minimalFile (minimalBoot2 :: minimalVectorTable :: nested) = _ :=
    checkSections_minimal (by decide)
  rw [hfails] at hcheck
  exact (overlap_messages hcheck (by decide)).1.mp
    ⟨_, List.mem_map_of_mem List.mem_cons_self, ".text", ".rodata", rfl⟩

end Elf
