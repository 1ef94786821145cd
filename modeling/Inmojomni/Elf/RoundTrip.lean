import Inmojomni.Blocks
import Inmojomni.Elf.Outcome

/-!
# Parsing undoes writing

A writer puts the header fields, the entries of the section table and the string table at their
places in a file, whatever else is in it. As long as these blocks do not overlap
`parse_sections` gives the sections back (`Layout.parseSections_file`): the count, the entry
size and the string-table index through the three half words at the end of the header, each
name through the offset of the string table in its own entry.
-/

namespace Elf

open Blocks

/-- A section, and where its name is in the string table. -/
structure Row where
  sect : Sect
  nameOff : Word

/-- The two bytes of a half word, little end first. -/
def bytes16 (v : ℕ) : List Byte := [BitVec.ofNat 8 v, BitVec.ofNat 8 (v / 256)]

/-- The bytes of an ASCII name. -/
def nameBytes (name : String) : List Byte := name.toList.map fun c => BitVec.ofNat 8 c.toNat

/-- The fields of an entry that `parse_sections` reads, in the order of the format. -/
def Row.bytes (r : Row) : List Byte :=
  bytes32 r.nameOff ++ (bytes32 r.sect.shType ++ (bytes32 r.sect.flags ++ (bytes32 r.sect.addr ++
    (bytes32 r.sect.offset ++ bytes32 r.sect.size))))

/-- A place for everything. -/
structure Layout where
  /-- What is in the file before anything is put into it. -/
  fill : List Byte
  rows : List Row
  shentsize : ℕ
  /-- Which of the sections is the name string table. -/
  shstrndx : ℕ
  shoff : Word
  strOff : Word
  strtab : List Byte
  rows_ne : rows ≠ []
  rows_le : rows.length ≤ 65535
  shentsize_ge : 40 ≤ shentsize
  shentsize_le : shentsize ≤ 65535
  strtab_sect : ∃ r, rows[shstrndx]? = some r ∧ r.sect.offset = strOff
  /-- The names are ASCII without the zero byte. -/
  ascii : ∀ r ∈ rows, ∀ c ∈ r.sect.name.toList, 0 < c.toNat ∧ c.toNat < 128
  /-- They stand in the string table, where they may share their ends. -/
  names : ∀ r ∈ rows, Stands strtab r.nameOff.toNat (nameBytes r.sect.name ++ [0])
  shoff_ge : 52 ≤ shoff.toNat
  strOff_ge : 52 ≤ strOff.toNat
  table_le : shoff.toNat + rows.length * shentsize ≤ fill.length
  strtab_le : strOff.toNat + strtab.length ≤ fill.length
  apart : shoff.toNat + rows.length * shentsize ≤ strOff.toNat ∨
    strOff.toNat + strtab.length ≤ shoff.toNat

namespace Layout

variable (L : Layout)

/-- The header, apart from the bytes that do not matter. -/
def headerBlocks : List (ℕ × List Byte) :=
  [(0, elfMagic ++ [1, 1]), (18, bytes16 40), (32, bytes32 L.shoff),
    (46, bytes16 L.shentsize ++ (bytes16 L.rows.length ++ bytes16 L.shstrndx))]

/-- The section table. -/
def tableBlocks : List (ℕ × List Byte) :=
  L.rows.mapIdx fun i r => (L.shoff.toNat + i * L.shentsize, r.bytes)

/-- Everything that is put into the file. -/
def blocks : List (ℕ × List Byte) :=
  L.headerBlocks ++ L.tableBlocks ++ [(L.strOff.toNat, L.strtab)]

/-- The file. -/
def file : List Byte := putAll L.fill L.blocks

variable {L}

/-! ### The blocks do not overlap -/

theorem mem_tableBlocks {b : ℕ × List Byte} :
    b ∈ L.tableBlocks ↔
      ∃ i, ∃ h : i < L.rows.length, (L.shoff.toNat + i * L.shentsize, L.rows[i].bytes) = b :=
  List.mem_mapIdx

/-- A header block ends in the first 52 bytes. -/
theorem le_of_mem_headerBlocks {b : ℕ × List Byte} (hb : b ∈ L.headerBlocks) :
    b.1 + b.2.length ≤ 52 := by
  simp only [headerBlocks, List.mem_cons, List.not_mem_nil, or_false] at hb
  rcases hb with rfl | rfl | rfl | rfl <;> exact Nat.le_of_ble_eq_true rfl

/-- An entry ends before the next one. -/
theorem entry_le (i : ℕ) (r : Row) {j : ℕ} (hij : i < j) :
    L.shoff.toNat + i * L.shentsize + r.bytes.length ≤ L.shoff.toNat + j * L.shentsize := by
  have hbytes : r.bytes.length = 24 := rfl
  have hge := L.shentsize_ge
  have hmul := Nat.mul_le_mul_right L.shentsize (Nat.succ_le_of_lt hij)
  rw [Nat.succ_mul] at hmul
  omega

theorem fits {b : ℕ × List Byte} (hb : b ∈ L.blocks) : Fits L.fill.length b := by
  have htable := L.table_le
  have hstrtab := L.strtab_le
  have hshoff := L.shoff_ge
  rw [blocks, List.mem_append, List.mem_append, List.mem_singleton] at hb
  rw [Fits]
  rcases hb with (hb | hb) | rfl
  · have := le_of_mem_headerBlocks hb
    omega
  · obtain ⟨i, hi, rfl⟩ := mem_tableBlocks.mp hb
    exact (entry_le i _ hi).trans htable
  · exact hstrtab

theorem pairwise_apart : L.blocks.Pairwise Apart := by
  have hshoff := L.shoff_ge
  have hstrOff := L.strOff_ge
  rw [blocks, List.append_assoc, List.pairwise_append, List.pairwise_append]
  refine ⟨?_, ⟨?_, List.pairwise_singleton _ _, ?_⟩, ?_⟩
  · -- within the header each ends before the next one starts
    simp [headerBlocks, Apart, elfMagic, bytes16, bytes32]
  · -- and so it is within the table
    rw [tableBlocks, List.pairwise_iff_getElem]
    intro i j hi hj hij
    rw [List.getElem_mapIdx, List.getElem_mapIdx]
    exact Or.inl (entry_le i _ hij)
  · intro b hb c hc
    obtain ⟨i, hi, rfl⟩ := mem_tableBlocks.mp hb
    rw [List.mem_singleton.mp hc]
    have hle := entry_le (L := L) i L.rows[i] hi
    rcases L.apart with h | h
    · exact Or.inl (hle.trans h)
    · exact Or.inr (h.trans (Nat.le_add_right _ _))
  · intro b hb c hc
    have hle := le_of_mem_headerBlocks hb
    refine Or.inl (hle.trans ?_)
    rcases List.mem_append.mp hc with hc | hc
    · obtain ⟨i, hi, rfl⟩ := mem_tableBlocks.mp hc
      exact hshoff.trans (Nat.le_add_right _ _)
    · rwa [List.mem_singleton.mp hc]

theorem length_file : L.file.length = L.fill.length := length_putAll fun _ => fits

/-- Everything stands in the file at its place. -/
theorem stands {b : ℕ × List Byte} (hb : b ∈ L.blocks) : Stands L.file b.1 b.2 :=
  stands_putAll (fun _ => fits) pairwise_apart hb

end Layout

/-! ### Reading what stands in a file -/

section Read

variable {raw : List Byte} {off : ℕ}

theorem word32_of_stands {v : Word} (h : Stands raw off (bytes32 v)) : word32 raw off = v := by
  obtain ⟨t, ht⟩ := h
  rw [← word32_drop, ← ht]
  exact word32_bytes32 v

theorem toNat_word16_of_stands {v : ℕ} (hv : v ≤ 65535) (h : Stands raw off (bytes16 v)) :
    (word16 raw off).toNat = v := by
  have h0 := stands_iff.mp h 0 Nat.two_pos
  have h1 := stands_iff.mp h 1 Nat.one_lt_two
  simp only [bytes16, List.getElem?_cons_zero, List.getElem?_cons_succ, Nat.add_zero] at h0 h1
  rw [word16, List.getD_eq_getElem?_getD, List.getD_eq_getElem?_getD, h0, h1]
  have hlow : v % 256 < 2 ^ 8 := Nat.mod_lt v (by decide)
  simp only [Option.getD_some, BitVec.toNat_or, BitVec.toNat_setWidth, BitVec.toNat_ofNat,
    BitVec.toNat_shiftLeft]
  -- the low byte is below the high one
  rw [Nat.mod_eq_of_lt (a := v % 2 ^ 8) (by omega), Nat.mod_eq_of_lt (a := v / 256) (by omega),
    Nat.mod_eq_of_lt (a := v / 256) (by omega), Nat.shiftLeft_eq,
    Nat.mod_eq_of_lt (a := v / 256 * 2 ^ 8) (by omega), Nat.or_comm, ← Nat.shiftLeft_eq,
    ← Nat.shiftLeft_add_eq_or_of_lt hlow, Nat.shiftLeft_eq]
  omega

/-- A name that ends with a zero byte is read back. -/
theorem nameAt_of_stands {name : String} (hascii : ∀ c ∈ name.toList, 0 < c.toNat ∧ c.toNat < 128)
    (h : Stands raw off (nameBytes name ++ [0])) : 0 ∈ raw.drop off ∧ nameAt raw off = name := by
  obtain ⟨t, ht⟩ := h
  have hbyte : ∀ c ∈ name.toList, (BitVec.ofNat 8 c.toNat).toNat = c.toNat := fun c hc => by
    rw [BitVec.toNat_ofNat]
    exact Nat.mod_eq_of_lt ((hascii c hc).2.trans (by decide))
  have hne : ∀ b ∈ nameBytes name, decide (b ≠ 0) = true := by
    intro b hb
    obtain ⟨c, hc, rfl⟩ := List.mem_map.mp hb
    rw [decide_eq_true_iff]
    intro hzero
    have := congrArg BitVec.toNat hzero
    rw [hbyte c hc] at this
    exact absurd this (hascii c hc).1.ne'
  have hback : (nameBytes name).map (fun b => Char.ofNat b.toNat) = name.toList := by
    rw [nameBytes, List.map_map]
    refine (List.map_congr_left fun c hc => ?_).trans (List.map_id _)
    rw [Function.comp_apply, hbyte c hc]
    exact Char.ofNat_toNat c
  refine ⟨?_, ?_⟩
  · rw [← ht]
    simp
  · rw [nameAt, ← ht, List.append_assoc, List.takeWhile_append_of_pos hne]
    simp [hback]

end Read

namespace Layout

variable {L : Layout}

theorem stands_header {off : ℕ} {block : List Byte} (hb : (off, block) ∈ L.headerBlocks) :
    Stands L.file off block :=
  stands (List.mem_append_left _ (List.mem_append_left _ hb))

theorem stands_row {i : ℕ} (hi : i < L.rows.length) :
    Stands L.file (L.shoff.toNat + i * L.shentsize) L.rows[i].bytes :=
  stands (List.mem_append_left _ (List.mem_append_right _ (mem_tableBlocks.mpr ⟨i, hi, rfl⟩)))

theorem stands_strtab : Stands L.file L.strOff.toNat L.strtab :=
  stands (List.mem_append_right _ (List.mem_singleton_self (L.strOff.toNat, L.strtab)))

theorem lt_of_strtab : L.shstrndx < L.rows.length := by
  obtain ⟨r, hr, -⟩ := L.strtab_sect
  exact (List.getElem?_eq_some_iff.mp hr).1

/-- The header is read back. -/
theorem headerOk : HeaderOk L.file := by
  have hmagic : Stands L.file 0 (elfMagic ++ [1, 1]) := stands_header (by simp [headerBlocks])
  have hmachine : Stands L.file 18 (bytes16 40) := stands_header (by simp [headerBlocks])
  have hident : ∀ i < 6, L.file.getD i 0 = (elfMagic ++ [1, 1]).getD i 0 := fun i hi => by
    have := stands_iff.mp hmagic i hi
    rw [Nat.zero_add] at this
    rw [List.getD_eq_getElem?_getD, List.getD_eq_getElem?_getD, this]
  refine ⟨?_, ?_, ⟨hident 4 (by decide), hident 5 (by decide)⟩, ?_⟩
  · have htable := L.table_le
    have hshoff := L.shoff_ge
    rw [length_file]
    omega
  · exact (List.prefix_iff_eq_take.mp (stands_append.mp hmagic).1).symm
  · refine BitVec.eq_of_toNat_eq ?_
    rw [toNat_word16_of_stands (by decide) hmachine]
    rfl

theorem shoff_file : Elf.shoff L.file = L.shoff.toNat :=
  congrArg BitVec.toNat (word32_of_stands (stands_header (by simp [headerBlocks])))

/-- The three half words at the end of the header. -/
theorem counts_file : Elf.shentsize L.file = L.shentsize ∧ shnum L.file = L.rows.length ∧
    Elf.shstrndx L.file = L.shstrndx := by
  have hcounts : Stands L.file 46
      (bytes16 L.shentsize ++ (bytes16 L.rows.length ++ bytes16 L.shstrndx)) :=
    stands_header (by simp [headerBlocks])
  obtain ⟨hsize, hrest⟩ := stands_append.mp hcounts
  obtain ⟨hnum, hndx⟩ := stands_append.mp hrest
  exact ⟨toNat_word16_of_stands L.shentsize_le hsize, toNat_word16_of_stands L.rows_le hnum,
    toNat_word16_of_stands (lt_of_strtab.le.trans L.rows_le) hndx⟩

theorem entry_file (i : ℕ) : entry L.file i = L.shoff.toNat + i * L.shentsize := by
  rw [entry, shoff_file, counts_file.1]

/-- The fields of a row are read back. -/
theorem fields_file {i : ℕ} (hi : i < L.rows.length) :
    word32 L.file (entry L.file i) = L.rows[i].nameOff ∧
      word32 L.file (entry L.file i + 4) = L.rows[i].sect.shType ∧
      word32 L.file (entry L.file i + 8) = L.rows[i].sect.flags ∧
      word32 L.file (entry L.file i + 12) = L.rows[i].sect.addr ∧
      word32 L.file (entry L.file i + 16) = L.rows[i].sect.offset ∧
      word32 L.file (entry L.file i + 20) = L.rows[i].sect.size := by
  have hrow := stands_row hi
  rw [← entry_file, Row.bytes] at hrow
  obtain ⟨hname, hrow⟩ := stands_append.mp hrow
  obtain ⟨htype, hrow⟩ := stands_append.mp hrow
  obtain ⟨hflags, hrow⟩ := stands_append.mp hrow
  obtain ⟨haddr, hrow⟩ := stands_append.mp hrow
  obtain ⟨hoffset, hsize⟩ := stands_append.mp hrow
  exact ⟨word32_of_stands hname, word32_of_stands htype, word32_of_stands hflags,
    word32_of_stands haddr, word32_of_stands hoffset, word32_of_stands hsize⟩

theorem strtabOff_file : strtabOff L.file = L.strOff.toNat := by
  obtain ⟨r, hr, hoffset⟩ := L.strtab_sect
  obtain ⟨hlt, rfl⟩ := List.getElem?_eq_some_iff.mp hr
  obtain ⟨-, -, -, -, hword, -⟩ := fields_file hlt
  rw [strtabOff, counts_file.2.2, hword, hoffset]

/-- The name of a row stands in the file. -/
theorem name_file {i : ℕ} (hi : i < L.rows.length) :
    0 ∈ L.file.drop (namePos L.file (strtabOff L.file) (entry L.file i)) ∧
      nameAt L.file (namePos L.file (strtabOff L.file) (entry L.file i)) =
        L.rows[i].sect.name := by
  have hmem := List.getElem_mem hi
  rw [namePos, strtabOff_file, (fields_file hi).1]
  exact nameAt_of_stands (L.ascii _ hmem) (stands_strtab.trans (L.names _ hmem))

/-- An entry with its 24 bytes lies inside the file. -/
theorem entry_inside {i : ℕ} (hi : i < L.rows.length) : entry L.file i + 24 ≤ L.file.length := by
  have hle := (stands_row hi).le_length (List.cons_ne_nil _ _)
  rwa [← entry_file] at hle

/-- Parsing gives back what was written. -/
theorem parseSections_file (L : Layout) : parseSections L.file = .ok (L.rows.map Row.sect) := by
  refine parseSections_eq_ok_iff.mpr ⟨headerOk, ⟨?_, fun i hi => ?_⟩, ?_⟩
  · have hle := entry_inside (L := L) lt_of_strtab
    rw [counts_file.2.2]
    omega
  · rw [counts_file.2.1] at hi
    exact ⟨entry_inside hi, (name_file hi).1⟩
  · rw [sections, counts_file.2.1]
    refine List.ext_getElem (by simp) fun i hi hi' => ?_
    rw [List.length_map] at hi
    rw [List.getElem_map, List.getElem_map, List.getElem_range, sectAt, sectOf, (name_file hi).2]
    obtain ⟨-, htype, hflags, haddr, hoffset, hsize⟩ := fields_file hi
    rw [htype, hflags, haddr, hoffset, hsize]

/-- Two sections, the second with the end of the first one's name. -/
def sharedName : Layout where
  fill := List.replicate 140 0xAA
  rows := [
    { sect := { name := ".strtab", shType := 3, flags := 0, addr := 0, offset := 132, size := 8 }
      nameOff := 0 },
    { sect := { name := "tab", shType := 1, flags := 2, addr := 0x10000000, offset := 7, size := 9 }
      nameOff := 4 }]
  shentsize := 40
  shstrndx := 0
  shoff := 52
  strOff := 132
  strtab := nameBytes ".strtab" ++ [0]
  rows_ne := List.cons_ne_nil _ _
  rows_le := by decide
  shentsize_ge := by decide
  shentsize_le := by decide
  strtab_sect := ⟨_, rfl, rfl⟩
  ascii := by
    have hall : [".strtab", "tab"].all
        (fun s => s.toList.all fun c => 0 < c.toNat ∧ c.toNat < 128) = true := by decide
    intro r hr c hc
    have hname : r.sect.name ∈ [".strtab", "tab"] :=
      List.mem_map_of_mem (f := fun r => r.sect.name) hr
    exact of_decide_eq_true (List.all_eq_true.mp (List.all_eq_true.mp hall _ hname) c hc)
  names := by simp only [Stands]; decide
  shoff_ge := by decide
  strOff_ge := by decide
  table_le := by
    rw [List.length_replicate]
    decide
  strtab_le := by
    rw [List.length_replicate]
    decide
  apart := by decide

theorem parseSections_sharedName : parseSections sharedName.file = .ok [
      { name := ".strtab", shType := 3, flags := 0, addr := 0, offset := 132, size := 8 },
      { name := "tab", shType := 1, flags := 2, addr := 0x10000000, offset := 7, size := 9 }] :=
  parseSections_file sharedName

end Layout

end Elf
