import Inmojomni.Elf.Boot2

/-!
# The outcome of parsing and of the named checks

Each function of the verifier ends well exactly when everything it reads lies inside the file,
and its result is then a plain function of the bytes. Otherwise it reads outside the file: apart
from the tests on the header, nothing raises an error.
-/

namespace Elf

open Fallible

variable {raw : List Byte}

/-! ### The section table -/

/-- The file has a header that is accepted. -/
structure HeaderOk (raw : List Byte) : Prop where
  length : 52 ≤ raw.length
  magic : raw.take 4 = elfMagic
  ident : raw.getD 4 0 = 1 ∧ raw.getD 5 0 = 1
  machine : word16 raw 18 = emArm

/-- `e_shoff` -/
def shoff (raw : List Byte) : ℕ := (word32 raw 32).toNat

/-- `e_shentsize` -/
def shentsize (raw : List Byte) : ℕ := (word16 raw 46).toNat

/-- `e_shnum` -/
def shnum (raw : List Byte) : ℕ := (word16 raw 48).toNat

/-- `e_shstrndx` -/
def shstrndx (raw : List Byte) : ℕ := (word16 raw 50).toNat

/-- Where entry `i` of the section table is. -/
def entry (raw : List Byte) (i : ℕ) : ℕ := shoff raw + i * shentsize raw

/-- Where the names are. -/
def strtabOff (raw : List Byte) : ℕ := (word32 raw (entry raw (shstrndx raw) + 16)).toNat

/-- The text at `p` up to the next zero byte. -/
def nameAt (raw : List Byte) (p : ℕ) : String :=
  String.ofList (((raw.drop p).takeWhile (· ≠ 0)).map fun b => Char.ofNat b.toNat)

/-- Where the name of the entry at `off` is. -/
def namePos (raw : List Byte) (strtab off : ℕ) : ℕ := strtab + (word32 raw off).toNat

/-- What the entry at `off` says. -/
def sectOf (raw : List Byte) (strtab off : ℕ) : Sect where
  name := nameAt raw (namePos raw strtab off)
  shType := word32 raw (off + 4)
  flags := word32 raw (off + 8)
  addr := word32 raw (off + 12)
  offset := word32 raw (off + 16)
  size := word32 raw (off + 20)

/-- Section `i` of the file. -/
def sectAt (raw : List Byte) (i : ℕ) : Sect := sectOf raw (strtabOff raw) (entry raw i)

/-- A header that is not accepted raises an error. -/
theorem checkHeader_eq (raw : List Byte) :
    (HeaderOk raw ∧ checkHeader raw = .ok ()) ∨
      (¬HeaderOk raw ∧ ∃ msg, checkHeader raw = .error (.raised msg)) := by
  rw [checkHeader]
  split
  · next hlen => exact Or.inr ⟨fun h => absurd h.length (Nat.not_le.mpr hlen), _, rfl⟩
  next hlen =>
  have hmagic : (List.range 4).mapM (byte raw) = .ok (raw.take 4) := by
    have h := @mapM_byte raw 0 4 (by omega)
    simpa only [Nat.zero_add, List.drop_zero] using h
  rw [hmagic, byte_of_lt (by omega), byte_of_lt (by omega), rd16_eq (by omega)]
  simp only [ok_bind]
  split
  · next hne => exact Or.inr ⟨fun h => hne h.magic, _, rfl⟩
  next hmagic =>
  split
  · next hne => exact Or.inr ⟨fun h => not_and_or.mpr hne h.ident, _, rfl⟩
  next hident =>
  split
  · next hne => exact Or.inr ⟨fun h => hne h.machine, _, rfl⟩
  · next hmachine =>
    exact Or.inl ⟨⟨Nat.not_lt.mp hlen, not_not.mp hmagic,
      not_not.mp fun h => hident (not_and_or.mp h), not_not.mp hmachine⟩, rfl⟩

/-! ### Names and entries -/

theorem cstring_eq_ok_iff {p : ℕ} {rest : List Byte} {cs : List Char} :
    cstring p rest = .ok cs ↔
      0 ∈ rest ∧ cs = (rest.takeWhile (· ≠ 0)).map fun b => Char.ofNat b.toNat := by
  induction rest generalizing p cs with
  | nil => exact iff_of_false nofun fun h => absurd h.1 List.not_mem_nil
  | cons b rest ih =>
    rw [cstring]
    split
    · next hb =>
      rw [map_eq_ok_iff, List.mem_cons, List.takeWhile_cons_of_pos (by simpa using hb),
        List.map_cons]
      constructor
      · rintro ⟨cs', hcs, rfl⟩
        obtain ⟨hmem, rfl⟩ := ih.mp hcs
        exact ⟨Or.inr hmem, rfl⟩
      · rintro ⟨hmem, rfl⟩
        exact ⟨_, ih.mpr ⟨hmem.resolve_left fun h => hb h.symm, rfl⟩, rfl⟩
    · next hb =>
      rw [not_not] at hb
      subst hb
      rw [List.takeWhile_cons_of_neg (by simp), List.map_nil]
      exact ⟨fun h => ⟨List.mem_cons_self, (Except.ok.inj h).symm⟩,
        fun h => congrArg Except.ok h.2.symm⟩

theorem readName_eq_ok_iff {p : ℕ} {name : String} :
    readName raw p = .ok name ↔ 0 ∈ raw.drop p ∧ name = nameAt raw p := by
  rw [readName, map_eq_ok_iff]
  constructor
  · rintro ⟨cs, hcs, rfl⟩
    obtain ⟨hmem, rfl⟩ := cstring_eq_ok_iff.mp hcs
    exact ⟨hmem, rfl⟩
  · rintro ⟨hmem, rfl⟩
    exact ⟨_, cstring_eq_ok_iff.mpr ⟨hmem, rfl⟩, rfl⟩

/-- The entry at `off` and its name lie inside the file. -/
def EntryInside (raw : List Byte) (strtab off : ℕ) : Prop :=
  off + 24 ≤ raw.length ∧ 0 ∈ raw.drop (namePos raw strtab off)

theorem parseSect_eq_ok_iff {strtab off : ℕ} {s : Sect} :
    parseSect raw strtab off = .ok s ↔ EntryInside raw strtab off ∧ s = sectOf raw strtab off := by
  simp only [parseSect, bind_eq_ok_iff, rd32_eq_ok_iff, readName_eq_ok_iff]
  constructor
  · rintro ⟨-, ⟨-, rfl⟩, -, ⟨hname, rfl⟩, -, ⟨-, rfl⟩, -, ⟨-, rfl⟩, -, ⟨-, rfl⟩, -, ⟨-, rfl⟩, -,
      ⟨hin, rfl⟩, hs⟩
    exact ⟨⟨hin, hname⟩, (Except.ok.inj hs).symm⟩
  · rintro ⟨⟨hin, hname⟩, rfl⟩
    exact ⟨_, ⟨by omega, rfl⟩, _, ⟨hname, rfl⟩, _, ⟨by omega, rfl⟩, _, ⟨by omega, rfl⟩, _,
      ⟨by omega, rfl⟩, _, ⟨by omega, rfl⟩, _, ⟨by omega, rfl⟩, rfl⟩

/-- The sections of the file. -/
def sections (raw : List Byte) : List Sect := (List.range (shnum raw)).map (sectAt raw)

/-- The entry of the string table and all entries with their names lie inside the file. -/
structure TableInside (raw : List Byte) : Prop where
  strtab : entry raw (shstrndx raw) + 20 ≤ raw.length
  entries : ∀ i < shnum raw, EntryInside raw (strtabOff raw) (entry raw i)

theorem parseSections_eq_ok_iff {sects : List Sect} :
    parseSections raw = .ok sects ↔
      HeaderOk raw ∧ TableInside raw ∧ sects = sections raw := by
  rcases checkHeader_eq raw with ⟨hheader, hcheck⟩ | ⟨hheader, msg, hcheck⟩
  · have hlen := hheader.length
    rw [parseSections, hcheck, rd32_eq (by omega), rd16_eq (by omega), rd16_eq (by omega),
      rd16_eq (by omega)]
    simp only [ok_bind]
    rw [bind_eq_ok_iff]
    have hloop := @mapM_eq_ok_iff _ _ _ _ _ _ fun i s =>
      @parseSect_eq_ok_iff raw (strtabOff raw) (entry raw i) s
    constructor
    · rintro ⟨_, hstrtab, hsects⟩
      obtain ⟨hin, rfl⟩ := rd32_eq_ok_iff.mp hstrtab
      obtain ⟨hentries, rfl⟩ := hloop.mp hsects
      exact ⟨hheader, ⟨hin, fun i hi => hentries i (List.mem_range.mpr hi)⟩, rfl⟩
    · rintro ⟨-, hinside, rfl⟩
      exact ⟨_, rd32_eq_ok_iff.mpr ⟨hinside.strtab, rfl⟩,
        hloop.mpr ⟨fun i hi => hinside.entries i (List.mem_range.mp hi), rfl⟩⟩
  · rw [parseSections, hcheck]
    exact iff_of_false nofun fun h => hheader h.1

/-! ### The named checks -/

/-- What is wrong with a section that is named `.boot2`. -/
def boot2Failures (raw : List Byte) (s : Sect) : List Failure :=
  reportIf (s.addr ≠ flashOrigin) (.boot2At s.addr) ++
    if s.size ≠ 256 then [.boot2Size s.size]
    else
      let want := word32 (contents raw s) 252
      let got := crcOf ((contents raw s).take 252)
      reportIf (want ≠ got) (.boot2Checksum want got)

/-- What is wrong with a section that is named `.vector_table`. -/
def vectorTableFailures (raw : List Byte) (s : Sect) : List Failure :=
  let sp := word32 raw s.offset.toNat
  let reset := word32 raw (s.offset.toNat + 4)
  reportIf (s.addr ≠ vectorTable) (.vectorTableAt s.addr) ++
    reportIf (¬(ramOrigin < sp ∧ sp ≤ ramEnd) ∨ sp % 4 ≠ 0) (.initialSp sp) ++
    reportIf (reset &&& 1 = 0) (.resetThumb reset) ++
    reportIf (¬(flashOrigin ≤ reset &&& ~~~1 ∧ reset &&& ~~~1 < flashEnd)) (.resetOutside reset)

/-- What the test of a boot2 image reads lies inside the file. -/
def Boot2Inside (raw : List Byte) (s : Sect) : Prop :=
  s.size = 256 → s.offset.toNat + 256 ≤ raw.length

/-- What the tests of a vector table read lies inside the file. -/
def VectorTableInside (raw : List Byte) (s : Sect) : Prop := s.offset.toNat + 8 ≤ raw.length

theorem checkBoot2_eq_ok_iff {s : Sect} {fails : List Failure} :
    checkBoot2 raw s = .ok fails ↔ Boot2Inside raw s ∧ fails = boot2Failures raw s := by
  by_cases hsize : s.size = 256
  · have hloop := @mapM_eq_ok_iff _ _ _ _ _ _ fun i b =>
      @byte_eq_ok_iff raw (s.offset.toNat + i) b
    constructor
    · intro h
      have hin : s.offset.toNat + 256 ≤ raw.length := by
        rw [checkBoot2, if_neg (not_not.mpr hsize)] at h
        obtain ⟨blob, hblob, -⟩ := bind_eq_ok_iff.mp h
        exact (hloop.mp hblob).1 255 (List.mem_range.mpr (by decide))
      rw [checkBoot2_of_inside hsize hin] at h
      refine ⟨fun _ => hin, ?_⟩
      rw [boot2Failures, if_neg (not_not.mpr hsize)]
      exact (Except.ok.inj h).symm
    · rintro ⟨hin, rfl⟩
      rw [checkBoot2_of_inside hsize (hin hsize), boot2Failures, if_neg (not_not.mpr hsize)]
  · rw [checkBoot2, boot2Failures, if_pos hsize, if_pos hsize]
    exact ⟨fun h => ⟨fun heq => absurd heq hsize, (Except.ok.inj h).symm⟩,
      fun h => congrArg Except.ok h.2.symm⟩

theorem checkVectorTable_eq_ok_iff {s : Sect} {fails : List Failure} :
    checkVectorTable raw s = .ok fails ↔
      VectorTableInside raw s ∧ fails = vectorTableFailures raw s := by
  simp only [checkVectorTable, bind_eq_ok_iff, rd32_eq_ok_iff]
  constructor
  · rintro ⟨-, ⟨-, rfl⟩, -, ⟨hin, rfl⟩, hfails⟩
    exact ⟨hin, (Except.ok.inj hfails).symm⟩
  · rintro ⟨hin, rfl⟩
    have hin : s.offset.toNat + 8 ≤ raw.length := hin
    exact ⟨_, ⟨by omega, rfl⟩, _, ⟨hin, rfl⟩, rfl⟩

/-- What the checks of a section read lies inside the file. -/
structure NamedInside (raw : List Byte) (s : Sect) : Prop where
  boot2 : s.name = ".boot2" → Boot2Inside raw s
  vectorTable : s.name = ".vector_table" → VectorTableInside raw s

/-- What is wrong with a section. -/
def sectFailures (raw : List Byte) (s : Sect) : List Failure :=
  if s.name = ".boot2" then boot2Failures raw s
  else if s.name = ".vector_table" then vectorTableFailures raw s
  else []

/-- One round of the named checks. -/
def namedStep (raw : List Byte) (st : Named) (s : Sect) : Named where
  haveBoot2 := st.haveBoot2 || s.name = ".boot2"
  haveVt := st.haveVt || s.name = ".vector_table"
  fails := st.fails ++ sectFailures raw s

theorem namedStep_boot2 {st : Named} {s : Sect} (h : s.name = ".boot2") :
    namedStep raw st s =
      { st with haveBoot2 := true, fails := st.fails ++ boot2Failures raw s } := by
  simp [namedStep, sectFailures, h]

theorem namedStep_vectorTable {st : Named} {s : Sect} (h : s.name = ".vector_table") :
    namedStep raw st s =
      { st with haveVt := true, fails := st.fails ++ vectorTableFailures raw s } := by
  simp [namedStep, sectFailures, h]

theorem namedStep_other {st : Named} {s : Sect} (hboot2 : s.name ≠ ".boot2")
    (hvt : s.name ≠ ".vector_table") : namedStep raw st s = st := by
  simp [namedStep, sectFailures, hboot2, hvt]

theorem checkNamed_eq_ok_iff {st st' : Named} {s : Sect} :
    checkNamed raw st s = .ok st' ↔ NamedInside raw s ∧ st' = namedStep raw st s := by
  by_cases hboot2 : s.name = ".boot2"
  · rw [namedStep_boot2 hboot2]
    constructor
    · intro h
      rw [checkNamed, if_pos hboot2] at h
      obtain ⟨fails, hfails, hst⟩ := bind_eq_ok_iff.mp h
      obtain ⟨hin, rfl⟩ := checkBoot2_eq_ok_iff.mp hfails
      exact ⟨⟨fun _ => hin, fun hvt => absurd (hboot2.symm.trans hvt) (by decide)⟩,
        (Except.ok.inj hst).symm⟩
    · rintro ⟨hin, rfl⟩
      exact checkNamed_boot2 hboot2 (checkBoot2_eq_ok_iff.mpr ⟨hin.boot2 hboot2, rfl⟩)
  by_cases hvt : s.name = ".vector_table"
  · rw [namedStep_vectorTable hvt]
    constructor
    · intro h
      rw [checkNamed, if_neg hboot2, if_pos hvt] at h
      obtain ⟨fails, hfails, hst⟩ := bind_eq_ok_iff.mp h
      obtain ⟨hin, rfl⟩ := checkVectorTable_eq_ok_iff.mp hfails
      exact ⟨⟨fun h => absurd h hboot2, fun _ => hin⟩, (Except.ok.inj hst).symm⟩
    · rintro ⟨hin, rfl⟩
      exact checkNamed_vectorTable hvt (checkVectorTable_eq_ok_iff.mpr ⟨hin.vectorTable hvt, rfl⟩)
  · rw [namedStep_other hboot2 hvt, checkNamed_other hboot2 hvt]
    exact ⟨fun h => ⟨⟨fun h => absurd h hboot2, fun h => absurd h hvt⟩, (Except.ok.inj h).symm⟩,
      fun h => congrArg Except.ok h.2.symm⟩

/-- What the named checks find. -/
def namedOutcome (raw : List Byte) (sects : List Sect) : List Failure :=
  sects.flatMap (sectFailures raw) ++
    reportIf (¬∃ s ∈ sects, s.name = ".boot2") .missingBoot2 ++
    reportIf (¬∃ s ∈ sects, s.name = ".vector_table") .missingVectorTable

/-- All rounds of the named checks. -/
theorem foldl_namedStep (st : Named) (sects : List Sect) :
    sects.foldl (namedStep raw) st =
      { haveBoot2 := st.haveBoot2 || decide (∃ s ∈ sects, s.name = ".boot2")
        haveVt := st.haveVt || decide (∃ s ∈ sects, s.name = ".vector_table")
        fails := st.fails ++ sects.flatMap (sectFailures raw) } := by
  induction sects generalizing st with
  | nil => simp
  | cons s sects ih =>
    rw [List.foldl_cons, ih, namedStep, List.flatMap_cons]
    simp [Bool.or_assoc]

theorem namedFailures_eq_ok_iff {sects : List Sect} {fails : List Failure} :
    namedFailures raw sects = .ok fails ↔
      (∀ s ∈ sects, NamedInside raw s) ∧ fails = namedOutcome raw sects := by
  have hloop := @foldlM_eq_ok_iff _ _ _ _ _ _ fun st s st' => @checkNamed_eq_ok_iff raw st st' s
  rw [namedFailures, bind_eq_ok_iff]
  constructor
  · rintro ⟨st, hst, hfails⟩
    obtain ⟨hin, rfl⟩ := hloop.mp hst
    refine ⟨hin, (Except.ok.inj hfails).symm.trans ?_⟩
    rw [foldl_namedStep]
    simp [namedOutcome]
  · rintro ⟨hin, rfl⟩
    refine ⟨_, hloop.mpr ⟨hin, rfl⟩, congrArg Except.ok ?_⟩
    rw [foldl_namedStep]
    simp [namedOutcome]

end Elf
