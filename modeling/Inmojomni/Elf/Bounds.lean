import Inmojomni.Elf.Outcome

/-!
# When the verifier reads outside the file

Only the header is tested before it is used. Every offset, count and index after it is followed
as it stands in the file, so a read outside the file is possible (`parseAndCheck_farTable`), and
it is never an error that the tool raises (`fails_parseAndCheck`). `safe_iff` says for which
files all reads are inside and everything that points outside is reported.
-/

namespace Elf

open Fallible

variable {raw : List Byte}

/-- Parsing, and the `.boot2` and `.vector_table` checks of what is parsed. -/
def parseAndCheck (raw : List Byte) : Except Stop (List Failure) := do
  let sects ← parseSections raw
  namedFailures raw sects

/-- No read is outside the file. -/
def Safe (raw : List Byte) : Prop := ∀ i, parseAndCheck raw ≠ .error (.outOfBounds i)

/-- An error is raised or a failure is reported. -/
def Rejected (raw : List Byte) : Prop :=
  (∃ msg, parseAndCheck raw = .error (.raised msg)) ∨
    ∃ fails, parseAndCheck raw = .ok fails ∧ fails ≠ []

/-- The section has data in the file: it is neither inactive (`SHT_NULL`) nor `SHT_NOBITS`. -/
def Sect.HasData (s : Sect) : Prop := s.shType ≠ 0 ∧ s.shType ≠ 8

/-- The file is truncated, or something in it points outside: the header, the entry of the
string table, an entry of the section table, a name or the data of a section. -/
def PointsOutside (raw : List Byte) : Prop :=
  raw.length < 52 ∨ raw.length < entry raw (shstrndx raw) + 40 ∨
    ∃ i < shnum raw, raw.length < entry raw i + 40 ∨
      0 ∉ raw.drop (namePos raw (strtabOff raw) (entry raw i)) ∨
      ((sectAt raw i).HasData ∧
        raw.length < (sectAt raw i).offset.toNat + (sectAt raw i).size.toNat)

/-- What parsing and the named checks follow lies inside the file. -/
structure ReadsInside (raw : List Byte) : Prop where
  table : TableInside raw
  named : ∀ s ∈ sections raw, NamedInside raw s

/-! ### Sections that are as they should be -/

/-- A boot2 image the mask ROM accepts. -/
structure Boot2Ok (raw : List Byte) (s : Sect) : Prop where
  addr : s.addr = flashOrigin
  size : s.size = 256
  checksum : word32 (contents raw s) 252 = crcOf ((contents raw s).take 252)

/-- A vector table a core can start from. -/
structure VectorTableOk (raw : List Byte) (s : Sect) : Prop where
  addr : s.addr = vectorTable
  sp : ramOrigin < word32 raw s.offset.toNat ∧ word32 raw s.offset.toNat ≤ ramEnd
  aligned : word32 raw s.offset.toNat % 4 = 0
  thumb : word32 raw (s.offset.toNat + 4) &&& 1 ≠ 0
  reset : flashOrigin ≤ word32 raw (s.offset.toNat + 4) &&& ~~~1 ∧
    word32 raw (s.offset.toNat + 4) &&& ~~~1 < flashEnd

/-- There are a boot2 image and a vector table, and every one is as it should be. -/
structure NamedOk (raw : List Byte) (sects : List Sect) : Prop where
  haveBoot2 : ∃ s ∈ sects, s.name = ".boot2"
  haveVt : ∃ s ∈ sects, s.name = ".vector_table"
  boot2 : ∀ s ∈ sects, s.name = ".boot2" → Boot2Ok raw s
  vectorTable : ∀ s ∈ sects, s.name = ".vector_table" → VectorTableOk raw s

theorem boot2Failures_eq_nil_iff {s : Sect} : boot2Failures raw s = [] ↔ Boot2Ok raw s := by
  rw [boot2Failures, List.append_eq_nil_iff, reportIf_eq_nil_iff, not_not]
  constructor
  · rintro ⟨haddr, hrest⟩
    split at hrest
    · exact absurd hrest (List.cons_ne_nil _ _)
    · next hsize => exact ⟨haddr, not_not.mp hsize, not_not.mp (reportIf_eq_nil_iff.mp hrest)⟩
  · rintro ⟨haddr, hsize, hchecksum⟩
    rw [if_neg (not_not.mpr hsize), reportIf_eq_nil_iff, not_not]
    exact ⟨haddr, hchecksum⟩

theorem vectorTableFailures_eq_nil_iff {s : Sect} :
    vectorTableFailures raw s = [] ↔ VectorTableOk raw s := by
  simp only [vectorTableFailures, List.append_eq_nil_iff, reportIf_eq_nil_iff, not_not, not_or]
  constructor
  · rintro ⟨⟨⟨haddr, hsp, haligned⟩, hthumb⟩, hreset⟩
    exact ⟨haddr, hsp, haligned, hthumb, hreset⟩
  · rintro ⟨haddr, hsp, haligned, hthumb, hreset⟩
    exact ⟨⟨⟨haddr, hsp, haligned⟩, hthumb⟩, hreset⟩

theorem sectFailures_eq_nil_iff {s : Sect} :
    sectFailures raw s = [] ↔
      (s.name = ".boot2" → Boot2Ok raw s) ∧ (s.name = ".vector_table" → VectorTableOk raw s) := by
  rw [sectFailures]
  split
  · next hname =>
    have hvt : s.name ≠ ".vector_table" := by
      rw [hname]
      decide
    rw [boot2Failures_eq_nil_iff]
    exact ⟨fun h => ⟨fun _ => h, fun h => absurd h hvt⟩, fun h => h.1 hname⟩
  · next hboot2 =>
    split
    · next hname =>
      rw [vectorTableFailures_eq_nil_iff]
      exact ⟨fun h => ⟨fun h => absurd h hboot2, fun _ => h⟩, fun h => h.2 hname⟩
    · next hvt => exact iff_of_true rfl ⟨fun h => absurd h hboot2, fun h => absurd h hvt⟩

theorem namedOutcome_eq_nil_iff {sects : List Sect} :
    namedOutcome raw sects = [] ↔ NamedOk raw sects := by
  simp only [namedOutcome, List.append_eq_nil_iff, reportIf_eq_nil_iff, not_not,
    List.flatMap_eq_nil_iff, sectFailures_eq_nil_iff]
  constructor
  · rintro ⟨⟨hsects, hboot2⟩, hvt⟩
    exact ⟨hboot2, hvt, fun s hs => (hsects s hs).1, fun s hs => (hsects s hs).2⟩
  · rintro ⟨hboot2, hvt, hboot2s, hvts⟩
    exact ⟨⟨fun s hs => ⟨hboot2s s hs, hvts s hs⟩, hboot2⟩, hvt⟩

/-! ### After the header nothing raises an error -/

/-- The stop is a read outside. -/
def Stop.Outside (e : Stop) : Prop := ∃ i, e = .outOfBounds i

theorem fails_byte (d : List Byte) (i : ℕ) : Fails Stop.Outside (byte d i) := by
  rw [byte]
  split
  · exact Fails.ok _
  · exact Fails.error ⟨i, rfl⟩

theorem fails_rd32 (d : List Byte) (off : ℕ) : Fails Stop.Outside (rd32 d off) :=
  (fails_byte d off).bind fun _ => (fails_byte d (off + 1)).bind fun _ =>
    (fails_byte d (off + 2)).bind fun _ => (fails_byte d (off + 3)).bind fun _ => Fails.ok _

theorem fails_cstring (p : ℕ) (rest : List Byte) : Fails Stop.Outside (cstring p rest) := by
  induction rest generalizing p with
  | nil => exact Fails.error ⟨p, rfl⟩
  | cons b rest ih =>
    rw [cstring]
    split
    · exact (ih (p + 1)).map _
    · exact Fails.ok _

theorem fails_parseSect (raw : List Byte) (strtab off : ℕ) :
    Fails Stop.Outside (parseSect raw strtab off) :=
  (fails_rd32 raw _).bind fun _ => ((fails_cstring _ _).map _).bind fun _ =>
    (fails_rd32 raw _).bind fun _ => (fails_rd32 raw _).bind fun _ =>
    (fails_rd32 raw _).bind fun _ => (fails_rd32 raw _).bind fun _ =>
    (fails_rd32 raw _).bind fun _ => Fails.ok _

theorem fails_parseSections (h : HeaderOk raw) : Fails Stop.Outside (parseSections raw) := by
  have hlen := h.length
  rcases checkHeader_eq raw with ⟨-, hcheck⟩ | ⟨hno, -⟩
  · rw [parseSections, hcheck, rd32_eq (by omega), rd16_eq (by omega), rd16_eq (by omega),
      rd16_eq (by omega)]
    exact (fails_rd32 raw _).bind fun _ => Fails.mapM (fun _ => fails_parseSect raw _ _) _
  · exact absurd h hno

theorem fails_checkBoot2 (raw : List Byte) (s : Sect) : Fails Stop.Outside (checkBoot2 raw s) := by
  rw [checkBoot2]
  split
  · exact Fails.ok _
  · refine (Fails.mapM (fun i => fails_byte raw _) _).bind fun blob =>
      (fails_rd32 blob 252).bind fun _ => ?_
    exact (Fails.foldlM (fun _ i => (fails_byte blob i).map _) _ _).bind fun _ => Fails.ok _

theorem fails_checkVectorTable (raw : List Byte) (s : Sect) :
    Fails Stop.Outside (checkVectorTable raw s) :=
  (fails_rd32 raw _).bind fun _ => (fails_rd32 raw _).bind fun _ => Fails.ok _

theorem fails_checkNamed (raw : List Byte) (st : Named) (s : Sect) :
    Fails Stop.Outside (checkNamed raw st s) := by
  rw [checkNamed]
  split
  · exact (fails_checkBoot2 raw s).bind fun _ => Fails.ok _
  · split
    · exact (fails_checkVectorTable raw s).bind fun _ => Fails.ok _
    · exact Fails.ok _

/-- A file whose header is accepted is checked to the end, or a read is outside. -/
theorem fails_parseAndCheck (h : HeaderOk raw) : Fails Stop.Outside (parseAndCheck raw) :=
  (fails_parseSections h).bind fun _ =>
    (Fails.foldlM (fails_checkNamed raw) _ _).bind fun _ => Fails.ok _

theorem parseAndCheck_eq_ok_iff {fails : List Failure} :
    parseAndCheck raw = .ok fails ↔
      HeaderOk raw ∧ ReadsInside raw ∧ fails = namedOutcome raw (sections raw) := by
  rw [parseAndCheck, bind_eq_ok_iff]
  constructor
  · rintro ⟨sects, hparse, hnamed⟩
    obtain ⟨hheader, htable, rfl⟩ := parseSections_eq_ok_iff.mp hparse
    obtain ⟨hin, rfl⟩ := namedFailures_eq_ok_iff.mp hnamed
    exact ⟨hheader, ⟨htable, hin⟩, rfl⟩
  · rintro ⟨hheader, hin, rfl⟩
    exact ⟨_, parseSections_eq_ok_iff.mpr ⟨hheader, hin.table, rfl⟩,
      namedFailures_eq_ok_iff.mpr ⟨hin.named, rfl⟩⟩

/-! ### Safety -/

/-- Parsing is safe for a file whose header is not accepted, and for one in which all that is
followed lies inside and, if something else points outside, the named sections are not in order. -/
theorem safe_iff (raw : List Byte) :
    Safe raw ∧ (PointsOutside raw → Rejected raw) ↔
      ¬HeaderOk raw ∨ ReadsInside raw ∧ (PointsOutside raw → ¬NamedOk raw (sections raw)) := by
  by_cases hheader : HeaderOk raw
  · rw [or_iff_right (not_not.mpr hheader)]
    rcases (fails_parseAndCheck hheader).ok_or_error with ⟨fails, hok⟩ | ⟨_, ⟨i, rfl⟩, herror⟩
    · obtain ⟨-, hin, rfl⟩ := parseAndCheck_eq_ok_iff.mp hok
      have hsafe : Safe raw := fun i h => by
        rw [hok] at h
        exact nomatch h
      -- a file that is checked to the end is rejected for its named sections only
      have hrejected : Rejected raw ↔ ¬NamedOk raw (sections raw) := by
        rw [← namedOutcome_eq_nil_iff, Rejected, hok]
        constructor
        · rintro (⟨msg, h⟩ | ⟨fails, h, hne⟩)
          · exact nomatch h
          · rwa [Except.ok.inj h]
        · exact fun h => Or.inr ⟨_, rfl, h⟩
      rw [hrejected]
      exact and_congr_left' (iff_of_true hsafe hin)
    · refine iff_of_false (fun h => h.1 i herror) fun h => ?_
      rw [parseAndCheck_eq_ok_iff.mpr ⟨hheader, h.1, rfl⟩] at herror
      exact nomatch herror
  · refine iff_of_true ?_ (Or.inl hheader)
    rcases checkHeader_eq raw with ⟨hok, -⟩ | ⟨-, msg, hcheck⟩
    · exact absurd hok hheader
    have hraised : parseAndCheck raw = .error (.raised msg) := by
      rw [parseAndCheck, parseSections, hcheck]
      rfl
    refine ⟨fun i h => ?_, fun _ => Or.inl ⟨msg, hraised⟩⟩
    rw [hraised] at h
    exact Stop.noConfusion (Except.error.inj h)

/-- A header alone, with its section table at the end of the address space. -/
def farTable : List Byte :=
  elfMagic ++ [1, 1] ++ List.replicate 12 0 ++ [40, 0] ++ List.replicate 12 0 ++
    [0xFF, 0xFF, 0xFF, 0xFF] ++ List.replicate 16 0

/-- Nothing is raised or reported: the read goes to where the table would be. -/
theorem parseAndCheck_farTable :
    farTable.length = 52 ∧ parseAndCheck farTable = .error (.outOfBounds 0x10000000F) ∧
      ¬(Safe farTable ∧ (PointsOutside farTable → Rejected farTable)) := by
  have hrun : parseAndCheck farTable = .error (.outOfBounds 0x10000000F) := by decide +kernel
  exact ⟨rfl, hrun, fun h => h.1 _ hrun⟩

end Elf
