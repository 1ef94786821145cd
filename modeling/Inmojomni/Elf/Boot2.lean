import Inmojomni.Crc
import Inmojomni.Elf.Reads

/-!
# Boot2 images and their checksum

The mask ROM runs the 252 bytes of boot2 only if the last four bytes of the image are their
CRC-32/MPEG-2. `build_boot2` makes such an image, and `check` tests it. The loop of
`crc32_mpeg2` feeds the register of a bitwise CRC with the bits of the bytes, most significant
first (`crc32Mpeg2_eq`), so that the test finds every damage that fits in a window of 32 bits.
-/

namespace Elf

/-- The image that `build_boot2` writes for the raw boot code. -/
def buildBoot2 (raw : List Byte) : Except Stop (List Byte) := do
  if raw.length > 252 then
    throw (.raised ("boot2 code is " ++ toString raw.length ++
      " bytes; must fit 252 (256 minus checksum)"))
  let blob := raw ++ List.replicate (252 - raw.length) 0
  let crc ← crc32Mpeg2 blob 252
  return blob ++ [(crc &&& 0xFF).setWidth 8, ((crc >>> 8) &&& 0xFF).setWidth 8,
    ((crc >>> 16) &&& 0xFF).setWidth 8, ((crc >>> 24) &&& 0xFF).setWidth 8]

/-! ### The loop is a bitwise CRC -/

/-- The polynomial of CRC-32/MPEG-2. -/
def crcPoly : Word := 0x04C11DB7

theorem crcShift_eq : crcShift = Crc.shift crcPoly := by
  funext crc
  have hmsb : crc &&& 0x80000000 ≠ 0 ↔ crc.msb = true := by
    rw [BitVec.msb_eq_getLsbD_last, ← not_iff_not, not_not]
    constructor
    · intro h
      have := congrArg (fun x => BitVec.getLsbD x 31) h
      simpa using this
    · intro h
      refine BitVec.eq_of_getLsbD_eq fun i hi => ?_
      rw [BitVec.getLsbD_and]
      rcases Nat.lt_or_ge i 31 with hlt | hge
      · have hmask : ∀ i < 31, (0x80000000 : Word).getLsbD i = false := by decide
        rw [hmask i hlt, Bool.and_false]
        simp
      · obtain rfl : i = 31 := by omega
        simpa using h
  simp only [crcShift, Crc.shift, crcPoly, hmsb]

theorem crcByte_eq (crc : Word) (b : Byte) :
    crcByte crc b = Crc.feedAll crcPoly crc (Crc.msbFirst b) := by
  rw [Crc.feedAll_msbFirst (by decide), crcByte, crcShift_eq]

/-- The checksum of a payload. -/
def crcOf (d : List Byte) : Word := Crc.feedAll crcPoly 0xFFFFFFFF (Crc.bitsOf d)

theorem crc32Mpeg2_eq {d : List Byte} {n : ℕ} (h : n ≤ d.length) :
    crc32Mpeg2 d n = .ok (crcOf (d.take n)) := by
  have hround : ∀ i ∈ List.range n, ∀ crc,
      (crcByte crc <$> byte d i) = .ok (crcByte crc (d.getD i 0)) := fun i hi crc => by
    rw [byte_of_lt ((List.mem_range.mp hi).trans_le h)]
    rfl
  have htake : d.take n = (List.range n).map fun i => d.getD i 0 := by
    refine List.ext_getElem (by simp [h]) fun i hi hi' => ?_
    rw [List.getElem_take, List.getElem_map, List.getElem_range, List.getD_eq_getElem]
  have hbyte : crcByte = fun crc b => Crc.feedAll crcPoly crc (Crc.msbFirst b) := by
    funext crc b
    exact crcByte_eq crc b
  rw [crc32Mpeg2, Fallible.foldlM_eq_ok hround, crcOf, Crc.feedAll_bitsOf, htake, List.foldl_map,
    hbyte]

/-- The checksum tells payloads apart that differ in a window of 32 bits only. -/
theorem eq_of_crcOf_eq {d d' : List Byte} {start : ℕ} (hlen : d.length = d'.length)
    (hdiff : ∀ i, (Crc.bitsOf d)[i]? ≠ (Crc.bitsOf d')[i]? → start ≤ i ∧ i < start + 32)
    (h : crcOf d = crcOf d') : d = d' := by
  have hbits : (Crc.bitsOf d).length = (Crc.bitsOf d').length := by
    rw [Crc.length_bitsOf, Crc.length_bitsOf, hlen]
  exact Crc.bitsOf_injective hlen (Crc.eq_of_feedAll_eq (by decide) hbits hdiff h)

/-! ### The image and the test -/

/-- The bytes of a section. -/
def contents (raw : List Byte) (s : Sect) : List Byte := (raw.drop s.offset.toNat).take s.size.toNat

/-- The image is the padded code and its checksum. -/
theorem buildBoot2_eq {code : List Byte} (h : code.length ≤ 252) :
    buildBoot2 code =
      .ok (code ++ List.replicate (252 - code.length) 0 ++
        bytes32 (crcOf (code ++ List.replicate (252 - code.length) 0))) := by
  have hlen : (code ++ List.replicate (252 - code.length) (0 : Byte)).length = 252 := by
    rw [List.length_append, List.length_replicate]
    omega
  have hlow : ∀ v : Word, (v &&& 0xFF).setWidth 8 = v.setWidth 8 := fun v => by
    rw [BitVec.setWidth_and]
    exact BitVec.and_allOnes
  rw [buildBoot2, if_neg (by omega)]
  simp only [hlow]
  rw [crc32Mpeg2_eq hlen.ge, List.take_of_length_le hlen.le]
  rfl

theorem contents_of_size {file : List Byte} {s : Sect} (hsize : s.size = 256) :
    contents file s = (file.drop s.offset.toNat).take 256 := by
  rw [contents, hsize]
  rfl

/-- What the test compares, on a section of 256 bytes. -/
theorem checkBoot2_of_inside {file : List Byte} {s : Sect} (hsize : s.size = 256)
    (hin : s.offset.toNat + 256 ≤ file.length) :
    checkBoot2 file s = .ok (reportIf (s.addr ≠ flashOrigin) (.boot2At s.addr) ++
      reportIf (word32 (contents file s) 252 ≠ crcOf ((contents file s).take 252))
        (.boot2Checksum (word32 (contents file s) 252) (crcOf ((contents file s).take 252)))) := by
  have hlen : (contents file s).length = 256 := by
    rw [contents_of_size hsize, List.length_take, List.length_drop]
    omega
  rw [checkBoot2, if_neg (not_not.mpr hsize), mapM_byte hin, ← contents_of_size hsize,
    Fallible.ok_bind, rd32_eq hlen.ge, Fallible.ok_bind, crc32Mpeg2_eq (by rw [hlen]; decide)]
  rfl

/-- What it compares on 252 bytes of payload and 4 of checksum. -/
theorem checkBoot2_eq {file payload : List Byte} {s : Sect} {want : Word}
    (hsize : s.size = 256) (hlen : payload.length = 252)
    (h : contents file s = payload ++ bytes32 want) :
    checkBoot2 file s = .ok (reportIf (s.addr ≠ flashOrigin) (.boot2At s.addr) ++
      reportIf (want ≠ crcOf payload) (.boot2Checksum want (crcOf payload))) := by
  -- the whole section is in the file
  have hin : s.offset.toNat + 256 ≤ file.length := by
    have hcontents := congrArg List.length h
    rw [contents_of_size hsize, List.length_take, List.length_drop, List.length_append,
      hlen] at hcontents
    change _ = 252 + 4 at hcontents
    omega
  have hwant : word32 (payload ++ bytes32 want) 252 = want := by
    rw [← word32_drop, ← hlen, List.drop_left, word32_bytes32]
  have hpayload : (payload ++ bytes32 want).take 252 = payload := by
    rw [← hlen, List.take_left]
  rw [checkBoot2_of_inside hsize hin, h, hwant, hpayload]

/-- Boot2 images are accepted as built, and small damage is detected. -/
theorem boot2_checksum {code : List Byte} (h : code.length ≤ 252) :
    ∃ blob, buildBoot2 code = .ok blob ∧ blob.length = 256 ∧
      blob.take 252 = code ++ List.replicate (252 - code.length) 0 ∧
      (∀ file s, s.size = 256 → contents file s = blob →
        ∃ fails, checkBoot2 file s = .ok fails ∧
          ∀ want got, Failure.boot2Checksum want got ∉ fails) ∧
      ∀ payload start, payload.length = 252 → payload ≠ blob.take 252 →
        (∀ i, (Crc.bitsOf payload)[i]? ≠ (Crc.bitsOf (blob.take 252))[i]? →
          start ≤ i ∧ i < start + 32) →
        ∀ file s, s.size = 256 → contents file s = payload ++ blob.drop 252 →
          ∃ fails want got, checkBoot2 file s = .ok fails ∧
            Failure.boot2Checksum want got ∈ fails := by
  let padded : List Byte := code ++ List.replicate (252 - code.length) 0
  have hlen : padded.length = 252 := by
    rw [List.length_append, List.length_replicate]
    omega
  have htake : (padded ++ bytes32 (crcOf padded)).take 252 = padded := by
    rw [← hlen, List.take_left]
  have hdrop : (padded ++ bytes32 (crcOf padded)).drop 252 = bytes32 (crcOf padded) := by
    rw [← hlen, List.drop_left]
  refine ⟨padded ++ bytes32 (crcOf padded), buildBoot2_eq h, ?_, htake, ?_, ?_⟩
  · rw [List.length_append, hlen]
    rfl
  · intro file s hsize hcontents
    refine ⟨_, checkBoot2_eq hsize hlen hcontents, fun want got hmem => ?_⟩
    rw [reportIf, reportIf, if_neg (not_not.mpr rfl), List.append_nil] at hmem
    split at hmem <;> simp at hmem
  · intro payload start hpayload hne hdiff file s hsize hcontents
    rw [htake] at hne hdiff
    rw [hdrop] at hcontents
    -- were the checksums equal, the payloads would be
    have hcrc : crcOf padded ≠ crcOf payload := fun heq =>
      hne (eq_of_crcOf_eq (hpayload.trans hlen.symm) hdiff heq.symm)
    refine ⟨_, crcOf padded, crcOf payload, checkBoot2_eq hsize hpayload hcontents, ?_⟩
    rw [reportIf, reportIf, if_pos hcrc]
    exact List.mem_append_right _ (List.mem_singleton_self _)

/-- An image of no code at all, with its first bit set. -/
theorem boot2_checksum_firstBit :
    ∃ blob fails want got, buildBoot2 [] = .ok blob ∧
      checkBoot2 (0x80 :: blob.tail)
        { name := ".boot2", shType := 1, flags := 2, addr := flashOrigin, offset := 0, size := 256 }
        = .ok fails ∧ Failure.boot2Checksum want got ∈ fails := by
  obtain ⟨blob, hbuild, hlen, htake, -, hdamage⟩ :=
    @boot2_checksum [] (Nat.zero_le 252)
  have hzeros : blob.take 252 = 0 :: List.replicate 251 0 := htake
  have hdiff : ∀ i, (Crc.bitsOf ((0x80 : Byte) :: List.replicate 251 0))[i]? ≠
      (Crc.bitsOf (blob.take 252))[i]? → 0 ≤ i ∧ i < 0 + 32 := fun i hi => by
    refine ⟨Nat.zero_le i, ?_⟩
    by_contra hge
    -- the rest of the bits is untouched
    rw [hzeros, Crc.bitsOf, Crc.bitsOf, List.flatMap_cons, List.flatMap_cons,
      List.getElem?_append_right (by rw [Crc.length_msbFirst]; omega),
      List.getElem?_append_right (by rw [Crc.length_msbFirst]; omega)] at hi
    exact hi (by rw [Crc.length_msbFirst, Crc.length_msbFirst])
  have hfile : 0x80 :: blob.tail = (0x80 : Byte) :: List.replicate 251 0 ++ blob.drop 252 := by
    obtain ⟨b, rest, rfl⟩ := List.exists_cons_of_length_eq_add_one hlen
    rw [List.take_succ_cons, List.cons.injEq] at hzeros
    rw [List.tail_cons, List.drop_succ_cons, List.cons_append, ← hzeros.2, List.take_append_drop]
  obtain ⟨fails, want, got, hcheck, hmem⟩ := hdamage (0x80 :: List.replicate 251 0) 0
    (by rw [List.length_cons, List.length_replicate])
    (fun heq => absurd (List.cons.inj (heq.trans hzeros)).1 (by decide)) hdiff (0x80 :: blob.tail)
    { name := ".boot2", shType := 1, flags := 2, addr := flashOrigin, offset := 0, size := 256 }
    rfl (by
      rw [← hfile]
      exact List.take_of_length_le (by simp [hlen]))
  exact ⟨blob, fails, want, got, hbuild, hcheck, hmem⟩

end Elf
