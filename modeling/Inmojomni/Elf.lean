import Mathlib.Control.Monad.Basic
import Mathlib.Logic.Function.Iterate
import Mathlib.Data.Nat.Basic
import Inmojomni.Intervals

/-!
# The static verifier for firmware ELFs

`parse_sections` reads the section table of a file, and `check` lists what is wrong with the
sections: `.boot2` and its checksum, the vector table, and whether every allocated section fits
its memory region. A file is a list of bytes. Indexing is not checked against the length of a
list, so that a read outside it is an outcome of its own (`Stop.outOfBounds`), next to the
errors that the tool raises.
-/

namespace Elf

abbrev Byte := BitVec 8

abbrev Word := BitVec 32

/-- How a run ends without a result. -/
inductive Stop
  | raised (msg : String)
  | outOfBounds (i : ℕ)
  deriving DecidableEq

def flashOrigin : Word := 0x10000000

/-- 2 MB -/
def flashEnd : Word := 0x10200000

def ramOrigin : Word := 0x20000000

/-- 256 KB (striped banks) -/
def ramEnd : Word := 0x20040000

def vectorTable : Word := 0x10000100

/-- Leave at least this much for the stack. -/
def stackMargin : Word := 4096

def emArm : Word := 40

def shfAlloc : Word := 0x2

/-! ### Reading bytes -/

/-- The byte at an index. -/
def byte (d : List Byte) (i : ℕ) : Except Stop Byte :=
  match d[i]? with
  | some b => .ok b
  | none => .error (.outOfBounds i)

def rd16 (d : List Byte) (off : ℕ) : Except Stop Word := do
  let b0 ← byte d off
  let b1 ← byte d (off + 1)
  return b0.setWidth 32 ||| (b1.setWidth 32 <<< 8)

def rd32 (d : List Byte) (off : ℕ) : Except Stop Word := do
  let b0 ← byte d off
  let b1 ← byte d (off + 1)
  let b2 ← byte d (off + 2)
  let b3 ← byte d (off + 3)
  return b0.setWidth 32 ||| (b1.setWidth 32 <<< 8) ||| (b2.setWidth 32 <<< 16) |||
    (b3.setWidth 32 <<< 24)

/-! ### The checksum -/

/-- The body of the inner loop of `crc32_mpeg2`. -/
def crcShift (crc : Word) : Word :=
  if crc &&& 0x80000000 ≠ 0 then (crc <<< 1) ^^^ 0x04C11DB7 else crc <<< 1

/-- The body of its outer loop. -/
def crcByte (crc : Word) (b : Byte) : Word := crcShift^[8] (crc ^^^ (b.setWidth 32 <<< 24))

/-- CRC-32/MPEG-2: poly 0x04C11DB7, init 0xFFFFFFFF, no reflection. -/
def crc32Mpeg2 (data : List Byte) (length : ℕ) : Except Stop Word :=
  (List.range length).foldlM (fun crc i => crcByte crc <$> byte data i) 0xFFFFFFFF

/-! ### The section table -/

structure Sect where
  name : String
  shType : Word
  flags : Word
  addr : Word
  offset : Word
  size : Word
  deriving DecidableEq

/-- The loop that reads a name, at index `p` of the file, where `rest` is left of it. -/
def cstring (p : ℕ) : List Byte → Except Stop (List Char)
  | [] => .error (.outOfBounds p)
  | b :: rest => if b ≠ 0 then (Char.ofNat b.toNat :: ·) <$> cstring (p + 1) rest else .ok []

/-- The name at `p`. -/
def readName (raw : List Byte) (p : ℕ) : Except Stop String :=
  String.ofList <$> cstring p (raw.drop p)

/-- The entry of the section table at `off`. -/
def parseSect (raw : List Byte) (strtabOff off : ℕ) : Except Stop Sect := do
  let nameOff ← rd32 raw off
  let name ← readName raw (strtabOff + nameOff.toNat)
  let shType ← rd32 raw (off + 4)
  let flags ← rd32 raw (off + 8)
  let addr ← rd32 raw (off + 12)
  let offset ← rd32 raw (off + 16)
  let size ← rd32 raw (off + 20)
  return { name, shType, flags, addr, offset, size }

/-- The bytes every ELF file starts with. -/
def elfMagic : List Byte := [0x7F, 0x45, 0x4C, 0x46]

/-- The tests on the ELF header. -/
def checkHeader (raw : List Byte) : Except Stop Unit :=
  if raw.length < 52 then .error (.raised "not an ELF file")
  else do
    let start ← (List.range 4).mapM (byte raw)
    if start ≠ elfMagic then .error (.raised "not an ELF file")
    else do
      let elfClass ← byte raw 4
      let elfData ← byte raw 5
      if elfClass ≠ 1 ∨ elfData ≠ 1 then .error (.raised "not a 32-bit little-endian ELF")
      else do
        let machine ← rd16 raw 18
        if machine ≠ emArm then
          .error (.raised ("e_machine is " ++ toString machine.toNat ++ ", expected ARM (40)"))
        else .ok ()

def parseSections (raw : List Byte) : Except Stop (List Sect) := do
  checkHeader raw
  let shoff ← rd32 raw 32
  let shentsize ← rd16 raw 46
  let shnum ← rd16 raw 48
  let shstrndx ← rd16 raw 50
  let strtabOff ← rd32 raw (shoff.toNat + shstrndx.toNat * shentsize.toNat + 16)
  (List.range shnum.toNat).mapM fun i =>
    parseSect raw strtabOff.toNat (shoff.toNat + i * shentsize.toNat)

/-! ### The checks -/

def hex (v : Word) : String := "0x" ++ String.ofList (Nat.toDigits 16 v.toNat)

/-- What `check` finds wrong. -/
inductive Failure
  | cannotParse (msg : String)
  | boot2At (addr : Word)
  | boot2Size (size : Word)
  | boot2Checksum (want got : Word)
  | vectorTableAt (addr : Word)
  | initialSp (sp : Word)
  | resetThumb (reset : Word)
  | resetOutside (reset : Word)
  | missingBoot2
  | missingVectorTable
  | overflowsFlash (name : String)
  | overflowsRam (name : String)
  | outsideMemory (name : String) (lo : Word)
  | overlap (name name' : String)
  | ramUsage (ramBytes : Word)
  deriving DecidableEq

/-- The message of a failure. -/
def Failure.message : Failure → String
  | .cannotParse msg => "cannot parse ELF: " ++ msg
  | .boot2At addr => ".boot2 at " ++ hex addr ++ ", expected " ++ hex flashOrigin
  | .boot2Size size => ".boot2 is " ++ toString size.toNat ++ " bytes, expected 256"
  | .boot2Checksum want got =>
    ".boot2 checksum " ++ hex want ++ " != computed " ++ hex got ++
      " (chip would hang in the mask ROM)"
  | .vectorTableAt addr => ".vector_table at " ++ hex addr ++ ", expected " ++ hex vectorTable
  | .initialSp sp => "initial SP " ++ hex sp ++ " not a 4-aligned RAM address"
  | .resetThumb reset => "reset vector " ++ hex reset ++ " missing the thumb bit"
  | .resetOutside reset => "reset vector " ++ hex reset ++ " points outside flash"
  | .missingBoot2 => "missing .boot2 section"
  | .missingVectorTable => "missing .vector_table section"
  | .overflowsFlash name => name ++ " overflows flash"
  | .overflowsRam name => name ++ " overflows RAM"
  | .outsideMemory name lo => name ++ " at " ++ hex lo ++ " is outside flash and RAM"
  | .overlap name name' => "sections " ++ name ++ " and " ++ name' ++ " overlap"
  | .ramUsage ramBytes =>
    "RAM usage " ++ toString ramBytes.toNat ++ " leaves <" ++ toString stackMargin.toNat ++
      " bytes of stack"

/-- The failure is reported when the condition holds. -/
def reportIf (p : Prop) [Decidable p] (f : Failure) : List Failure := if p then [f] else []

/-- The checks on a section that is named `.boot2`. -/
def checkBoot2 (raw : List Byte) (s : Sect) : Except Stop (List Failure) := do
  let misplaced := reportIf (s.addr ≠ flashOrigin) (.boot2At s.addr)
  if s.size ≠ 256 then
    return misplaced ++ [.boot2Size s.size]
  else
    let blob ← (List.range 256).mapM fun i => byte raw (s.offset.toNat + i)
    let want ← rd32 blob 252
    let got ← crc32Mpeg2 blob 252
    return misplaced ++ reportIf (want ≠ got) (.boot2Checksum want got)

/-- The checks on a section that is named `.vector_table`. -/
def checkVectorTable (raw : List Byte) (s : Sect) : Except Stop (List Failure) := do
  let misplaced := reportIf (s.addr ≠ vectorTable) (.vectorTableAt s.addr)
  let sp ← rd32 raw s.offset.toNat
  let reset ← rd32 raw (s.offset.toNat + 4)
  let resetA := reset &&& ~~~1
  return misplaced ++
    reportIf (¬(ramOrigin < sp ∧ sp ≤ ramEnd) ∨ sp % 4 ≠ 0) (.initialSp sp) ++
    reportIf (reset &&& 1 = 0) (.resetThumb reset) ++
    reportIf (¬(flashOrigin ≤ resetA ∧ resetA < flashEnd)) (.resetOutside reset)

/-- The sections the mask ROM and the core start from: which were seen, and what is wrong. -/
structure Named where
  haveBoot2 : Bool
  haveVt : Bool
  fails : List Failure

def checkNamed (raw : List Byte) (st : Named) (s : Sect) : Except Stop Named := do
  if s.name = ".boot2" then
    return { st with haveBoot2 := true, fails := st.fails ++ (← checkBoot2 raw s) }
  else if s.name = ".vector_table" then
    return { st with haveVt := true, fails := st.fails ++ (← checkVectorTable raw s) }
  else
    return st

/-- The `.boot2` and `.vector_table` checks. -/
def namedFailures (raw : List Byte) (sects : List Sect) : Except Stop (List Failure) := do
  let st ← sects.foldlM (checkNamed raw) { haveBoot2 := false, haveVt := false, fails := [] }
  return st.fails ++ reportIf (st.haveBoot2 = false) .missingBoot2 ++
    reportIf (st.haveVt = false) .missingVectorTable

/-- A row of the lists `lo_l`, `hi_l` and `name_l`. -/
structure Extent where
  lo : Word
  hi : Word
  name : String
  deriving DecidableEq

/-- The memory budget: what is placed, how much of RAM it takes, and what is wrong. -/
structure Budget where
  ramBytes : Word
  extents : List Extent
  fails : List Failure

/-- An allocated section that is not empty. -/
def Sect.Allocated (s : Sect) : Prop := ¬(s.flags &&& shfAlloc = 0 ∨ s.size = 0)

/-- The section starts in flash. -/
def Sect.InFlash (s : Sect) : Prop := flashOrigin ≤ s.addr ∧ s.addr < flashEnd

/-- The section starts in RAM. -/
def Sect.InRam (s : Sect) : Prop := ramOrigin ≤ s.addr ∧ s.addr < ramEnd

instance (s : Sect) : Decidable s.Allocated := inferInstanceAs (Decidable (¬_))

instance (s : Sect) : Decidable s.InFlash := inferInstanceAs (Decidable (_ ∧ _))

instance (s : Sect) : Decidable s.InRam := inferInstanceAs (Decidable (_ ∧ _))

def Sect.extent (s : Sect) : Extent := { lo := s.addr, hi := s.addr + s.size, name := s.name }

/-- The loop over the sections: the others are passed over. -/
def place (m : Budget) (s : Sect) : Budget :=
  if s.Allocated then
    let m := { m with extents := m.extents ++ [s.extent] }
    if s.InFlash then
      { m with fails := m.fails ++ reportIf (s.extent.hi > flashEnd) (.overflowsFlash s.name) }
    else if s.InRam then
      { m with
        fails := m.fails ++ reportIf (s.extent.hi > ramEnd) (.overflowsRam s.name)
        ramBytes := m.ramBytes + s.size }
    else
      { m with fails := m.fails ++ [.outsideMemory s.name s.addr] }
  else m

/-- The test of neighbours after the sort. -/
def overlaps : List Extent → List Failure
  | a :: b :: rest => reportIf (a.hi > b.lo) (.overlap a.name b.name) ++ overlaps (b :: rest)
  | _ => []

/-- Memory budget and overlaps. -/
def memoryFailures (sects : List Sect) : List Failure :=
  let m := sects.foldl place { ramBytes := 0, extents := [], fails := [] }
  m.fails ++ overlaps (Intervals.swapSort (fun e => e.lo.toNat) m.extents) ++
    reportIf (m.ramBytes > ramEnd - ramOrigin - stackMargin) (.ramUsage m.ramBytes)

/-- The checks on the sections. -/
def checkSections (raw : List Byte) (sects : List Sect) : Except Stop (List Failure) := do
  let fails ← namedFailures raw sects
  return fails ++ memoryFailures sects

/-- The list of failure messages of a file (empty = all good). -/
def check (raw : List Byte) : Except Stop (List String) :=
  match parseSections raw with
  | .error (.raised msg) => .ok [(Failure.cannotParse msg).message]
  | .error (.outOfBounds i) => .error (.outOfBounds i)
  | .ok sects => List.map Failure.message <$> checkSections raw sects

end Elf
