import Inmojomni.Mmio.Ram

/-!
# RTT logging over the debug probe

The SEGGER RTT control block with one up (target to host) channel at a fixed RAM address, and
the three calls that append to it. Overflow policy: a message that does not fit is dropped,
logging never blocks.
-/

open Mmio Effect

namespace Rtt

/-! control block: id[16] | MaxNumUpBuffers | MaxNumDownBuffers | up[0]{6} -/

def rttBase : Word := 0x20038000

def maxUp : Word := rttBase + 16

def maxDown : Word := rttBase + 20

def upName : Word := rttBase + 24

def upBuf : Word := rttBase + 28

def upSize : Word := rttBase + 32

def upWrOff : Word := rttBase + 36

def upRdOff : Word := rttBase + 40

def upFlags : Word := rttBase + 44

def buf : Word := rttBase + 64

def bufSize : Word := 1024

/-- Set up the control block; the magic comes last, so that a host scan never sees a
half-built block. -/
def init : Firmware Unit := do
  write32 maxUp 1
  write32 maxDown 0
  write32 upName 0
  write32 upBuf buf
  write32 upSize bufSize
  write32 upWrOff 0
  write32 upRdOff 0
  -- 0 = skip when full
  write32 upFlags 0
  -- "SEGGER RTT\0\0\0\0\0\0" as little-endian words
  write32 (rttBase + 12) 0
  write32 (rttBase + 8) 0x00005454
  write32 (rttBase + 4) 0x52205245
  write32 (rttBase + 0) 0x47474553

/-- Store one byte at the ring position, and answer the next position. -/
def put (wr : Word) (byte : Byte) : Firmware Word := do
  write8 (buf + wr) byte
  let next := wr + 1
  return if next = bufSize then 0 else next

/-- The room behind the ring position, with one byte kept free. -/
def room (wr : Word) : Firmware Word := do
  let rd ← read32 upRdOff
  return if rd > wr then rd - wr - 1 else bufSize - 1 - wr + rd

/-- Store bytes one after the other, and answer the position behind them. -/
def putAll : Word → List Byte → Firmware Word
  | wr, [] => return wr
  | wr, b :: bs => do
    let wr ← put wr b
    putAll wr bs

/-- What the three calls share: store the bytes if `count` bytes fit, and publish the new
position once. -/
def append (count : Word) (bytes : List Byte) : Firmware Unit := do
  let wr ← read32 upWrOff
  if count > (← room wr) then return
  let wr ← putAll wr bytes
  write32 upWrOff wr

/-- The bytes of a string in memory. Lengths are 32-bit signed integers on the target. -/
structure StaticString where
  bytes : List Byte
  length_lt : bytes.length < 2 ^ 31

/-- Append a string. -/
def write (s : StaticString) : Firmware Unit := append (BitVec.ofNat 32 s.bytes.length) s.bytes

/-- The decimal digits of a number as `write_u32` collects them: the last one first. -/
def digits (n : Word) : List Byte :=
  BitVec.ofNat 8 (48 + (n % 10).toNat) :: if n / 10 = 0 then [] else digits (n / 10)
termination_by n.toNat
decreasing_by
  rename_i h
  have hpos : n.toNat / 10 ≠ 0 := fun h0 => h (BitVec.eq_of_toNat_eq h0)
  exact Nat.div_lt_self (by omega) (by decide)

/-- Append a decimal number. -/
def writeU32 (v : Word) : Firmware Unit :=
  append (BitVec.ofNat 32 (digits v).length) (digits v).reverse

/-- Digit `i` of `write_hex`. -/
def nibble (v : Word) (i : ℕ) : Byte :=
  let nib := ((v >>> ((7 - i) * 4)) &&& 0xF#32).toNat
  if nib < 10 then BitVec.ofNat 8 (48 + nib) else BitVec.ofNat 8 (87 + nib)

/-- Append `0x` and 8 hex digits. -/
def writeHex (v : Word) : Firmware Unit :=
  append 10 (48 :: 120 :: (List.range 8).map (nibble v))

/-- A call that appends a message. -/
inductive Call
  | write (s : StaticString)
  | writeU32 (v : Word)
  | writeHex (v : Word)

/-- Make a call. -/
def Call.run : Call → Firmware Unit
  | write s => Rtt.write s
  | writeU32 v => Rtt.writeU32 v
  | writeHex v => Rtt.writeHex v

/-! ### The messages -/

/-- The bytes of an ASCII text. -/
def ascii (s : List Char) : List Byte := s.map fun c => BitVec.ofNat 8 c.toNat

/-- What a call is to append: a string as it is, a number in decimal, a number in eight hex
digits after `0x`. -/
def Call.message : Call → List Byte
  | write s => s.bytes
  | writeU32 v => ascii (Nat.toDigits 10 v.toNat)
  | writeHex v => ascii ('0' :: 'x' ::
      (List.range 8).map fun i => Nat.digitChar (v.toNat / 16 ^ (7 - i) % 16))

theorem ascii_append (s t : List Char) : ascii (s ++ t) = ascii s ++ ascii t := List.map_append

theorem ascii_digitChar {d : ℕ} (h : d < 16) : BitVec.ofNat 8 (Nat.digitChar d).toNat =
    if d < 10 then BitVec.ofNat 8 (48 + d) else BitVec.ofNat 8 (87 + d) := by
  decide +revert

/-- The digits are those of the decimal text. -/
theorem reverse_digits (n : Word) : (digits n).reverse = ascii (Nat.toDigits 10 n.toNat) := by
  induction n using digits.induct with
  | case1 n ih =>
    have hlast : BitVec.ofNat 8 (48 + (n % 10).toNat)
        = BitVec.ofNat 8 (Nat.digitChar (n.toNat % 10)).toNat := by
      have hlt : n.toNat % 10 < 10 := Nat.mod_lt _ (by decide)
      rw [ascii_digitChar (by omega), if_pos hlt]
      rfl
    rw [digits, List.reverse_cons, hlast]
    by_cases h : n / 10 = 0
    · have hsmall : n.toNat / 10 = 0 := congrArg BitVec.toNat h
      rw [if_pos h, Nat.toDigits_of_lt_base (by omega), Nat.mod_eq_of_lt (a := n.toNat) (by omega)]
      rfl
    · have hbig : 10 ≤ n.toNat := by
        by_contra hlt
        have hdiv : n.toNat / 10 = 0 := Nat.div_eq_of_lt (by omega)
        exact h (BitVec.eq_of_toNat_eq hdiv)
      rw [if_neg h, ih h, Nat.toDigits_of_base_le (by decide) hbig, ascii_append]
      rfl

/-- There are at most ten of them: they fit the array that `write_u32` collects them in. -/
theorem length_digits_le (n : Word) : (digits n).length ≤ 10 := by
  rw [← List.length_reverse, reverse_digits, ascii, List.length_map,
    Nat.length_toDigits_le_iff (by decide) (by decide)]
  omega

theorem nibble_eq (v : Word) (i : ℕ) :
    nibble v i = BitVec.ofNat 8 (Nat.digitChar (v.toNat / 16 ^ (7 - i) % 16)).toNat := by
  have hnib : ((v >>> ((7 - i) * 4)) &&& 0xF#32).toNat = v.toNat / 16 ^ (7 - i) % 16 := by
    rw [BitVec.toNat_and, BitVec.toNat_ushiftRight, Nat.shiftRight_eq_div_pow,
      show BitVec.toNat 0xF#32 = 2 ^ 4 - 1 from rfl, Nat.and_two_pow_sub_one_eq_mod,
      Nat.mul_comm, Nat.pow_mul]
  rw [nibble, hnib, ascii_digitChar (Nat.mod_lt _ (by decide))]

/-- Every call appends its message, with its length for the count. -/
theorem Call.run_eq (k : Call) :
    k.run = append (BitVec.ofNat 32 k.message.length) k.message ∧ k.message.length < 2 ^ 31 := by
  cases k with
  | write s => exact ⟨rfl, s.length_lt⟩
  | writeU32 v =>
    have hlen : (ascii (Nat.toDigits 10 v.toNat)).length = (digits v).length := by
      rw [← reverse_digits, List.length_reverse]
    have hle := length_digits_le v
    refine ⟨?_, ?_⟩
    · rw [run, Rtt.writeU32, message, hlen, reverse_digits]
    · rw [message, hlen]
      omega
  | writeHex v =>
    refine ⟨?_, ?_⟩
    · rw [run, Rtt.writeHex, funext (nibble_eq v)]
      simp only [message, ascii, List.map_cons, List.map_map, List.length_cons, List.length_map,
        List.length_range]
      rfl
    · simp [message, ascii]

end Rtt
