import Inmojomni.Effect.Fallible
import Inmojomni.Numeral
import Inmojomni.Rtt.Stream

/-!
# Numbers are logged exactly

`write_u32` collects digits from the last one on in an array of ten, and copies them to the
ring the other way round. Here the array is one, and an index outside it is an outcome of its
own (`writeU32Checked`); the loop never goes there, and what it copies are the decimal digits.

In a ring that has room for it, a message is stored behind the write offset, wherever that is,
and the write offset moves behind the message (`exec_append`). The digits of a number are read
back as the number, and the first one is a zero only in `0` (`numbers_exact`).
-/

open Mmio Effect

namespace Rtt

/-! ### The array -/

/-- The array that digits are collected in. -/
abbrev Digits := Vector Byte 10

/-- The digit at an index; an index outside the array is the error. -/
def digitAt (ds : Digits) (i : ℕ) : Except ℕ Byte := if h : i < 10 then .ok ds[i] else .error i

/-- The loop that collects digits: the array, and how many there are. -/
def collect (ds : Digits) (count : ℕ) (n : Word) : Except ℕ (Digits × ℕ) :=
  if h : count < 10 then
    let ds := ds.set count (BitVec.ofNat 8 (48 + (n % 10).toNat))
    if n / 10 = 0 then .ok (ds, count + 1) else collect ds (count + 1) (n / 10)
  else .error count
termination_by 10 - count

/-- How many digits the number has, and in what order the second loop takes them. -/
def copied (v : Word) : Except ℕ (ℕ × List Byte) := do
  let (ds, count) ← collect (Vector.replicate 10 0) 0 v
  let bytes ← (List.range count).mapM fun i => digitAt ds (count - 1 - i)
  return (count, bytes)

/-- `write_u32` with its array. -/
def writeU32Checked (v : Word) : Except ℕ (Firmware Unit) :=
  (copied v).map fun (count, bytes) => append (BitVec.ofNat 32 count) bytes

theorem digits_of_lt {n : Word} (h : n / 10 = 0) :
    digits n = [BitVec.ofNat 8 (48 + (n % 10).toNat)] := by
  rw [digits, if_pos h]

theorem digits_of_ge {n : Word} (h : ¬ n / 10 = 0) :
    digits n = BitVec.ofNat 8 (48 + (n % 10).toNat) :: digits (n / 10) := by
  rw [digits, if_neg h]

/-- The loop puts the digits of the number behind those that are there. -/
theorem collect_spec {ds : Digits} {count : ℕ} {n : Word} (h : count + (digits n).length ≤ 10) :
    ∃ ds', collect ds count n = .ok (ds', count + (digits n).length) ∧
      (∀ i < count, ds'[i]? = ds[i]?) ∧
      ∀ i < (digits n).length, ds'[count + i]? = (digits n)[i]? := by
  induction n using digits.induct generalizing ds count with
  | case1 n ih =>
    by_cases hn : n / 10 = 0
    · rw [digits_of_lt hn] at h ⊢
      have hlt : count < 10 := Nat.lt_of_succ_le h
      refine ⟨_, by rw [collect, dif_pos hlt, if_pos hn]; rfl, fun i hi => ?_, fun i hi => ?_⟩
      · rw [Vector.getElem?_set_ne _ (by omega)]
      · obtain rfl : i = 0 := by simpa using hi
        simp [hlt]
    · rw [digits_of_ge hn, List.length_cons] at h ⊢
      have hlt : count < 10 := by omega
      obtain ⟨ds', heq, hold, hnew⟩ := @ih hn
        (ds.set count (BitVec.ofNat 8 (48 + (n % 10).toNat))) (count + 1) (by omega)
      refine ⟨ds', ?_, fun i hi => ?_, fun i hi => ?_⟩
      · rw [collect, dif_pos hlt, if_neg hn, heq, Nat.add_assoc, Nat.add_comm 1]
      · rw [hold i (by omega), Vector.getElem?_set_ne _ (by omega)]
      · cases i with
        | zero =>
          rw [Nat.add_zero, hold count (by omega)]
          simp [hlt]
        | succ i =>
          rw [List.getElem?_cons_succ, ← hnew i (by omega)]
          congr 1
          omega

/-- **The array.** No index leaves it, and the program is that of the digits. -/
theorem writeU32Checked_eq (v : Word) : writeU32Checked v = .ok (writeU32 v) := by
  obtain ⟨ds, hcollect, -, hds⟩ := @collect_spec (Vector.replicate 10 0) 0 v
    (by rw [Nat.zero_add]; exact length_digits_le v)
  rw [Nat.zero_add] at hcollect
  have hle := length_digits_le v
  -- the second loop takes the last digit first
  have hround : ∀ i ∈ List.range (digits v).length,
      digitAt ds ((digits v).length - 1 - i) = .ok ((digits v).reverse.getD i 0) := by
    intro i hi
    have hlt := List.mem_range.mp hi
    have hget := hds ((digits v).length - 1 - i) (by omega)
    rw [Nat.zero_add, Vector.getElem?_eq_getElem (by omega), ← List.getElem?_reverse hlt] at hget
    rw [digitAt, dif_pos (by omega), List.getD, ← hget, Option.getD_some]
  have hall : (List.range (digits v).length).map (fun i => (digits v).reverse.getD i 0)
      = (digits v).reverse := by
    refine List.ext_getElem (by simp) fun i hi hi' => ?_
    rw [List.getElem_map, List.getElem_range, List.getD_eq_getElem _ _ hi']
  have hcopied : copied v = .ok ((digits v).length, (digits v).reverse) := by
    rw [copied, hcollect, Fallible.ok_bind]
    dsimp only
    rw [Fallible.mapM_eq_ok hround, hall]
    rfl
  rw [writeU32Checked, hcopied]
  rfl

/-! ### The ring -/

/-- Both offsets lie in the ring. -/
structure RingState (m : Ram) : Prop where
  wrOff : m.read32 upWrOff < bufSize
  rdOff : m.read32 upRdOff < bufSize

/-- The room in the ring, one byte of which is kept free. -/
def free (m : Ram) : ℕ :=
  size - 1 - ((m.read32 upWrOff).toNat + size - (m.read32 upRdOff).toNat) % size

/-- Memory after bytes have been stored from position `n` of the ring on. -/
def stored (m : Ram) (n : ℕ) : List Byte → Ram
  | [] => m
  | b :: bs => stored (m.write8 (buf + offset n) b) (n + 1) bs

/-- The bytes stand behind the write offset, which has moved behind them; nothing else has
changed. -/
structure Appended (m : Ram) (bs : List Byte) (m' : Ram) : Prop where
  cell : ∀ i (h : i < bs.length), cells m' (((m.read32 upWrOff).toNat + i) % size) = bs[i]
  wrOff : (m'.read32 upWrOff).toNat = ((m.read32 upWrOff).toNat + bs.length) % size
  frame : ∀ addr, 4 ≤ (addr - upWrOff).toNat →
    (∀ i < bs.length, addr ≠ buf + offset ((m.read32 upWrOff).toNat + i)) → m' addr = m addr

/-- The program ends, and it appends the bytes. -/
def Appends (p : Firmware Unit) (m : Ram) (bs : List Byte) : Prop :=
  (∃ m', Exec Ram.access p m () m') ∧ ∀ u m', Exec Ram.access p m u m' → Appended m bs m'

section Stored

variable {m : Ram} {n : ℕ} {bs : List Byte}

theorem stored_of_ne {addr : Word} (h : ∀ i < bs.length, addr ≠ buf + offset (n + i)) :
    stored m n bs addr = m addr := by
  induction bs generalizing m n with
  | nil => rfl
  | cons b bs ih =>
    rw [stored, ih fun i hi => ?_]
    · exact Function.update_of_ne (h 0 (Nat.succ_pos _)) _ _
    · have hnext := h (i + 1) (Nat.succ_lt_succ hi)
      rwa [Nat.add_comm i, ← Nat.add_assoc] at hnext

theorem cells_stored (hlen : bs.length ≤ size) {i : ℕ} (hi : i < bs.length) :
    cells (stored m n bs) ((n + i) % size) = bs[i] := by
  induction bs generalizing m n i with
  | nil => exact absurd hi (Nat.not_lt_zero i)
  | cons b bs ih =>
    rw [List.length_cons] at hlen hi
    cases i with
    | zero =>
      -- the later bytes go to other cells
      have hne : ∀ j < bs.length, buf + offset n ≠ buf + offset (n + 1 + j) := fun j hj heq =>
        offset_ne (by omega) (by omega) ((BitVec.add_right_inj _).mp heq)
      rw [Nat.add_zero, stored]
      exact (stored_of_ne hne).trans (Function.update_self _ _ _)
    | succ i =>
      have hcell := ih (m := m.write8 (buf + offset n) b) (n := n + 1) (by omega)
        (Nat.lt_of_succ_lt_succ hi)
      rwa [Nat.add_assoc n 1, Nat.add_comm 1] at hcell

theorem exec_put {b : Byte} {wr : Word} {m' : Ram} : Exec Ram.access (put (offset n) b) m wr m' ↔
    wr = offset (n + 1) ∧ m' = m.write8 (buf + offset n) b := by
  constructor
  · intro h
    obtain ⟨_, t, rfl, ht⟩ := exec_op.mp h
    obtain ⟨rfl, rfl⟩ := exec_ret.mp ht
    exact ⟨next_offset n, rfl⟩
  · rintro ⟨rfl, rfl⟩
    refine .op (r := ()) rfl ?_
    rw [← next_offset]
    exact .ret _ _

theorem exec_putAll {wr : Word} {m' : Ram} :
    Exec Ram.access (putAll (offset n) bs) m wr m' ↔
      wr = offset (n + bs.length) ∧ m' = stored m n bs := by
  induction bs generalizing m n with
  | nil => exact exec_ret
  | cons b bs ih =>
    rw [putAll, Mmio.bind_eq, exec_bind]
    simp only [exec_put]
    constructor
    · rintro ⟨_, _, ⟨rfl, rfl⟩, h⟩
      obtain ⟨rfl, rfl⟩ := ih.mp h
      exact ⟨by rw [List.length_cons, Nat.add_assoc, Nat.add_comm 1], rfl⟩
    · rintro ⟨rfl, rfl⟩
      refine ⟨_, _, ⟨rfl, rfl⟩, ih.mpr ⟨?_, rfl⟩⟩
      rw [List.length_cons, Nat.add_assoc, Nat.add_comm 1]

end Stored

theorem offset_of_lt {w : Word} (h : w < bufSize) : offset w.toNat = w := by
  have hlt : w.toNat < size := BitVec.lt_def.mp h
  refine BitVec.eq_of_toNat_eq ?_
  rw [toNat_offset, Nat.mod_eq_of_lt hlt]

theorem offset_add_size (n : ℕ) : offset (n + size) = offset n := by
  rw [offset, offset, Nat.add_mod_right]

/-- What `room` computes is the room. -/
theorem toNat_room_eq_free {m : Ram} (h : RingState m) :
    (if m.read32 upRdOff > m.read32 upWrOff then m.read32 upRdOff - m.read32 upWrOff - 1
      else bufSize - 1 - m.read32 upWrOff + m.read32 upRdOff).toNat = free m := by
  -- the write offset as a position at or after the read offset
  obtain ⟨hi, hle, hlt, hoff⟩ : ∃ hi, (m.read32 upRdOff).toNat ≤ hi ∧
      hi < (m.read32 upRdOff).toNat + size ∧ offset hi = m.read32 upWrOff := by
    have hwr := BitVec.lt_def.mp h.wrOff
    have hrd := BitVec.lt_def.mp h.rdOff
    rcases Nat.lt_or_ge (m.read32 upWrOff).toNat (m.read32 upRdOff).toNat with hbehind | hahead
    · refine ⟨(m.read32 upWrOff).toNat + size, hrd.le.trans (Nat.le_add_left _ _),
        Nat.add_lt_add_right hbehind _, ?_⟩
      rw [offset_add_size, offset_of_lt h.wrOff]
    · exact ⟨_, hahead, hwr.trans_le (Nat.le_add_left _ _), offset_of_lt h.wrOff⟩
  have hroom := toNat_room hle hlt
  have hdistance := Cyclic.distance_mod hle hlt
  have hmod : hi % size = (m.read32 upWrOff).toNat := by rw [← toNat_offset, hoff]
  have hmod' : (m.read32 upRdOff).toNat % size = (m.read32 upRdOff).toNat := by
    rw [← toNat_offset, offset_of_lt h.rdOff]
  rw [hmod, hmod'] at hdistance
  rw [hoff, offset_of_lt h.rdOff] at hroom
  rw [hroom, free, hdistance]

theorem exec_room {m m' : Ram} {wr r : Word} : Exec Ram.access (room wr) m r m' ↔
    r = (if m.read32 upRdOff > wr then m.read32 upRdOff - wr - 1
      else bufSize - 1 - wr + m.read32 upRdOff) ∧ m' = m := by
  rw [room, Mmio.bind_eq, exec_bind]
  simp only [Ram.exec_read32]
  constructor
  · rintro ⟨_, _, ⟨rfl, rfl⟩, h⟩
    exact exec_ret.mp h
  · rintro ⟨rfl, rfl⟩
    exact ⟨_, _, ⟨rfl, rfl⟩, .ret _ _⟩

/-- What a message that fits makes of memory. -/
theorem exec_append {m m' : Ram} {bs : List Byte} {u : Unit} (h : RingState m)
    (hfits : bs.length ≤ free m) :
    Exec Ram.access (append (BitVec.ofNat 32 bs.length) bs) m u m' ↔
      m' = (stored m (m.read32 upWrOff).toNat bs).write32 upWrOff
        (offset ((m.read32 upWrOff).toNat + bs.length)) := by
  have hfree : free m < size := by
    rw [free, size_eq]
    omega
  have hput : ∀ {wr m₁}, Exec Ram.access (putAll (m.read32 upWrOff) bs) m wr m₁ ↔
      wr = offset ((m.read32 upWrOff).toNat + bs.length) ∧
        m₁ = stored m (m.read32 upWrOff).toNat bs := by
    intro wr m₁
    have hexec := @exec_putAll m (m.read32 upWrOff).toNat bs wr m₁
    rwa [offset_of_lt h.wrOff] at hexec
  have hcount : ¬ BitVec.ofNat 32 bs.length >
      (if m.read32 upRdOff > m.read32 upWrOff then m.read32 upRdOff - m.read32 upWrOff - 1
        else bufSize - 1 - m.read32 upWrOff + m.read32 upRdOff) := by
    rw [size_eq] at hfree
    rw [gt_iff_lt, BitVec.lt_def, toNat_room_eq_free h, BitVec.toNat_ofNat,
      Nat.mod_eq_of_lt (by omega)]
    omega
  constructor
  · intro hexec
    obtain ⟨_, _, hwr, hexec⟩ := exec_bind.mp hexec
    obtain ⟨rfl, rfl⟩ := Ram.exec_read32.mp hwr
    obtain ⟨_, _, hroom, hexec⟩ := exec_bind.mp hexec
    obtain ⟨rfl, rfl⟩ := exec_room.mp hroom
    rw [if_neg hcount] at hexec
    obtain ⟨_, _, hbytes, hexec⟩ := exec_bind.mp hexec
    obtain ⟨rfl, rfl⟩ := hput.mp hbytes
    exact Ram.exec_write32.mp hexec
  · intro hm'
    refine exec_bind.mpr ⟨_, _, Ram.exec_read32.mpr ⟨rfl, rfl⟩, exec_bind.mpr
      ⟨_, _, exec_room.mpr ⟨rfl, rfl⟩, ?_⟩⟩
    rw [if_neg hcount]
    exact exec_bind.mpr ⟨_, _, hput.mpr ⟨rfl, rfl⟩, Ram.exec_write32.mpr hm'⟩

/-- **A message that fits is appended.** -/
theorem appends_append {m : Ram} {bs : List Byte} (h : RingState m) (hfits : bs.length ≤ free m) :
    Appends (append (BitVec.ofNat 32 bs.length) bs) m bs := by
  have hlen : bs.length ≤ size := hfits.trans ((Nat.sub_le _ _).trans (Nat.sub_le _ _))
  refine ⟨⟨_, (exec_append h hfits).mpr rfl⟩, fun u m' hexec => ?_⟩
  obtain rfl := (exec_append h hfits).mp hexec
  refine ⟨fun i hi => ?_, ?_, fun addr hwr hring => ?_⟩
  · rw [← cells_stored (m := m) (n := (m.read32 upWrOff).toNat) hlen hi]
    exact Ram.write32_of_le (buf_apart (Nat.mod_lt _ (by decide))).1
  · rw [Ram.read32_write32, toNat_offset]
  · rw [Ram.write32_of_le hwr, stored_of_ne hring]

/-! ### Numerals -/

/-- The value of an ASCII digit. -/
def decimalDigit (b : Byte) : Option ℕ :=
  if 48 ≤ b.toNat ∧ b.toNat < 58 then some (b.toNat - 48) else none

/-- The value of a hexadecimal digit with a small letter. -/
def hexDigit (b : Byte) : Option ℕ :=
  if 97 ≤ b.toNat ∧ b.toNat < 103 then some (b.toNat - 87) else decimalDigit b

/-- The decimal numeral of `v`: at most ten digits, and a leading zero in `0` only. -/
structure IsDecimal (v : ℕ) (bs : List Byte) : Prop where
  value : Numeral.value 10 decimalDigit bs = some v
  length_le : bs.length ≤ 10
  leading : v ≠ 0 → bs.head? ≠ some 48
  zero : v = 0 → bs = [48]

/-- `0x` and the eight digits of `v`. -/
def IsHex (v : ℕ) (bs : List Byte) : Prop :=
  ∃ ds, bs = 48 :: 120 :: ds ∧ ds.length = 8 ∧ Numeral.value 16 hexDigit ds = some v

theorem decimalDigit_ofNat {d : ℕ} (h : d < 10) :
    decimalDigit (BitVec.ofNat 8 (48 + d)) = some d := by
  decide +revert

theorem hexDigit_digitChar {d : ℕ} (h : d < 16) :
    hexDigit (BitVec.ofNat 8 (Nat.digitChar d).toNat) = some d := by
  decide +revert

theorem value_digits (n : Word) :
    Numeral.value 10 decimalDigit (digits n).reverse = some n.toNat := by
  induction n using digits.induct with
  | case1 n ih =>
    have hlast : decimalDigit (BitVec.ofNat 8 (48 + (n % 10).toNat)) = some (n.toNat % 10) :=
      decimalDigit_ofNat (Nat.mod_lt _ (by decide))
    have hdiv : (n / 10).toNat = n.toNat / 10 := rfl
    by_cases hn : n / 10 = 0
    · have hsmall : n.toNat / 10 = 0 := by rw [← hdiv, hn]; rfl
      rw [digits_of_lt hn, List.reverse_singleton, ← List.nil_append [_],
        Numeral.value_concat Numeral.value_nil hlast]
      congr 1
      omega
    · rw [digits_of_ge hn, List.reverse_cons, Numeral.value_concat (ih hn) hlast, hdiv,
        Nat.div_add_mod]

/-- The first digit is a zero in `0` only. -/
theorem eq_zero_of_head_digits {n : Word} (h : (digits n).reverse.head? = some 48) : n = 0 := by
  induction n using digits.induct with
  | case1 n ih =>
    by_cases hn : n / 10 = 0
    · rw [digits_of_lt hn, List.reverse_singleton, List.head?_cons, Option.some_inj] at h
      have hdigit := decimalDigit_ofNat (Nat.mod_lt n.toNat (by decide : 10 > 0))
      have hmod : (n % 10).toNat = n.toNat % 10 := rfl
      rw [← hmod, h, hmod] at hdigit
      have hzero : 0 = n.toNat % 10 := Option.some.inj hdigit
      have hdiv : n.toNat / 10 = 0 := congrArg BitVec.toNat hn
      refine BitVec.eq_of_toNat_eq (?_ : n.toNat = 0)
      omega
    · have hne : (digits (n / 10)).reverse ≠ [] := by
        rw [digits]
        simp
      rw [digits_of_ge hn, List.reverse_cons, List.head?_append_of_ne_nil _ hne] at h
      exact absurd (ih hn h) hn

/-- What `write_u32` appends is the decimal numeral. -/
theorem isDecimal_digits (v : Word) : IsDecimal v.toNat (digits v).reverse := by
  refine ⟨value_digits v, ?_, fun hne h => hne ?_, fun hzero => ?_⟩
  · rw [List.length_reverse]
    exact length_digits_le v
  · rw [eq_zero_of_head_digits h]
    rfl
  · have hv : v = 0 := BitVec.eq_of_toNat_eq hzero
    rw [hv, digits_of_lt (by decide)]
    rfl

/-- What `write_hex` appends is the hexadecimal numeral. -/
theorem isHex_nibbles (v : Word) : IsHex v.toNat (48 :: 120 :: (List.range 8).map (nibble v)) := by
  refine ⟨_, rfl, by rw [List.length_map, List.length_range], ?_⟩
  refine Numeral.value_map_range (by omega) fun i _ => ?_
  rw [nibble_eq, hexDigit_digitChar (Nat.mod_lt _ (by decide))]

/-- **Numbers are logged exactly.** In a ring that has room for it, `write_u32` appends the
decimal numeral of the number and `write_hex` the hexadecimal one; no index leaves the array
of digits. -/
theorem numbers_exact (v : Word) {m : Ram} (hring : RingState m) :
    (∃ bs, IsDecimal v.toNat bs ∧ (bs.length ≤ free m → Appends (writeU32 v) m bs)) ∧
    (∃ bs, IsHex v.toNat bs ∧ (bs.length ≤ free m → Appends (writeHex v) m bs)) ∧
    writeU32Checked v = .ok (writeU32 v) := by
  refine ⟨⟨_, isDecimal_digits v, fun hfits => ?_⟩, ⟨_, isHex_nibbles v, fun hfits => ?_⟩,
    writeU32Checked_eq v⟩
  · have happend := appends_append hring hfits
    rwa [List.length_reverse] at happend
  · have happend := appends_append hring hfits
    rwa [List.length_cons, List.length_cons, List.length_map, List.length_range] at happend

theorem ringState_initialised (m : Ram) : RingState (initialised m) := by
  obtain ⟨hwr, hrd⟩ := initialised_offsets m
  exact ⟨by rw [hwr]; decide, by rw [hrd]; decide⟩

/-- A number that is logged first. -/
theorem numbers_exact_initialised : ∃ bs, IsHex 42 bs ∧
    Appends (writeHex 42) (initialised fun _ => 0) bs := by
  obtain ⟨-, ⟨bs, hhex, happend⟩, -⟩ := numbers_exact 42 (ringState_initialised fun _ => 0)
  refine ⟨bs, hhex, happend ?_⟩
  obtain ⟨hwr, hrd⟩ := initialised_offsets fun _ => 0
  obtain ⟨ds, rfl, hlen, -⟩ := hhex
  rw [free, hwr, hrd, List.length_cons, List.length_cons, hlen]
  decide

end Rtt
