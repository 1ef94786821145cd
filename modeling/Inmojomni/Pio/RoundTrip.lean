import Inmojomni.Pio.Coexist
import Inmojomni.Pio.Decode
import Inmojomni.Pio.Fixups

/-!
# Decode undoes encode

A program whose operands fit their fields is assembled, loaded, and read back from the
registers: every word decodes to the method that was called, with its operands, its delay and
its side value (`decode_load`). The side-set field is encoded from the configuration in the
`Asm` and decoded from the one in the registers, which `load` writes separately into EXECCTRL
and PINCTRL (`read_putProgram`).
-/

open Mmio Effect

namespace Pio

/-! ### The field as a number -/

/-- Disjoint parts: a multiple of `2 ^ m` and a value below it. -/
theorem lor_eq_add {x : ℤ} {m y : ℕ} (hx0 : 0 ≤ x) (hx : x < 2 ^ m) :
    Int.lor x ((y : ℤ) * 2 ^ m) = y * 2 ^ m + x := by
  obtain ⟨k, rfl⟩ := Int.eq_ofNat_of_zero_le hx0
  have hk : k < 2 ^ m := by exact_mod_cast hx
  have hor : k ||| y * 2 ^ m = y * 2 ^ m + k := by
    rw [Nat.or_comm, Nat.mul_comm, Nat.two_pow_add_eq_or_of_lt hk]
  have hcast : Int.lor k ((y * 2 ^ m : ℕ) : ℤ) = ((k ||| y * 2 ^ m : ℕ) : ℤ) := rfl
  rw [hor] at hcast
  exact_mod_cast hcast

section Field

variable [ShiftModel] {n : ℕ} {d sd : ℤ}

theorem lshift_natCast (x : ℤ) {k : ℤ} {m : ℕ} (h : k = m) : lshift x k = x * 2 ^ m := by
  subst h
  rw [lshift, if_pos (Int.natCast_nonneg m)]
  rfl

/-- Masking a value that fits its field. -/
theorem land_lshift {x k : ℤ} {m : ℕ} (hk : k = m) (h0 : 0 ≤ x) (hx : x < 2 ^ m) :
    Int.land x (lshift 1 k - 1) = x := by
  rw [lshift_natCast 1 hk, one_mul, Int.land_two_pow_sub_one, Int.emod_eq_of_lt h0 hx]

theorem delayField_absent {opt : Bool} (hn : n + opt.toNat ≤ 5) (hd0 : 0 ≤ d)
    (hd : d < 2 ^ (5 - n - opt.toNat)) (hsd : sd < 0) : Asm.delayField n opt d sd = d := by
  have hbits : 5 - Asm.sBits n opt = ((5 - n - opt.toNat : ℕ) : ℤ) := by
    cases opt <;> simp [Asm.sBits] at hn ⊢ <;> omega
  rw [Asm.delayField, land_lshift hbits hd0 hd, if_neg (by omega)]

theorem delayField_required (hn : n ≤ 5) (hpos : 0 < n) (hd0 : 0 ≤ d) (hd : d < 2 ^ (5 - n))
    (hsd0 : 0 ≤ sd) (hsd : sd < 2 ^ n) :
    Asm.delayField n false d sd = sd * 2 ^ (5 - n) + d := by
  have hbits : 5 - Asm.sBits n false = ((5 - n : ℕ) : ℤ) := by
    simp [Asm.sBits]
    omega
  have hshift : 5 - (n : ℤ) = ((5 - n : ℕ) : ℤ) := by omega
  obtain ⟨y, rfl⟩ := Int.eq_ofNat_of_zero_le hsd0
  rw [Asm.delayField, land_lshift hbits hd0 hd, if_pos ⟨by omega, hsd0⟩, land_lshift rfl hsd0 hsd]
  simp only [Bool.false_eq_true, ↓reduceIte]
  rw [lshift_natCast _ hshift, lor_eq_add hd0 hd]

theorem delayField_optional (hn : n ≤ 4) (hpos : 0 < n) (hd0 : 0 ≤ d) (hd : d < 2 ^ (4 - n))
    (hsd0 : 0 ≤ sd) (hsd : sd < 2 ^ n) :
    Asm.delayField n true d sd = (2 ^ n + sd) * 2 ^ (4 - n) + d := by
  have hbits : 5 - Asm.sBits n true = ((4 - n : ℕ) : ℤ) := by
    simp [Asm.sBits]
    omega
  have hshift : 4 - (n : ℤ) = ((4 - n : ℕ) : ℤ) := by omega
  have h16 : 2 ^ n * 2 ^ (4 - n) = 16 := by
    rw [← Nat.pow_add, show n + (4 - n) = 4 by omega]
  obtain ⟨y, rfl⟩ := Int.eq_ofNat_of_zero_le hsd0
  have hy : y < 2 ^ n := by exact_mod_cast hsd
  -- the enable bit is the bit above the side value
  have hlt : y * 2 ^ (4 - n) < 2 ^ 4 := by
    calc y * 2 ^ (4 - n) < 2 ^ n * 2 ^ (4 - n) := Nat.mul_lt_mul_of_pos_right hy (by positivity)
      _ = 2 ^ 4 := h16
  have henable : Int.lor 0x10 ((y : ℤ) * 2 ^ (4 - n)) = ((2 ^ n + y : ℕ) : ℤ) * 2 ^ (4 - n) := by
    have hor : 0x10 ||| y * 2 ^ (4 - n) = 2 ^ n * 2 ^ (4 - n) + y * 2 ^ (4 - n) := by
      rw [h16]
      exact (Nat.two_pow_add_eq_or_of_lt hlt 1).symm
    have hcast : Int.lor 0x10 ((y * 2 ^ (4 - n) : ℕ) : ℤ) = ((0x10 ||| y * 2 ^ (4 - n) : ℕ) : ℤ) :=
      rfl
    rw [hor, ← Nat.add_mul] at hcast
    exact_mod_cast hcast
  rw [Asm.delayField, land_lshift hbits hd0 hd, if_pos ⟨by omega, hsd0⟩, land_lshift rfl hsd0 hsd,
    if_pos rfl, lshift_natCast _ hshift, henable, lor_eq_add hd0 hd]
  push_cast
  rfl

end Field

/-! ### Reading the field back -/

section Read

variable {cfg : SideConfig} {n d y : ℕ}

theorem SideConfig.delay_eq (hd : d < 2 ^ (5 - cfg.count.toNat)) :
    cfg.delay (y * 2 ^ (5 - cfg.count.toNat) + d) = d := by
  rw [SideConfig.delay, Nat.mul_comm, Nat.mul_add_mod, Nat.mod_eq_of_lt hd]

/-- The bits of the field above the delay. -/
theorem field_div {k : ℕ} (hd : d < 2 ^ k) : (y * 2 ^ k + d) / 2 ^ k = y := by
  rw [Nat.mul_comm, Nat.mul_add_div (by positivity), Nat.div_eq_of_lt hd, Nat.add_zero]

/-- The side-set bits and the delay fill the five bits. -/
theorem field_lt {c : ℕ} (hc : c ≤ 5) (hy : y < 2 ^ c) (hd : d < 2 ^ (5 - c)) :
    y * 2 ^ (5 - c) + d < 32 := by
  calc y * 2 ^ (5 - c) + d < y * 2 ^ (5 - c) + 2 ^ (5 - c) := Nat.add_lt_add_left hd _
    _ = (y + 1) * 2 ^ (5 - c) := (Nat.succ_mul _ _).symm
    _ ≤ 2 ^ c * 2 ^ (5 - c) := Nat.mul_le_mul_right _ hy
    _ = 32 := by rw [← Nat.pow_add, Nat.add_sub_cancel' hc]

theorem SideConfig.side_required (hen : cfg.en = false) (hd : d < 2 ^ (5 - cfg.count.toNat)) :
    cfg.side (y * 2 ^ (5 - cfg.count.toNat) + d) = some y := by
  rw [SideConfig.side, hen, field_div hd]
  rfl

theorem SideConfig.side_enabled (hen : cfg.en = true) (hd : d < 2 ^ (5 - cfg.count.toNat))
    (hy : y < 2 ^ (cfg.count.toNat - 1)) :
    cfg.side ((2 ^ (cfg.count.toNat - 1) + y) * 2 ^ (5 - cfg.count.toNat) + d) = some y := by
  have hdiv : (2 ^ (cfg.count.toNat - 1) + y) / 2 ^ (cfg.count.toNat - 1) = 1 := by
    rw [Nat.add_div_left _ (by positivity), Nat.div_eq_of_lt hy]
  rw [SideConfig.side, hen, field_div hd]
  simp [hdiv, Nat.mod_eq_of_lt hy]

theorem SideConfig.side_absent (hen : cfg.en = true) (hd : d < 2 ^ (5 - cfg.count.toNat)) :
    cfg.side d = none := by
  rw [SideConfig.side, hen, Nat.div_eq_of_lt hd]
  simp

end Read

/-! ### The word of an instruction -/

section Word

variable [ShiftModel]

/-- Bits 12:8 hold the field. -/
theorem delayBits_eq (c : ℤ) (o : Bool) (d sd : ℤ) :
    Asm.delayBits c o d sd = BitVec.ofNat 16 (Asm.delayField c o d sd % 32).toNat <<< 8 := by
  rw [Asm.delayBits, ← Asm.operand_eq]
  rfl

omit [ShiftModel] in
/-- Outside bits 12:8 a field has no bits. -/
theorem getLsbD_field {f : ℕ} (hf : f < 32) {i : ℕ} (hi : i < 8 ∨ 13 ≤ i) :
    (BitVec.ofNat 16 f <<< 8).getLsbD i = false := by
  have hlt : (BitVec.ofNat 16 f).toNat < 2 ^ 5 := by
    rw [BitVec.toNat_ofNat]
    omega
  rw [BitVec.getLsbD_shiftLeft]
  rcases hi with hi | hi
  · simp [hi]
  · rw [BitVec.getLsbD_eq_false_of_lt hlt (by omega), Bool.and_false]

omit [ShiftModel] in
/-- The word of a method leaves bits 12:8 free. -/
theorem extractLsb'_fullWord (i : Instr) : i.fullWord.extractLsb' 8 5 = 0#5 := by
  have hop : ∀ (b : BitVec 16) (v : ℤ), b.extractLsb' 8 5 = 0#5 →
      (b ||| Asm.operand v).extractLsb' 8 5 = 0#5 := by
    intro b v hb
    have hv : ∀ k : Fin 32, (BitVec.ofNat 16 k).extractLsb' 8 5 = 0#5 := by decide
    have hk := hv ⟨(v % 32).toNat, by omega⟩
    rw [BitVec.extractLsb'_or, hb, Asm.operand_eq, hk]
    rfl
  cases i with
  | waitGpio p g =>
    have hland : Int.land p 1 = p % 2 := Int.land_two_pow_sub_one p 1
    refine hop _ g ?_
    rw [hland]
    rcases Int.emod_two_eq_zero_or_one p with hp | hp <;> rw [hp] <;> decide
  | pushBlock => decide
  | pullBlock => decide
  | pullNoblock => decide
  | movPinsX => decide
  | movXPins => decide
  | movXNotNull => decide
  | nop => decide
  | setPins v => exact hop _ v rfl
  | setPindirs v => exact hop _ v rfl
  | setX v => exact hop _ v rfl
  | setY v => exact hop _ v rfl
  | inX c => exact hop _ c rfl
  | outPins c => exact hop _ c rfl
  | outX c => exact hop _ c rfl
  | _ => exact hop _ _ (by simp [Instr.word])

omit [ShiftModel] in
/-- A word decodes to its method and its field. -/
theorem decodeWord_fullWord (cfg : SideConfig) (i : Instr) {f : ℕ} (hf : f < 32) :
    decodeWord cfg (i.fullWord ||| BitVec.ofNat 16 f <<< 8)
      = some ⟨i.cut, cfg.delay f, cfg.side f, cfg.pindir⟩ := by
  have hinstr : decode (i.fullWord ||| BitVec.ofNat 16 f <<< 8) = decode i.fullWord := by
    refine decode_congr fun k hk => ?_
    rw [BitVec.getLsbD_or, getLsbD_field hf hk, Bool.or_false]
  have hfield : (i.fullWord ||| BitVec.ofNat 16 f <<< 8).extractLsb' 8 5 = BitVec.ofNat 5 f := by
    have hall : ∀ k : Fin 32, (BitVec.ofNat 16 k <<< 8).extractLsb' 8 5 = BitVec.ofNat 5 k := by
      decide
    rw [BitVec.extractLsb'_or, extractLsb'_fullWord, hall ⟨f, hf⟩, BitVec.zero_or]
  have hnat : (BitVec.ofNat 5 f).toNat = f := by
    rw [BitVec.toNat_ofNat]
    omega
  rw [decodeWord, hinstr, hfield, hnat, i.decode_fullWord]
  rfl

end Word

/-! ### The configuration `load` leaves in the registers -/

/-- EXECCTRL as `load` writes it says how the side-set is encoded. -/
theorem getLsbD_loadExecctrl (p : Asm) :
    (StateMachine.loadExecctrl p).getLsbD 30 = p.sideOpt ∧
      (StateMachine.loadExecctrl p).getLsbD 29 = p.sidePindirs := by
  rw [StateMachine.loadExecctrl]
  cases p.sideOpt <;> cases p.sidePindirs <;> simp

/-- PINCTRL as `load` writes it back holds the number of side-set bits. -/
theorem extractLsb'_loadPinctrl (p : Asm) (cur : Word) :
    (StateMachine.loadPinctrl p cur).extractLsb' 29 3
      = (BitVec.ofInt 32 (Asm.sBits p.sideCount p.sideOpt)).setWidth 3 := by
  refine BitVec.eq_of_getLsbD_eq fun i hi => ?_
  have hmask : ∀ i < 3, (7#32 <<< 29).getLsbD (29 + i) = true := by decide
  rw [StateMachine.loadPinctrl, BitVec.getLsbD_extractLsb', BitVec.getLsbD_or, BitVec.getLsbD_and,
    BitVec.getLsbD_not, hmask i hi, BitVec.getLsbD_shiftLeft, BitVec.getLsbD_setWidth]
  have h32 : 29 + i < 32 := by omega
  simp [hi, h32]

theorem read_putProgram (m : StateMachine) (p : Asm) (s : Regs) :
    SideConfig.read (m.putProgram p s (m.block.reg (.pinctrl m.sm)))
        (m.putProgram p s (m.block.reg (.execctrl m.sm)))
      = ⟨(BitVec.ofInt 32 (Asm.sBits p.sideCount p.sideOpt)).setWidth 3, p.sideOpt,
          p.sidePindirs⟩ := by
  have hkept : (0x7FFFFFFF : Word).getLsbD 30 = true ∧ (0x7FFFFFFF : Word).getLsbD 29 = true := by
    decide
  have hpin : m.putProgram p s (m.block.reg (.pinctrl m.sm))
      = StateMachine.loadPinctrl p (m.putCode p s (m.block.reg (.pinctrl m.sm))) := by
    rw [StateMachine.putProgram, m.put_self, m.put_of_ne (by simp), Register.kept,
      BitVec.and_allOnes]
  have hexec : m.putProgram p s (m.block.reg (.execctrl m.sm))
      = StateMachine.loadExecctrl p &&& 0x7FFFFFFF := by
    rw [StateMachine.putProgram, m.put_of_ne (by simp), m.put_self, Register.kept]
  obtain ⟨h30, h29⟩ := getLsbD_loadExecctrl p
  rw [hpin, hexec, SideConfig.read, extractLsb'_loadPinctrl, BitVec.getLsbD_and,
    BitVec.getLsbD_and, hkept.1, hkept.2, h30, h29, Bool.and_true, Bool.and_true]

/-! ### The round trip -/

/-- An emit method with its operands, its delay and its side value. -/
structure EmitCall where
  method : Instr
  delay : ℤ
  side : ℤ

namespace EmitCall

/-- The operands fit under `side_set(n, optional)`: the side value is absent or has `n` bits,
and the delay fits into the bits left over. -/
structure InRange (n : ℕ) (optional : Bool) (c : EmitCall) : Prop where
  method : c.method.InRange
  delay : 0 ≤ c.delay ∧ c.delay < 2 ^ (5 - n - optional.toNat)
  side : c.side < 0 ∨ 0 < n ∧ 0 ≤ c.side ∧ c.side < 2 ^ n

/-- The side value that is driven: none when it is absent and optional, 0 when it is absent
and required. -/
def driven (optional : Bool) (c : EmitCall) : Option ℕ :=
  if c.side < 0 then if optional then none else some 0 else some c.side.toNat

/-- What the word of the call should decode to. -/
def decoded (optional pindirs : Bool) (c : EmitCall) : Decoded :=
  ⟨c.method, c.delay.toNat, c.driven optional, pindirs⟩

end EmitCall

variable [ShiftModel]

/-- `side_set` on a fresh program, then the calls. -/
def assemble (n : ℕ) (optional pindirs : Bool) (calls : List EmitCall) : Option Asm :=
  calls.foldlM (fun a c => c.method.run c.delay c.side a) (Asm.init.sideSet n optional pindirs)

/-- The field of a call decodes to its delay and its side value. -/
theorem decode_delayField {n : ℕ} {optional : Bool} (hn : n + optional.toNat ≤ 5) {c : EmitCall}
    (hc : c.InRange n optional) {cfg : SideConfig} (hcount : cfg.count.toNat = n + optional.toNat)
    (hen : cfg.en = optional) :
    ∃ f < 32, Asm.delayField n optional c.delay c.side = (f : ℕ) ∧
      cfg.delay f = c.delay.toNat ∧ cfg.side f = c.driven optional := by
  obtain ⟨-, ⟨hd0, hd⟩, hside⟩ := hc
  obtain ⟨d, hdelay⟩ := Int.eq_ofNat_of_zero_le hd0
  have hd' : d < 2 ^ (5 - cfg.count.toNat) := by
    rw [hcount, ← Nat.sub_sub]
    rw [hdelay] at hd
    exact_mod_cast hd
  have hcount5 : cfg.count.toNat ≤ 5 := by omega
  rcases hside with hneg | ⟨hpos, hsd0, hsd⟩
  · -- no side value: the field is the delay
    have hd32 : d < 32 := by simpa using field_lt (y := 0) hcount5 (by positivity) hd'
    refine ⟨d, hd32, (delayField_absent hn hd0 hd hneg).trans hdelay, ?_, ?_⟩
    · rw [hdelay]
      exact Nat.mod_eq_of_lt hd'
    · rw [EmitCall.driven, if_pos hneg]
      cases optional with
      | true => exact SideConfig.side_absent hen hd'
      | false => simpa using SideConfig.side_required (y := 0) hen hd'
  · obtain ⟨y, hy⟩ := Int.eq_ofNat_of_zero_le hsd0
    have hy' : y < 2 ^ n := by
      rw [hy] at hsd
      exact_mod_cast hsd
    have hdriven : c.driven optional = some y := by
      rw [EmitCall.driven, if_neg (by omega), hy]
      rfl
    rw [hdriven, hdelay]
    cases optional with
    | true =>
      have hn4 : n ≤ 4 := Nat.le_of_succ_le_succ hn
      have hcount' : cfg.count.toNat = n + 1 := hcount
      have hk : 5 - cfg.count.toNat = 4 - n := by omega
      refine ⟨(2 ^ n + y) * 2 ^ (5 - cfg.count.toNat) + d, field_lt hcount5 ?_ hd', ?_,
        SideConfig.delay_eq hd', ?_⟩
      · rw [hcount', Nat.pow_succ]
        omega
      · rw [delayField_optional hn4 hpos d.cast_nonneg (by rw [← hk]; exact_mod_cast hd') hsd0 hsd,
          hy, hk]
        push_cast
        rfl
      · have h := SideConfig.side_enabled (y := y) hen hd' (by rwa [hcount'])
        rwa [hcount'] at h ⊢
    | false =>
      have hn5 : n ≤ 5 := hn
      have hcount' : cfg.count.toNat = n := hcount
      refine ⟨y * 2 ^ (5 - cfg.count.toNat) + d, field_lt hcount5 (by rwa [hcount']) hd', ?_,
        SideConfig.delay_eq hd', SideConfig.side_required hen hd'⟩
      rw [delayField_required hn5 hpos d.cast_nonneg (by rw [← hcount']; exact_mod_cast hd') hsd0 hsd,
        hy, hcount']
      push_cast
      rfl

omit [ShiftModel] in
/-- The operand of a jump in range is an address. -/
theorem Instr.InRange.target {i : Instr} (h : i.InRange) : ∀ t ∈ i.target?, 0 ≤ t := by
  cases i <;> simp [Instr.target?] <;> exact h.1

/-- The word of an instruction whose jump target is an address. -/
theorem Listing.item_code (l : Listing) {i : Instr} (h : ∀ t ∈ i.target?, 0 ≤ t) (d sd : ℤ) :
    (l.item i d sd).code = i.fullWord ||| Asm.delayBits l.sideCount l.sideOpt d sd := by
  rcases ht : i.target? with _ | t
  · simp only [Item.code, Listing.item, ht, Instr.fullWord]
  · have h0 : 0 ≤ t := h t ht
    have hop : Asm.operand t = BitVec.ofNat 16 (t.toNat % 32) := by
      rw [← Asm.operand_natCast, Int.toNat_of_nonneg h0]
    have hres : l.resolve t = some t.toNat := by rw [Listing.resolve, if_neg (by omega)]
    simp only [Item.code, Listing.item, ht, Instr.fullWord, Option.bind_some, hres,
      Option.getD_some]
    rw [← hop, Asm.or_or_delayBits]

/-- Calls of the emit methods append their items. -/
theorem foldlM_shows {calls : List EmitCall} (hcalls : ∀ c ∈ calls, c.method.InRange) :
    ∀ {a : Asm} {l : Listing}, a.Shows l → a.len + calls.length ≤ 32 →
      ∃ a', calls.foldlM (fun a c => c.method.run c.delay c.side a) a = some a' ∧
        a'.len = a.len + calls.length ∧ a'.sidePindirs = a.sidePindirs ∧
        a'.Shows { l with
          items := l.items ++ calls.map fun c => l.item c.method c.delay c.side } := by
  induction calls with
  | nil =>
    intro a l h _
    exact ⟨a, rfl, rfl, rfl, by simpa using h⟩
  | cons c cs ih =>
    intro a l h hlen
    obtain ⟨hc, hcs⟩ := List.forall_mem_cons.mp hcalls
    rw [List.length_cons] at hlen
    obtain ⟨a₁, ha₁, hlen₁, -, hpin₁, h₁⟩ := Asm.run_shows h (by omega)
      (fun t ht => by have := hc.target t ht; omega) c.delay c.side
    obtain ⟨a', ha', hlen', hpin', h'⟩ := ih hcs h₁ (by omega)
    refine ⟨a', ?_, by rw [hlen', hlen₁, List.length_cons]; omega, hpin'.trans hpin₁, ?_⟩
    · rw [List.foldlM_cons, ha₁]
      exact ha'
    · rw [List.map_cons, ← List.singleton_append, ← List.append_assoc]
      exact h'

/-- Calls in range are assembled to their words. -/
theorem assemble_word {n : ℕ} {optional pindirs : Bool} (hn : n + optional.toNat ≤ 5)
    {calls : List EmitCall} (hlen : calls.length ≤ 32) (hcalls : ∀ c ∈ calls, c.method.InRange) :
    ∃ a, assemble n optional pindirs calls = some a ∧ a.len = calls.length ∧
      (a.sideCount = n ∧ a.sideOpt = optional ∧ a.sidePindirs = pindirs) ∧
      ∀ (k : ℕ) (c : EmitCall), calls[k]? = some c →
        a.code[k]? = some (c.method.fullWord ||| Asm.delayBits n optional c.delay c.side) := by
  have hcount : Int.land n 0x7 = n := by
    rw [show (0x7 : ℤ) = 2 ^ 3 - 1 by norm_num, Int.land_two_pow_sub_one]
    omega
  have h₀ : (Asm.init.sideSet n optional pindirs).Shows ⟨[], fun _ => none, n, optional⟩ := by
    have h := Asm.init_shows
    exact ⟨h.len, h.code, h.fixup, h.fixup_end, h.addr, h.pending, ⟨hcount, rfl⟩, h.low, h.waits⟩
  obtain ⟨a, ha, hlen', hpin, h⟩ := foldlM_shows hcalls h₀ ((Nat.zero_add _).trans_le hlen)
  refine ⟨a, ha, hlen'.trans (Nat.zero_add _), ⟨h.side.1, h.side.2, hpin⟩, fun k c hk => ?_⟩
  have hcode := h.code k _ (by rw [List.nil_append, List.getElem?_map, hk]; rfl)
  have hc : c ∈ calls := List.mem_of_getElem? hk
  rwa [Listing.item_code _ (hcalls c hc).target] at hcode

/-- **Decode undoes encode.** Assemble calls in range under `side_set(n, optional, pindirs)` and
load the program: the load ends, in one state only, and there each word in the instruction memory,
decoded by the configuration that the load left in PINCTRL and EXECCTRL, is the call. -/
theorem decode_load {n : ℕ} {optional pindirs : Bool} (hn : n + optional.toNat ≤ 5)
    {calls : List EmitCall} (hlen : calls.length ≤ 32) (hcalls : ∀ c ∈ calls, c.InRange n optional)
    (m : StateMachine) :
    ∃ a, assemble n optional pindirs calls = some a ∧
      ∀ s, ∃ s', (∀ s₁, Exec m.hw.access (m.load a) s () s₁ ↔ s₁ = s') ∧
        ∀ (k : Fin 32) (c : EmitCall), calls[k.val]? = some c →
          decodeWord
              (SideConfig.read (s' (m.block.reg (.pinctrl m.sm)))
                (s' (m.block.reg (.execctrl m.sm))))
              ((s' (m.block.reg (.instrMem k))).setWidth 16)
            = some (c.decoded optional pindirs) := by
  obtain ⟨a, ha, halen, ⟨hcount, hopt, hpin⟩, hword⟩ :=
    @assemble_word _ n optional pindirs hn calls hlen fun c hc => (hcalls c hc).method
  refine ⟨a, ha, fun s => ⟨(Method.load a).effect m s, fun s₁ => Method.exec_load m a,
    fun k c hk => ?_⟩⟩
  have hc := hcalls c (List.mem_of_getElem? hk)
  -- the word in the instruction memory is the assembler's
  have hklen : k < a.len := by
    rw [halen]
    exact (List.getElem?_eq_some_iff.mp hk).1
  have hmem : ((Method.load a).effect m s (m.block.reg (.instrMem k))).setWidth 16
      = c.method.fullWord ||| Asm.delayBits n optional c.delay c.side := by
    have hcode := hword k c hk
    rw [Vector.getElem?_eq_getElem k.isLt, Option.some.injEq] at hcode
    rw [holds_load m a s k hklen, ← hcode]
    exact BitVec.setWidth_setWidth_of_le _ (by decide)
  -- the configuration in the registers is the declared one
  set cfg : SideConfig := ⟨(BitVec.ofInt 32 (Asm.sBits n optional)).setWidth 3, optional, pindirs⟩
    with hcfg
  have hread : SideConfig.read ((Method.load a).effect m s (m.block.reg (.pinctrl m.sm)))
      ((Method.load a).effect m s (m.block.reg (.execctrl m.sm))) = cfg := by
    rw [Method.effect, read_putProgram, hcount, hopt, hpin]
  have hbits : cfg.count.toNat = n + optional.toNat := by
    have hcast : Asm.sBits n optional = ((n + optional.toNat : ℕ) : ℤ) := by
      cases optional <;> simp [Asm.sBits]
    rw [hcfg, hcast, BitVec.toNat_setWidth, BitVec.ofInt_natCast, BitVec.toNat_ofNat]
    omega
  obtain ⟨f, hf, hfield, hdelay, hside⟩ := decode_delayField hn hc hbits rfl
  have hfmod : ((f : ℤ) % 32).toNat = f := by omega
  rw [hmem, hread, delayBits_eq, hfield, hfmod, decodeWord_fullWord _ _ hf, hdelay, hside,
    Instr.cut_of_inRange hc.method]
  rfl

omit [ShiftModel] in
/-- An optional side-set bit: a jump that drives it, and a shift of all 32 bits that does not. -/
theorem decode_load_optional :
    letI : ShiftModel := ⟨fun _ _ => 0⟩
    let calls : List EmitCall := [⟨.jmpXDec 1, 2, 1⟩, ⟨.inX 32, 7, Asm.noSide⟩]
    let m : StateMachine := ⟨.pio0, 0⟩
    ∃ a, assemble 1 true false calls = some a ∧
      ∀ s, ∃ s', (∀ s₁, Exec m.hw.access (m.load a) s () s₁ ↔ s₁ = s') ∧
        ∀ (k : Fin 32) (c : EmitCall), calls[k.val]? = some c →
          decodeWord
              (SideConfig.read (s' (m.block.reg (.pinctrl m.sm)))
                (s' (m.block.reg (.execctrl m.sm))))
              ((s' (m.block.reg (.instrMem k))).setWidth 16)
            = some (c.decoded true false) := by
  let shift : ShiftModel := ⟨fun _ _ => 0⟩
  refine decode_load (by decide) (by decide) (fun c hc => ?_) ⟨.pio0, 0⟩
  rcases List.mem_pair.mp hc with rfl | rfl
  · exact ⟨by simp [Instr.InRange], by decide, .inr (by decide)⟩
  · exact ⟨by simp [Instr.InRange], by decide, .inl (by decide)⟩

end Pio
