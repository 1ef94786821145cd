import Mathlib.Data.BitVec
import Mathlib.Logic.Function.Iterate
import Mathlib.Data.List.GetD
import Mathlib.Tactic.Ring

/-!
# Cyclic redundancy checks, bit by bit

A register of `w` bits is fed a sequence of bits, most significant end first: the bit is added
to the top of the register, and the register shifts left and is reduced by the polynomial.
One step is linear and, for a polynomial with a constant term, injective. So nothing that is
fed afterwards hides a difference (`feedAll_injective`), and the register that at most `w` bits
take to zero is these bits themselves, written from the top (`feedAll_eq_zero_iff`). The two
together are burst detection: sequences that differ within a window of `w` bits have different
remainders (`window_eq_of_feedAll_eq`).
-/

namespace Crc

variable {w : ℕ}

/-- The top bit of a register. -/
def top (b : Bool) : BitVec w := if b then BitVec.twoPow w (w - 1) else 0#w

/-- One shift of the register, reduced by the polynomial. -/
def shift (poly x : BitVec w) : BitVec w :=
  if x.msb then (x <<< 1) ^^^ poly else x <<< 1

/-- The register is fed one bit. -/
def feed (poly x : BitVec w) (b : Bool) : BitVec w := shift poly (x ^^^ top b)

/-- The register is fed a sequence of bits. -/
def feedAll (poly x : BitVec w) (bits : List Bool) : BitVec w := bits.foldl (feed poly) x

/-- The bits of a sequence, written from the top of a register. -/
def spread : List Bool → BitVec w
  | [] => 0#w
  | b :: bits => top b ^^^ (spread bits >>> 1)

variable {poly : BitVec w}

@[simp] theorem feedAll_nil (x : BitVec w) : feedAll poly x [] = x := rfl

@[simp] theorem feedAll_cons (x : BitVec w) (b : Bool) (bits : List Bool) :
    feedAll poly x (b :: bits) = feedAll poly (feed poly x b) bits := rfl

theorem feedAll_append (x : BitVec w) (as bs : List Bool) :
    feedAll poly x (as ++ bs) = feedAll poly (feedAll poly x as) bs :=
  List.foldl_append

/-! ### One step is linear -/

theorem top_xor (a b : Bool) : (top (a ^^ b) : BitVec w) = top a ^^^ top b := by
  cases a <;> cases b <;> simp [top]

theorem shift_eq (x : BitVec w) :
    shift poly x = (x <<< 1) ^^^ (if x.msb then poly else 0#w) := by
  unfold shift
  split <;> simp

theorem shift_xor (x y : BitVec w) : shift poly (x ^^^ y) = shift poly x ^^^ shift poly y := by
  rw [shift_eq, shift_eq, shift_eq, BitVec.msb_xor, BitVec.shiftLeft_xor_distrib]
  -- the polynomial is added once for each register with its top bit set
  have hpoly : (if (x.msb ^^ y.msb) then poly else 0#w) =
      (if x.msb then poly else 0#w) ^^^ (if y.msb then poly else 0#w) := by
    cases x.msb <;> cases y.msb <;> simp
  rw [hpoly]
  ac_rfl

theorem feed_xor (x y : BitVec w) (a b : Bool) :
    feed poly (x ^^^ y) (a ^^ b) = feed poly x a ^^^ feed poly y b := by
  have hswap : x ^^^ y ^^^ (top a ^^^ top b) = (x ^^^ top a) ^^^ (y ^^^ top b) := by ac_rfl
  rw [feed, top_xor, hswap, shift_xor]
  rfl

/-- Feeding is linear in the register and in the bits. -/
theorem feedAll_xor (x y : BitVec w) {as bs : List Bool} (h : as.length = bs.length) :
    feedAll poly (x ^^^ y) (List.zipWith xor as bs) =
      feedAll poly x as ^^^ feedAll poly y bs := by
  induction as generalizing bs x y with
  | nil =>
    obtain rfl := List.length_eq_zero_iff.mp h.symm
    rfl
  | cons a as ih =>
    obtain ⟨b, bs, rfl⟩ := List.exists_cons_of_length_eq_add_one h.symm
    rw [List.zipWith_cons_cons, feedAll_cons, feed_xor, ih _ _ (Nat.succ.inj h)]
    rfl

/-! ### One step is injective -/

/-- A polynomial with a constant term shifts nothing but zero to zero. -/
theorem shift_eq_zero_iff (hpoly : poly.getLsbD 0 = true) {x : BitVec w} :
    shift poly x = 0#w ↔ x = 0#w := by
  constructor
  · intro h
    rw [shift_eq] at h
    have hw : 0 < w := by
      by_contra hw
      rw [BitVec.getLsbD_of_ge poly 0 (by omega)] at hpoly
      exact Bool.false_ne_true hpoly
    have hbit := fun i => congrArg (fun y => BitVec.getLsbD y i) h
    simp only [BitVec.getLsbD_xor, BitVec.getLsbD_zero] at hbit
    -- the constant term shows whether the polynomial was added
    have hmsb : x.msb = false := by
      by_contra hmsb
      have h0 := hbit 0
      rw [Bool.not_eq_false] at hmsb
      rw [hmsb] at h0
      simp [hpoly] at h0
    -- so that the shift alone gave zero
    have hshift : ∀ i, i + 1 < w → x.getLsbD i = false := by
      intro i hi
      have := hbit (i + 1)
      rw [hmsb] at this
      rwa [BitVec.getLsbD_shiftLeft, decide_eq_true hi, Nat.add_sub_cancel, if_neg Bool.false_ne_true,
        BitVec.getLsbD_zero, Bool.xor_false, decide_eq_false (Nat.not_lt.mpr (Nat.le_add_left 1 i)),
        Bool.not_false, Bool.and_self, Bool.true_and] at this
    apply BitVec.eq_of_getLsbD_eq
    intro i hi
    rw [BitVec.getLsbD_zero]
    rcases Nat.lt_or_eq_of_le (Nat.succ_le_of_lt hi) with hlt | heq
    · exact hshift i hlt
    · rw [BitVec.msb_eq_getLsbD_last] at hmsb
      rwa [show i = w - 1 by omega]
  · rintro rfl
    simp [shift]

theorem shift_injective (hpoly : poly.getLsbD 0 = true) : Function.Injective (shift poly) := by
  intro x y h
  have hzero : shift poly (x ^^^ y) = 0#w := by rw [shift_xor, h, BitVec.xor_self]
  exact BitVec.xor_eq_zero_iff.mp ((shift_eq_zero_iff hpoly).mp hzero)

theorem feed_injective (hpoly : poly.getLsbD 0 = true) (b : Bool) :
    Function.Injective fun x => feed poly x b := by
  intro x y h
  have hxor := shift_injective hpoly h
  exact (BitVec.xor_left_inj _).mp hxor

/-- What is fed afterwards hides no difference. -/
theorem feedAll_injective (hpoly : poly.getLsbD 0 = true) (bits : List Bool) :
    Function.Injective fun x => feedAll poly x bits := by
  induction bits with
  | nil => exact fun _ _ h => h
  | cons b bits ih => exact ih.comp (feed_injective hpoly b)

/-! ### Windows -/

/-- Bit `i` of a sequence stands `i` places below the top. -/
theorem getLsbD_spread (bits : List Bool) {i : ℕ} (hi : i < w) :
    (spread bits : BitVec w).getLsbD i = bits.getD (w - 1 - i) false := by
  induction bits generalizing i with
  | nil => simp [spread]
  | cons b bits ih =>
    rw [spread, BitVec.getLsbD_xor, BitVec.getLsbD_ushiftRight]
    rcases Nat.lt_or_ge (1 + i) w with hlt | hge
    · have htop : (top b : BitVec w).getLsbD i = false := by
        cases b
        · simp [top]
        · simp only [top, if_true, BitVec.getLsbD_twoPow]
          simp
          omega
      rw [ih hlt, htop, Bool.false_xor, show w - 1 - i = (w - 1 - (1 + i)) + 1 by omega]
      rfl
    · rw [BitVec.getLsbD_of_ge _ _ hge, Bool.xor_false, show i = w - 1 by omega, Nat.sub_self]
      cases b
      · simp [top]
      · simp [top, BitVec.getLsbD_twoPow]
        omega

/-- A shift undoes one place of a sequence that leaves the last bit free. -/
theorem shift_spread {bits : List Bool} (h : bits.length < w) :
    shift poly (spread bits >>> 1) = spread bits := by
  have hmsb : ((spread bits : BitVec w) >>> 1).msb = false := by
    rw [BitVec.msb_eq_getLsbD_last, BitVec.getLsbD_ushiftRight, BitVec.getLsbD_of_ge _ _ (by omega)]
  rw [shift, if_neg (by simp [hmsb])]
  apply BitVec.eq_of_getLsbD_eq
  intro i hi
  rcases Nat.eq_zero_or_pos i with rfl | hpos
  · -- the free bit
    rw [getLsbD_spread bits hi, List.getD_eq_default _ _ (by omega)]
    simp
  · simp [hi, hpos.ne', show 1 + (i - 1) = i by omega]

/-- At most `w` bits can be put into the register at once. -/
theorem feedAll_eq_iterate {bits : List Bool} (h : bits.length ≤ w) (x : BitVec w) :
    feedAll poly x bits = (shift poly)^[bits.length] (x ^^^ spread bits) := by
  induction bits generalizing x with
  | nil => simp [spread]
  | cons b bits ih =>
    rw [List.length_cons] at h
    rw [feedAll_cons, ih (by omega), feed, List.length_cons, Function.iterate_succ_apply, spread,
      ← BitVec.xor_assoc, shift_xor (x ^^^ top b), shift_spread (by omega)]

/-- At most `w` bits take exactly one register to zero: the bits themselves. -/
theorem feedAll_eq_zero_iff (hpoly : poly.getLsbD 0 = true) {bits : List Bool}
    (h : bits.length ≤ w) {x : BitVec w} : feedAll poly x bits = 0#w ↔ x = spread bits := by
  have hzero : (shift poly)^[bits.length] 0#w = 0#w :=
    Function.iterate_fixed ((shift_eq_zero_iff hpoly).mpr rfl) bits.length
  calc feedAll poly x bits = 0#w
      ↔ (shift poly)^[bits.length] (x ^^^ spread bits) = (shift poly)^[bits.length] 0#w := by
        rw [feedAll_eq_iterate h, hzero]
    _ ↔ x ^^^ spread bits = 0#w := ((shift_injective hpoly).iterate bits.length).eq_iff
    _ ↔ x = spread bits := BitVec.xor_eq_zero_iff

/-- At most `w` bits that spread to zero are all zero. -/
theorem eq_replicate_of_spread_eq_zero {bits : List Bool} (h : bits.length ≤ w)
    (hzero : (spread bits : BitVec w) = 0#w) : bits = List.replicate bits.length false := by
  refine List.ext_getElem (by simp) fun i hi _ => ?_
  have hbit := getLsbD_spread (w := w) bits (i := w - 1 - i) (by omega)
  rw [hzero, BitVec.getLsbD_zero, show w - 1 - (w - 1 - i) = i by omega,
    List.getD_eq_getElem _ _ hi] at hbit
  rw [← hbit, List.getElem_replicate]

theorem eq_of_zipWith_xor {as bs : List Bool} (h : as.length = bs.length)
    (hxor : List.zipWith xor as bs = List.replicate as.length false) : as = bs := by
  induction as generalizing bs with
  | nil => exact (List.length_eq_zero_iff.mp h.symm).symm
  | cons a as ih =>
    obtain ⟨b, bs, rfl⟩ := List.exists_cons_of_length_eq_add_one h.symm
    rw [List.zipWith_cons_cons, List.length_cons, List.replicate_succ, List.cons.injEq] at hxor
    rw [ih (Nat.succ.inj h) hxor.2, bne_eq_false_iff_eq.mp hxor.1]

/-- **Burst detection**: of sequences that differ in a window of at most `w` bits only, the
remainder tells the window. -/
theorem window_eq_of_feedAll_eq (hpoly : poly.getLsbD 0 = true) {x : BitVec w}
    {before after as bs : List Bool} (hlen : as.length = bs.length) (hw : as.length ≤ w)
    (h : feedAll poly x (before ++ as ++ after) = feedAll poly x (before ++ bs ++ after)) :
    as = bs := by
  rw [feedAll_append, feedAll_append _ (before ++ bs)] at h
  have hwindow := feedAll_injective hpoly after h
  rw [feedAll_append, feedAll_append] at hwindow
  -- the difference of the two runs starts at zero and ends there
  have hdiff := @feedAll_xor w poly (feedAll poly x before) (feedAll poly x before) as bs hlen
  rw [hwindow, BitVec.xor_self, BitVec.xor_self] at hdiff
  have hzip : (List.zipWith xor as bs).length = as.length := by
    rw [List.length_zipWith, hlen, Nat.min_self]
  have hspread := (feedAll_eq_zero_iff hpoly (hzip.le.trans hw)).mp hdiff
  have hzero := eq_replicate_of_spread_eq_zero (hzip.le.trans hw) hspread.symm
  rw [hzip] at hzero
  exact eq_of_zipWith_xor hlen hzero

/-- The same for two sequences whose differences all lie within `w` places. -/
theorem eq_of_feedAll_eq (hpoly : poly.getLsbD 0 = true) {x : BitVec w} {as bs : List Bool}
    (hlen : as.length = bs.length) {start : ℕ}
    (hdiff : ∀ i, as[i]? ≠ bs[i]? → start ≤ i ∧ i < start + w)
    (h : feedAll poly x as = feedAll poly x bs) : as = bs := by
  have hbefore : as.take start = bs.take start := by
    refine List.ext_getElem? fun i => ?_
    rw [List.getElem?_take, List.getElem?_take]
    split
    · next hi =>
      by_contra hne
      exact absurd (hdiff i hne).1 (Nat.not_le.mpr hi)
    · rfl
  have hafter : (as.drop start).drop w = (bs.drop start).drop w := by
    refine List.ext_getElem? fun i => ?_
    rw [List.drop_drop, List.drop_drop, List.getElem?_drop, List.getElem?_drop]
    by_contra hne
    have := (hdiff _ hne).2
    omega
  -- each sequence is cut at the window
  have hcut : ∀ cs : List Bool,
      cs = cs.take start ++ (cs.drop start).take w ++ (cs.drop start).drop w := fun cs => by
    rw [List.append_assoc, List.take_append_drop, List.take_append_drop]
  rw [hcut as, hcut bs, hbefore, hafter] at h
  have hwindow := window_eq_of_feedAll_eq hpoly (by simp [hlen]) (by simp) h
  rw [hcut as, hcut bs, hbefore, hafter, hwindow]

/-! ### Words fed most significant bit first -/

variable {v : ℕ}

/-- The bits of a word, most significant first. -/
def msbFirst (b : BitVec v) : List Bool := (List.range v).map b.getMsbD

@[simp] theorem length_msbFirst (b : BitVec v) : (msbFirst b).length = v := by
  rw [msbFirst, List.length_map, List.length_range]

theorem msbFirst_injective : Function.Injective (msbFirst (v := v)) := by
  intro a b h
  refine BitVec.eq_of_getMsbD_eq fun i hi => ?_
  exact List.map_inj_left.mp h i (List.mem_range.mpr hi)

/-- A word written from the top of a wider register. -/
theorem spread_msbFirst (h : v ≤ w) (b : BitVec v) :
    spread (msbFirst b) = b.setWidth w <<< (w - v) := by
  apply BitVec.eq_of_getLsbD_eq
  intro i hi
  rw [getLsbD_spread _ hi, BitVec.getLsbD_shiftLeft, decide_eq_true hi, Bool.true_and]
  rcases Nat.lt_or_ge i (w - v) with hlt | hge
  · -- below the word
    rw [List.getD_eq_default _ _ (by rw [length_msbFirst]; omega), decide_eq_true hlt]
    rfl
  · have hlen : w - 1 - i < (msbFirst b).length := by rw [length_msbFirst]; omega
    rw [List.getD_eq_getElem _ _ hlen, decide_eq_false (Nat.not_lt.mpr hge)]
    simp only [msbFirst, List.getElem_map, List.getElem_range, BitVec.getMsbD,
      BitVec.getLsbD_setWidth]
    rw [show v - 1 - (w - 1 - i) = i - (w - v) by omega, decide_eq_true (by omega),
      decide_eq_true (by omega)]
    rfl

/-- A word is fed by adding it at the top and shifting once for each of its bits. -/
theorem feedAll_msbFirst (h : v ≤ w) (x : BitVec w) (b : BitVec v) :
    feedAll poly x (msbFirst b) = (shift poly)^[v] (x ^^^ (b.setWidth w <<< (w - v))) := by
  rw [feedAll_eq_iterate (by rwa [length_msbFirst]), length_msbFirst, spread_msbFirst h]

/-- The bits of a sequence of words. -/
def bitsOf (d : List (BitVec v)) : List Bool := d.flatMap msbFirst

theorem feedAll_bitsOf (x : BitVec w) (d : List (BitVec v)) :
    feedAll poly x (bitsOf d) = d.foldl (fun x b => feedAll poly x (msbFirst b)) x := by
  induction d generalizing x with
  | nil => rfl
  | cons b d ih =>
    rw [bitsOf, List.flatMap_cons, feedAll_append]
    exact ih _

theorem length_bitsOf (d : List (BitVec v)) : (bitsOf d).length = v * d.length := by
  induction d with
  | nil => rfl
  | cons b d ih =>
    rw [bitsOf] at ih
    rw [bitsOf, List.flatMap_cons, List.length_append, ih, length_msbFirst, List.length_cons]
    ring

theorem bitsOf_injective {d d' : List (BitVec v)} (hlen : d.length = d'.length)
    (h : bitsOf d = bitsOf d') : d = d' := by
  induction d generalizing d' with
  | nil => exact (List.length_eq_zero_iff.mp hlen.symm).symm
  | cons b d ih =>
    obtain ⟨b', d', rfl⟩ := List.exists_cons_of_length_eq_add_one hlen.symm
    rw [bitsOf, bitsOf, List.flatMap_cons, List.flatMap_cons] at h
    obtain ⟨hb, hd⟩ := List.append_inj h (by rw [length_msbFirst, length_msbFirst])
    rw [msbFirst_injective hb, ih (Nat.succ.inj hlen) hd]

end Crc
