import Inmojomni.Gpio
import Inmojomni.Mmio.Interleaved
import Inmojomni.Pio.Registers

/-!
# Pad settings do not race

Every pad operation stores to the pad register of its pin through the SET and CLR aliases, with
masks inside one field of it: `PadOp.field?`. So two contexts that never touch the same field get
along in every interleaving, although the pulls and the drive strength take two stores each:
`pads_independent`.
-/

open Mmio Effect
open Mmio.Ram (stores)

/-- The fields of a pad register. -/
inductive PadField
  | pulls
  | drive
  | schmitt
  | slew
  | ie
  | od
  | iso
  deriving DecidableEq, Repr

def PadField.mask : PadField → Word
  | pulls => Pads.pue ||| Pads.pde
  | drive => Pads.driveMask
  | schmitt => Pads.schmitt
  | slew => Pads.slewfast
  | ie => Pads.ie
  | od => Pads.od
  | iso => 1#32 <<< 8

/-- A call that writes to the pad register. -/
inductive PadOp
  | pullUp
  | pullDown
  | pullNone
  | busKeep
  | setDrive (strength : Word)
  | schmitt (enable : Bool)
  | slewFast (enable : Bool)
  | inputEnable (enable : Bool)
  | outputDisable (disable : Bool)
  | makeOutput
  | makeInput
  deriving DecidableEq, Repr

namespace PadOp

/-- Make the call. -/
def run (p : Pin) : PadOp → Firmware Unit
  | pullUp => p.pullUp
  | pullDown => p.pullDown
  | pullNone => p.pullNone
  | busKeep => p.busKeep
  | setDrive strength => p.setDrive strength
  | schmitt enable => p.schmitt enable
  | slewFast enable => p.slewFast enable
  | inputEnable enable => p.inputEnable enable
  | outputDisable disable => p.outputDisable disable
  | makeOutput => p.makeOutput
  | makeInput => p.makeInput

/-- The field of the pad register that the call writes, if it writes one on this chip. -/
def field? (c : Chip) : PadOp → Option PadField
  | pullUp | pullDown | pullNone | busKeep => some .pulls
  | setDrive _ => some .drive
  | schmitt _ => some .schmitt
  | slewFast _ => some .slew
  | inputEnable _ | makeInput => some .ie
  | outputDisable _ => some .od
  | makeOutput => if c.hasPadIso then some .iso else none

/-- What the call sets its field to. -/
def value : PadOp → Word
  | pullUp => Pads.pue
  | pullDown => Pads.pde
  | pullNone => 0
  | busKeep => Pads.pue ||| Pads.pde
  | setDrive strength => (strength &&& 0x3) <<< 4
  | schmitt enable => if enable then Pads.schmitt else 0
  | slewFast enable => if enable then Pads.slewfast else 0
  | inputEnable enable => if enable then Pads.ie else 0
  | outputDisable disable => if disable then Pads.od else 0
  | makeOutput => 0
  | makeInput => Pads.ie

/-- The stores that the call makes. -/
def writes (p : Pin) : PadOp → List (Word × Word)
  | pullUp => [(p.pad + setAlias, Pads.pue), (p.pad + clrAlias, Pads.pde)]
  | pullDown => [(p.pad + setAlias, Pads.pde), (p.pad + clrAlias, Pads.pue)]
  | pullNone => [(p.pad + clrAlias, Pads.pue ||| Pads.pde)]
  | busKeep => [(p.pad + setAlias, Pads.pue ||| Pads.pde)]
  | setDrive strength => [(p.pad + clrAlias, Pads.driveMask),
      (p.pad + setAlias, (strength <<< Pads.driveLsb) &&& Pads.driveMask)]
  | schmitt enable => [(p.pad + if enable then setAlias else clrAlias, Pads.schmitt)]
  | slewFast enable => [(p.pad + if enable then setAlias else clrAlias, Pads.slewfast)]
  | inputEnable enable => [(p.pad + if enable then setAlias else clrAlias, Pads.ie)]
  | outputDisable disable => [(p.pad + if disable then setAlias else clrAlias, Pads.od)]
  | makeOutput => (p.chip.sioGpioOeSet, p.mask) ::
      if p.chip.hasPadIso then [(p.pad + clrAlias, 1#32 <<< 8)] else []
  | makeInput => [(p.chip.sioGpioOeClr, p.mask), (p.pad + setAlias, Pads.ie)]

/-- A call is its stores. -/
theorem run_eq (p : Pin) (o : PadOp) : o.run p = stores (o.writes p) := by
  cases o with
  | schmitt b | slewFast b | inputEnable b | outputDisable b => cases b <;> rfl
  | makeOutput =>
    rw [run, Pin.makeOutput, writes]
    split <;> rfl
  | _ => rfl

theorem forEach_run_eq (p : Pin) (ops : List PadOp) :
    Prog.forEach (run p) ops = stores (ops.flatMap (writes p)) := by
  induction ops with
  | nil => rfl
  | cons o os ih =>
    rw [Prog.forEach, ih, run_eq, List.flatMap_cons]
    exact (Prog.forEach_append _ _ _).symm

end PadOp

/-! ### The pad registers -/

namespace Pin

theorem n_lt (p : Pin) : p.n.val < 30 := by
  obtain ⟨c, n⟩ := p
  cases c <;> exact n.isLt

theorem toNat_pad (p : Pin) : p.pad.toNat = p.chip.padsBank0Base.toNat + 4 + 4 * p.n.val := by
  have hn := p.n_lt
  have hbase : p.chip.padsBank0Base.toNat < 0x40100000 := by cases p.chip <;> decide
  rw [pad, BitVec.toNat_add, BitVec.toNat_ofNat]
  omega

theorem pad_page (p : Pin) : p.pad.toNat / 0x4000 = p.chip.padsBank0Base.toNat / 0x4000 := by
  have hn := p.n_lt
  have hbase : p.chip.padsBank0Base.toNat % 0x4000 = 0 := by cases p.chip <;> decide
  rw [toNat_pad]
  omega

theorem plain_pad (p : Pin) : Plain p.pad := by
  have hn := p.n_lt
  have hbase : p.chip.padsBank0Base.toNat % 0x4000 = 0 := by cases p.chip <;> decide
  refine plain_of_toNat ?_
  rw [toNat_pad]
  omega

/-- A pad register is an ordinary register. -/
theorem kept_pad (p : Pin) : p.chip.hardware.kept p.pad = BitVec.allOnes 32 := by
  have hn := p.n_lt
  have hpad := p.toNat_pad
  have hlt : p.chip.padsBank0Base.toNat + 0x1000 ≤ p.chip.pio0Base.toNat := by
    cases p.chip <;> decide
  have hreset : p.chip.resetsResetDone.toNat < p.chip.padsBank0Base.toNat := by
    cases p.chip <;> decide
  have hlocate : Pio.Block.locate p.chip p.pad = none := if_neg (by omega)
  have hne : p.pad ≠ p.chip.resetsResetDone := by
    intro heq
    rw [heq] at hpad
    omega
  simp only [Chip.hardware, hlocate, if_neg hne]

/-- The registers elsewhere are not pad registers. -/
theorem register_ne_pad (p : Pin) {addr : Word}
    (h : addr.toNat / 0x4000 ≠ p.chip.padsBank0Base.toNat / 0x4000) : register addr ≠ p.pad := by
  intro heq
  have hpage := toNat_register_div addr
  rw [heq, p.pad_page] at hpage
  exact h hpage.symm

/-- Each pin has a pad register of its own. -/
theorem pad_ne {p q : Pin} (hchip : q.chip = p.chip) (hne : q ≠ p) : q.pad ≠ p.pad := by
  obtain ⟨c, n⟩ := p
  obtain ⟨c', n'⟩ := q
  obtain rfl : c' = c := hchip
  intro heq
  have hnat := congrArg BitVec.toNat heq
  rw [toNat_pad, toNat_pad] at hnat
  dsimp only at hnat
  exact hne (congrArg _ (Fin.ext (by omega)))

theorem sio_page (p : Pin) :
    p.chip.sioGpioOeSet.toNat / 0x4000 ≠ p.chip.padsBank0Base.toNat / 0x4000 ∧
      p.chip.sioGpioOeClr.toNat / 0x4000 ≠ p.chip.padsBank0Base.toNat / 0x4000 := by
  cases p.chip <;> decide

end Pin

/-! ### One operation -/

theorem PadField.disjoint {f g : PadField} (h : f ≠ g) : f.mask &&& g.mask = 0#32 := by
  cases f <;> cases g <;> first | exact absurd rfl h | decide

namespace PadOp

variable {p : Pin} {o : PadOp}

/-- The masks of the stores lie inside the fields. -/
theorem masks_subset :
    Pads.pue &&& PadField.pulls.mask = Pads.pue ∧ Pads.pde &&& PadField.pulls.mask = Pads.pde ∧
      ∀ f : PadField, f.mask &&& f.mask = f.mask :=
  ⟨by decide, by decide, fun _ => BitVec.and_self⟩

/-- A call stores through the aliases of the pad register, inside its field, or to SIO. -/
theorem writes_cases {w : Word × Word} (hw : w ∈ o.writes p) :
    (∃ f ∈ o.field? p.chip, w.2 &&& f.mask = w.2 ∧
        (w.1 = p.pad + setAlias ∨ w.1 = p.pad + clrAlias)) ∨
      w.1 = p.chip.sioGpioOeSet ∨ w.1 = p.chip.sioGpioOeClr := by
  obtain ⟨hpue, hpde, hself⟩ := masks_subset
  have halias : ∀ b : Bool, (p.pad + if b then setAlias else clrAlias) = p.pad + setAlias ∨
      (p.pad + if b then setAlias else clrAlias) = p.pad + clrAlias := fun b => by
    cases b <;> simp
  cases o with
  | pullUp =>
    rcases List.mem_pair.mp hw with rfl | rfl
    · exact .inl ⟨.pulls, rfl, hpue, .inl rfl⟩
    · exact .inl ⟨.pulls, rfl, hpde, .inr rfl⟩
  | pullDown =>
    rcases List.mem_pair.mp hw with rfl | rfl
    · exact .inl ⟨.pulls, rfl, hpde, .inl rfl⟩
    · exact .inl ⟨.pulls, rfl, hpue, .inr rfl⟩
  | pullNone =>
    obtain rfl := List.mem_singleton.mp hw
    exact .inl ⟨.pulls, rfl, hself .pulls, .inr rfl⟩
  | busKeep =>
    obtain rfl := List.mem_singleton.mp hw
    exact .inl ⟨.pulls, rfl, hself .pulls, .inl rfl⟩
  | setDrive strength =>
    rcases List.mem_pair.mp hw with rfl | rfl
    · exact .inl ⟨.drive, rfl, hself .drive, .inr rfl⟩
    · refine .inl ⟨.drive, rfl, ?_, .inl rfl⟩
      change _ &&& Pads.driveMask &&& Pads.driveMask = _
      rw [BitVec.and_assoc, BitVec.and_self]
  | schmitt b =>
    obtain rfl := List.mem_singleton.mp hw
    exact .inl ⟨.schmitt, rfl, hself .schmitt, halias b⟩
  | slewFast b =>
    obtain rfl := List.mem_singleton.mp hw
    exact .inl ⟨.slew, rfl, hself .slew, halias b⟩
  | inputEnable b =>
    obtain rfl := List.mem_singleton.mp hw
    exact .inl ⟨.ie, rfl, hself .ie, halias b⟩
  | outputDisable b =>
    obtain rfl := List.mem_singleton.mp hw
    exact .inl ⟨.od, rfl, hself .od, halias b⟩
  | makeOutput =>
    rcases List.mem_cons.mp hw with rfl | hw
    · exact .inr (.inl rfl)
    · split at hw
      case isTrue hiso =>
        obtain rfl := List.mem_singleton.mp hw
        exact .inl ⟨.iso, if_pos hiso, hself .iso, .inr rfl⟩
      case isFalse => exact absurd hw List.not_mem_nil
  | makeInput =>
    rcases List.mem_pair.mp hw with rfl | rfl
    · exact .inr (.inr rfl)
    · exact .inl ⟨.ie, rfl, hself .ie, .inl rfl⟩

/-- A call leaves the bits outside its field alone. -/
theorem writes_keepsBits {m : Word} (h : ∀ f ∈ o.field? p.chip, f.mask &&& m = 0#32) :
    ∀ w ∈ o.writes p, KeepsBits p.chip.hardware p.pad m w := by
  rintro ⟨addr, v⟩ hw
  obtain ⟨hset, hclr⟩ := p.sio_page
  rcases writes_cases hw with ⟨f, hf, hv, haddr⟩ | haddr | haddr
  · have hapart : v &&& m = 0#32 := by
      dsimp only at hv
      rw [← hv, BitVec.and_assoc, h f hf, BitVec.and_zero]
    have hkept : p.chip.hardware.kept p.pad &&& m = m := by rw [p.kept_pad, BitVec.allOnes_and]
    rcases haddr with rfl | rfl
    · exact keepsBits_set p.plain_pad hkept hapart
    · exact keepsBits_clr p.plain_pad hkept hapart
  · obtain rfl : addr = _ := haddr
    exact keepsBits_of_ne (p.register_ne_pad hset)
  · obtain rfl : addr = _ := haddr
    exact keepsBits_of_ne (p.register_ne_pad hclr)

/-- A call leaves the pad registers of the other pins alone. -/
theorem writes_keepsBits_other {q : Pin} (hchip : q.chip = p.chip) (hne : q ≠ p) (m : Word) :
    ∀ w ∈ o.writes p, KeepsBits p.chip.hardware q.pad m w := by
  rintro ⟨addr, v⟩ hw
  obtain ⟨hset, hclr⟩ := q.sio_page
  rw [hchip] at hset hclr
  have hother : ∀ l : Word, l &&& ~~~0x3000 = 0 → register (p.pad + l) ≠ q.pad := fun l hl => by
    rw [p.plain_pad.register_add hl]
    exact (Pin.pad_ne hchip hne).symm
  refine keepsBits_of_ne ?_
  rcases writes_cases hw with ⟨-, -, -, haddr⟩ | haddr | haddr
  · rcases haddr with rfl | rfl
    · exact hother _ (by decide)
    · exact hother _ (by decide)
  · obtain rfl : addr = _ := haddr
    exact q.register_ne_pad (by rwa [hchip])
  · obtain rfl : addr = _ := haddr
    exact q.register_ne_pad (by rwa [hchip])

end PadOp

/-! ### What an operation leaves in its field -/

namespace PadOp

variable {p : Pin} {o : PadOp} {s : Regs} {v w : Word}

/-- The pad register after one store through an alias. -/
theorem write_alias (p : Pin) (s : Regs) (v : Word) :
    s.write p.chip.hardware (p.pad + setAlias) v p.pad = s p.pad ||| v ∧
      s.write p.chip.hardware (p.pad + clrAlias) v p.pad = s p.pad &&& ~~~v := by
  rw [Regs.write_set p.plain_pad, Regs.write_clr p.plain_pad, p.kept_pad, Function.update_self,
    Function.update_self, BitVec.and_allOnes, BitVec.and_allOnes]
  exact ⟨rfl, rfl⟩

/-- Set some bits and clear others: both are as they should be. -/
theorem set_clr (h : v &&& w = 0#32) (x : Word) : ((x ||| v) &&& ~~~w) &&& (v ||| w) = v := by
  refine BitVec.eq_of_getLsbD_eq fun i hi => ?_
  have hbit : (v.getLsbD i && w.getLsbD i) = false := by
    rw [← BitVec.getLsbD_and, h, BitVec.getLsbD_zero]
  simp only [BitVec.getLsbD_and, BitVec.getLsbD_or, BitVec.getLsbD_not]
  revert hbit
  cases x.getLsbD i <;> cases v.getLsbD i <;> cases w.getLsbD i <;> simp [hi]

/-- A set or a clear of a whole field, by a flag. -/
theorem write_flag (p : Pin) (s : Regs) (b : Bool) (v : Word) :
    s.write p.chip.hardware (p.pad + if b then setAlias else clrAlias) v p.pad &&& v
      = if b then v else 0 := by
  obtain ⟨hset, hclr⟩ := write_alias p s v
  cases b with
  | true => exact (congrArg (· &&& v) hset).trans (BitVec.or_and_self _ _)
  | false => exact (congrArg (· &&& v) hclr).trans (BitVec.and_not_and_self _ _)

/-- **An operation leaves its value in its field.** -/
theorem writeAll_value {f : PadField} (hf : f ∈ o.field? p.chip) (s : Regs) :
    s.writeAll p.chip.hardware (o.writes p) p.pad &&& f.mask = o.value := by
  have hset := fun s v => (write_alias p s v).1
  have hclr := fun s v => (write_alias p s v).2
  cases o with
  | pullUp =>
    obtain rfl := Option.some.inj hf
    simp only [writes, Regs.writeAll, List.foldl_cons, List.foldl_nil, hset, hclr]
    exact set_clr (by decide) _
  | pullDown =>
    obtain rfl := Option.some.inj hf
    simp only [writes, Regs.writeAll, List.foldl_cons, List.foldl_nil, hset, hclr, PadField.mask]
    rw [BitVec.or_comm Pads.pue]
    exact set_clr (by decide) _
  | pullNone =>
    obtain rfl := Option.some.inj hf
    exact (congrArg (· &&& _) (hclr _ _)).trans (BitVec.and_not_and_self _ _)
  | busKeep =>
    obtain rfl := Option.some.inj hf
    exact (congrArg (· &&& _) (hset _ _)).trans (BitVec.or_and_self _ _)
  | setDrive strength =>
    obtain rfl := Option.some.inj hf
    -- the strength is cut to the two bits of the field
    have hvalue : (strength <<< Pads.driveLsb) &&& Pads.driveMask = (strength &&& 0x3) <<< 4 :=
      (BitVec.shiftLeft_and_distrib (x := strength) (y := 0x3) (n := 4)).symm
    have hinside : (strength <<< Pads.driveLsb) &&& Pads.driveMask &&& ~~~Pads.driveMask = 0#32 := by
      rw [BitVec.and_assoc, BitVec.and_not_self]
      exact BitVec.and_zero
    simp only [writes, Regs.writeAll, List.foldl_cons, List.foldl_nil, hset, hclr]
    rw [value, ← hvalue]
    exact insertField_own hinside _
  | schmitt b | slewFast b | inputEnable b | outputDisable b =>
    obtain rfl := Option.some.inj hf
    exact write_flag p s b _
  | makeOutput =>
    obtain ⟨hiso, rfl⟩ : p.chip.hasPadIso = true ∧ PadField.iso = f := by
      cases hiso : p.chip.hasPadIso <;> simp_all [field?]
    rw [writes, if_pos hiso]
    exact (congrArg (· &&& _) (hclr _ _)).trans (BitVec.and_not_and_self _ _)
  | makeInput =>
    obtain rfl := Option.some.inj hf
    exact (congrArg (· &&& _) (hset _ _)).trans (BitVec.or_and_self _ _)

end PadOp

/-! ### Two contexts -/

/-- The last operation of a context on a field. -/
def PadOp.lastOn (c : Chip) (f : PadField) (os : List PadOp) : Option PadOp :=
  (os.filter fun o => o.field? c = some f).getLast?

namespace Pin

section Contexts

variable {p : Pin} {ops : Bool → List PadOp} {s₀ : Regs} {c : Config Bool Op.Answer Unit Regs}

/-- One context alone: its last operation on a field decides. -/
theorem writeAll_lastOn (p : Pin) {f : PadField} {os : List PadOp} {o : PadOp}
    (h : PadOp.lastOn p.chip f os = some o) (s : Regs) :
    s.writeAll p.chip.hardware (os.flatMap (PadOp.writes p)) p.pad &&& f.mask = o.value := by
  induction os using List.reverseRecOn with
  | nil => cases h
  | append_singleton os o' ih =>
    rw [List.flatMap_append, writeAll_append, List.flatMap_singleton]
    rw [PadOp.lastOn, List.filter_append] at h
    by_cases hf : o'.field? p.chip = some f
    · -- it is the operation itself
      have hself : [o'].filter (fun o => o.field? p.chip = some f) = [o'] := by simp [hf]
      rw [hself, List.getLast?_concat] at h
      obtain rfl := Option.some.inj h
      exact PadOp.writeAll_value hf _
    · -- an operation on another field
      have hnone : [o'].filter (fun o => o.field? p.chip = some f) = [] := by simp [hf]
      rw [hnone, List.append_nil] at h
      rw [writeAll_keepsBits (PadOp.writes_keepsBits fun g hg => PadField.disjoint ?_), ih h]
      rintro rfl
      exact hf hg

/-- **Pad settings are independent.** Two contexts issue pad operations on a pin, and never touch
the same field. When both have finished, whatever the interleaving of their stores, each field is
as the last operation on it left it, the bits that no operation touched are as they were, and so
are the pad registers of the other pins. -/
theorem pads_independent
    (hown : ∀ o ∈ ops false, ∀ o' ∈ ops true, ∀ f ∈ o.field? p.chip, f ∉ o'.field? p.chip)
    (hc : (busMachine p.chip.hardware).Reach
      ⟨s₀, fun t => Prog.forEach (PadOp.run p) (ops t)⟩ c)
    (hdone : ∀ t, c.threads t = .ret ()) :
    (∀ t f o, PadOp.lastOn p.chip f (ops t) = some o → c.shared p.pad &&& f.mask = o.value) ∧
    (∀ m, (∀ t, ∀ o ∈ ops t, ∀ f ∈ o.field? p.chip, f.mask &&& m = 0#32) →
      c.shared p.pad &&& m = s₀ p.pad &&& m) ∧
    ∀ q : Pin, q.chip = p.chip → q ≠ p → c.shared q.pad = s₀ q.pad := by
  simp only [PadOp.forEach_run_eq] at hc
  refine ⟨fun t f o ho => ?_, fun m hm => ?_, fun q hchip hne => ?_⟩
  · -- the other context keeps to other fields
    have hmem : o ∈ ops t ∧ o.field? p.chip = some f := by
      simpa using List.mem_of_getLast? ho
    have hother : ∀ o' ∈ ops (!t), f ∉ o'.field? p.chip := by
      intro o' ho' hf'
      cases t with
      | false => exact hown o hmem.1 o' ho' f hmem.2 hf'
      | true => exact hown o' ho' o hmem.1 f hf' hmem.2
    rw [interleaved_bits hc hdone t, writeAll_lastOn p ho]
    intro w hw
    obtain ⟨o', ho', hw⟩ := List.mem_flatMap.mp hw
    refine PadOp.writes_keepsBits (fun g hg => PadField.disjoint ?_) w hw
    rintro rfl
    exact hother o' ho' hg
  · have hkeep : ∀ t, ∀ w ∈ (ops t).flatMap (PadOp.writes p),
        KeepsBits p.chip.hardware p.pad m w := by
      intro t w hw
      obtain ⟨o, ho, hw⟩ := List.mem_flatMap.mp hw
      exact PadOp.writes_keepsBits (hm t o ho) w hw
    rw [interleaved_bits hc hdone false (hkeep true), writeAll_keepsBits (hkeep false)]
  · have hkeep : ∀ t, ∀ w ∈ (ops t).flatMap (PadOp.writes p),
        KeepsBits p.chip.hardware q.pad (BitVec.allOnes 32) w := by
      intro t w hw
      obtain ⟨o, -, hw⟩ := List.mem_flatMap.mp hw
      exact PadOp.writes_keepsBits_other hchip hne _ w hw
    have hbits := interleaved_bits hc hdone false (hkeep true)
    rw [writeAll_keepsBits (hkeep false)] at hbits
    simpa only [BitVec.and_allOnes] using hbits

/-- The pulls are set up while the drive strength is between its two stores. -/
theorem pads_independent_pullsAndDrive :
    let p : Pin := ⟨.rp2040, ⟨11, by decide⟩⟩
    let ops : Bool → List PadOp := fun t => if t then [.setDrive 3] else [.pullUp, .pullDown]
    ∃ c : Config Bool Op.Answer Unit Regs,
      (busMachine p.chip.hardware).Reach
        ⟨fun _ => 0x56, fun t => Prog.forEach (PadOp.run p) (ops t)⟩ c ∧
      (∀ t, c.threads t = .ret ()) ∧
      (∀ t f o, PadOp.lastOn p.chip f (ops t) = some o → c.shared p.pad &&& f.mask = o.value) ∧
      (∀ m, (∀ t, ∀ o ∈ ops t, ∀ f ∈ o.field? p.chip, f.mask &&& m = 0#32) →
        c.shared p.pad &&& m = (0x56 : Word) &&& m) ∧
      ∀ q : Pin, q.chip = p.chip → q ≠ p → c.shared q.pad = 0x56 := by
  intro p ops
  obtain ⟨ls, hrun⟩ := exists_run p.chip.hardware
    (c := ⟨fun _ => 0x56, fun t => Prog.forEach (PadOp.run p) (ops t)⟩)
    [false, true, false, false, true, false] rfl
  have hown : ∀ o ∈ ops false, ∀ o' ∈ ops true, ∀ f ∈ o.field? p.chip, f ∉ o'.field? p.chip := by
    decide
  exact ⟨_, ⟨ls, hrun⟩, fun t => by cases t <;> rfl,
    pads_independent hown ⟨ls, hrun⟩ fun t => by cases t <;> rfl⟩

end Contexts

end Pin
