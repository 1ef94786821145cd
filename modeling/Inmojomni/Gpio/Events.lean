import Inmojomni.Effect.Atomic
import Inmojomni.Effect.History
import Inmojomni.Gpio
import Inmojomni.Mmio.Bus

/-!
# GPIO events

Eight pins share a register of the IO bank, with four event bits each: two for the level, which
follow the pin, and two for the edges, which are latched until they are acknowledged. INTE says
which of them interrupt processor 0, and INTS shows those.

The calls of a `Pin` are meant for that pin alone. `Pins` is this view: each pin has a state of its
own, and a call is one step on it. `events_perPin` is that nothing else is going on in the
registers, whatever calls of whatever threads interleave with the edges on the pins: an
acknowledgement writes ones only for its own pin, and INTE is written through the atomic aliases.

The layout is the one of the RP2040.
-/

namespace Events

open Mmio Effect

/-! ### The calls -/

/-- A pin number. -/
abbrev Gp := Fin (Chip.numGpios .rp2040)

def pin (n : Gp) : Pin := ⟨.rp2040, n⟩

inductive PinOp
  | events (n : Gp)
  | ackEvents (n : Gp) (mask : Word)
  | irqEnable (n : Gp) (mask : Word)
  | irqDisable (n : Gp) (mask : Word)
  | irqStatus (n : Gp)

abbrev PinOp.Answer : PinOp → Type
  | .events _ | .irqStatus _ => Word
  | .ackEvents _ _ | .irqEnable _ _ | .irqDisable _ _ => Unit

def PinOp.code : (e : PinOp) → Firmware e.Answer
  | .events n => (pin n).events
  | .ackEvents n mask => (pin n).ackEvents mask
  | .irqEnable n mask => (pin n).irqEnable mask
  | .irqDisable n mask => (pin n).irqDisable mask
  | .irqStatus n => (pin n).irqStatus

/-! ### The registers -/

/-- The register that pin `n` is in, and where in it. -/
def bank (n : Gp) : Fin 4 :=
  ⟨n / 8, by
    have hn : n.val < 30 := n.isLt
    omega⟩

def shift (n : Gp) : ℕ := 4 * (n % 8)

def intr (k : Fin 4) : Word := Chip.ioBank0Base .rp2040 + 0xF0 + BitVec.ofNat 32 (4 * k)

def inte (k : Fin 4) : Word := Chip.ioBank0Base .rp2040 + 0x100 + BitVec.ofNat 32 (4 * k)

def ints (k : Fin 4) : Word := Chip.ioBank0Base .rp2040 + 0x120 + BitVec.ofNat 32 (4 * k)

/-- The bits of pin `n`. -/
def nibble (n : Gp) (w : Word) : BitVec 4 := w.extractLsb' (shift n) 4

/-- Bits in the place of pin `n`. -/
def place (n : Gp) (x : BitVec 4) : Word := x.setWidth 32 <<< shift n

/-- The edge bits of all pins. -/
def latches : Word := 0xCCCCCCCC#32

/-- Both level bits of a pin. -/
def levels : BitVec 4 := 0x3

/-- `EDGE_HIGH` and `LEVEL_HIGH`, or `EDGE_LOW` and `LEVEL_LOW`. -/
def edgeTo (high : Bool) : BitVec 4 := if high then 0xA else 0x5

/-- The raw events and the interrupt enables. INTF is zero: nothing forces an event. -/
structure IoBank where
  raw : Fin 4 → Word
  inte : Fin 4 → Word

namespace IoBank

variable (s : IoBank)

/-- A store of ones to INTR clears latches, and INTE is a register like others. -/
def write (addr v : Word) : IoBank :=
  match (List.finRange 4).find? (fun k => Events.intr k = addr),
    (List.finRange 4).find? (fun k => Events.inte k = register addr) with
  | some k, _ => { s with raw := Function.update s.raw k (s.raw k &&& ~~~(v &&& latches)) }
  | none, some k => { s with inte := Function.update s.inte k (combine addr (s.inte k) v) }
  | none, none => s

def access : (e : Op) → IoBank → e.Answer → IoBank → Prop
  | .read32 addr, s, (r : Word), s' =>
    s' = s ∧ (∀ k, addr = intr k → r = s.raw k) ∧ ∀ k, addr = ints k → r = s.raw k &&& s.inte k
  | .write32 addr v, s, _, s' => s' = s.write addr v
  | _, s, _, s' => s' = s

def high (n : Gp) : Bool := (nibble n (s.raw (bank n))).getLsbD 1

/-- Pin `n` goes high or low. -/
def edge (n : Gp) (high : Bool) : IoBank :=
  { s with raw := Function.update s.raw (bank n)
             (s.raw (bank n) &&& ~~~place n levels ||| place n (edgeTo high)) }

end IoBank

/-- Threads are cores and their handlers, and pins change at any time. -/
def ioBank (T : Type) : Machine T Op.Answer IoBank where
  access _ := IoBank.access
  env s s' := ∃ n b, s.high n ≠ b ∧ s' = s.edge n b

/-! ### Pins on their own -/

/-- The events of a pin, and those that interrupt. -/
structure PinState where
  raw : BitVec 4
  enabled : BitVec 4

namespace PinState

variable (p : PinState)

def ack (mask : BitVec 4) : PinState := { p with raw := p.raw &&& ~~~(mask &&& 0xC) }

def enable (mask : BitVec 4) : PinState := { p with enabled := p.enabled ||| mask }

def disable (mask : BitVec 4) : PinState := { p with enabled := p.enabled &&& ~~~mask }

def high : Bool := p.raw.getLsbD 1

def edge (high : Bool) : PinState := { p with raw := p.raw &&& ~~~levels ||| edgeTo high }

end PinState

abbrev Pins := Gp → PinState

/-- A call is a step on its pin. -/
def Pins.access : (e : PinOp) → Pins → e.Answer → Pins → Prop
  | .events n, x, (r : Word), x' => x' = x ∧ r = (x n).raw.setWidth 32
  | .ackEvents n mask, x, _, x' => x' = Function.update x n ((x n).ack (mask.setWidth 4))
  | .irqEnable n mask, x, _, x' => x' = Function.update x n ((x n).enable (mask.setWidth 4))
  | .irqDisable n mask, x, _, x' => x' = Function.update x n ((x n).disable (mask.setWidth 4))
  | .irqStatus n, x, (r : Word), x' => x' = x ∧ r = ((x n).raw &&& (x n).enabled).setWidth 32

def pins (T : Type) : Machine T PinOp.Answer Pins where
  access _ := Pins.access
  env x x' := ∃ n b, (x n).high ≠ b ∧ x' = Function.update x n ((x n).edge b)

/-- The registers, pin by pin. -/
def IoBank.pins (s : IoBank) : Pins :=
  fun n => ⟨nibble n (s.raw (bank n)), nibble n (s.inte (bank n))⟩

/-! ### Nibbles -/

section Nibbles

variable {n q : Gp} {v w : Word}

theorem shift_lt (n : Gp) : shift n + 4 ≤ 32 := by
  rw [shift]
  omega

/-- Two pins in one register are apart. -/
theorem shift_apart (hne : q ≠ n) (hb : bank q = bank n) :
    shift q + 4 ≤ shift n ∨ shift n + 4 ≤ shift q := by
  have hbank : q.val / 8 = n.val / 8 := congrArg Fin.val hb
  have hval : q.val ≠ n.val := fun h => hne (Fin.ext h)
  rw [shift, shift]
  omega

theorem nibble_and : nibble n (v &&& w) = nibble n v &&& nibble n w := BitVec.extractLsb'_and

theorem nibble_or : nibble n (v ||| w) = nibble n v ||| nibble n w := BitVec.extractLsb'_or

theorem nibble_and_not : nibble n (v &&& ~~~w) = nibble n v &&& ~~~nibble n w := by
  have hlt := shift_lt n
  refine BitVec.eq_of_getLsbD_eq fun i hi => ?_
  have hi' : shift n + i < 32 := by omega
  simp [nibble, hi, hi']

theorem nibble_place (n : Gp) (x : BitVec 4) : nibble n (place n x) = x := by
  have hlt := shift_lt n
  refine BitVec.eq_of_getLsbD_eq fun i hi => ?_
  have hi' : shift n + i < 32 := by omega
  simp [nibble, place, hi, hi']

theorem nibble_place_of_ne (hne : q ≠ n) (hb : bank q = bank n) (x : BitVec 4) :
    nibble q (place n x) = 0 := by
  refine BitVec.eq_of_getLsbD_eq fun i hi => ?_
  rcases shift_apart hne hb with hlt | hlt
  · have hlow : shift q + i < shift n := by omega
    simp [nibble, place, hlow]
  · have hhigh : 4 ≤ shift q + i - shift n := by omega
    simp [nibble, place, BitVec.getLsbD_of_ge x _ hhigh]

/-- What a call makes of its mask. -/
theorem shiftLeft_eventAll (mask : Word) :
    (mask &&& Pin.eventAll) <<< (pin n).eventShift = place n (mask.setWidth 4) := by
  have hmask : mask &&& Pin.eventAll = (mask.setWidth 4).setWidth 32 := by
    rw [Pin.eventAll]
    refine BitVec.eq_of_getLsbD_eq fun i hi => ?_
    have hbits : ∀ j < 32, (0xF : Word).getLsbD j = decide (j < 4) := by decide
    rw [BitVec.getLsbD_and, hbits i hi, BitVec.getLsbD_setWidth, BitVec.getLsbD_setWidth,
      decide_eq_true hi, Bool.true_and, Bool.and_comm]
  rw [hmask]
  rfl

/-- And of what it reads. -/
theorem shiftRight_eventAll (r : Word) :
    (r >>> (pin n).eventShift) &&& Pin.eventAll = (nibble n r).setWidth 32 := by
  rw [Pin.eventAll]
  refine BitVec.eq_of_getLsbD_eq fun i hi => ?_
  have hbits : ∀ j < 32, (0xF : Word).getLsbD j = decide (j < 4) := by decide
  rw [BitVec.getLsbD_and, hbits i hi, BitVec.getLsbD_ushiftRight, BitVec.getLsbD_setWidth, nibble,
    BitVec.getLsbD_extractLsb', decide_eq_true hi, Bool.true_and, Bool.and_comm]
  rfl

theorem nibble_latches (n : Gp) : nibble n latches = 0xC := by
  revert n
  decide

end Nibbles

/-! ### One pin at a time -/

section Fields

/-- No bits are cleared, as by a store for another pin. -/
theorem and_not_zero (x : BitVec 4) : x &&& ~~~(0 : BitVec 4) = x := by
  revert x
  decide

variable {s : IoBank} {n : Gp} {w : Word} {x : BitVec 4}

/-- A register that changes in the place of one pin. -/
theorem nibble_update (f : Fin 4 → Word) (hn : nibble n w = x)
    (hq : ∀ q, q ≠ n → bank q = bank n → nibble q w = nibble q (f (bank n))) (q : Gp) :
    nibble q (Function.update f (bank n) w (bank q))
      = if q = n then x else nibble q (f (bank q)) := by
  by_cases hqn : q = n
  · subst hqn
    rw [if_pos rfl, Function.update_self, hn]
  · rw [if_neg hqn]
    by_cases hb : bank q = bank n
    · rw [hb, Function.update_self, hq q hqn hb]
    · rw [Function.update_of_ne hb]

theorem pins_raw (hn : nibble n w = x)
    (hq : ∀ q, q ≠ n → bank q = bank n → nibble q w = nibble q (s.raw (bank n))) :
    IoBank.pins { s with raw := Function.update s.raw (bank n) w }
      = Function.update s.pins n { s.pins n with raw := x } := by
  funext q
  rw [IoBank.pins, nibble_update s.raw hn hq]
  by_cases hqn : q = n
  · subst hqn
    rw [if_pos rfl, Function.update_self]
    rfl
  · rw [if_neg hqn, Function.update_of_ne hqn]
    rfl

theorem pins_inte (hn : nibble n w = x)
    (hq : ∀ q, q ≠ n → bank q = bank n → nibble q w = nibble q (s.inte (bank n))) :
    IoBank.pins { s with inte := Function.update s.inte (bank n) w }
      = Function.update s.pins n { s.pins n with enabled := x } := by
  funext q
  rw [IoBank.pins, nibble_update s.inte hn hq]
  by_cases hqn : q = n
  · subst hqn
    rw [if_pos rfl, Function.update_self]
    rfl
  · rw [if_neg hqn, Function.update_of_ne hqn]
    rfl

/-- An edge on a pin is an edge on that pin. -/
theorem pins_edge (s : IoBank) (n : Gp) (b : Bool) :
    (s.edge n b).pins = Function.update s.pins n ((s.pins n).edge b) := by
  refine pins_raw ?_ fun q hqn hb => ?_
  · rw [nibble_or, nibble_and_not, nibble_place, nibble_place]
    rfl
  · rw [nibble_or, nibble_and_not, nibble_place_of_ne hqn hb, nibble_place_of_ne hqn hb,
      and_not_zero]
    exact BitVec.or_zero

end Fields

/-! ### Accesses -/

section Accesses

variable {s : IoBank} {n : Gp} {v : Word}

theorem plain_inte (k : Fin 4) : Plain (inte k) := by
  revert k
  decide

theorem find_intr (k : Fin 4) : (List.finRange 4).find? (fun j => intr j = intr k) = some k := by
  revert k
  decide

theorem find_inte (k : Fin 4) : (List.finRange 4).find? (fun j => inte j = inte k) = some k := by
  revert k
  decide

/-- INTE is no INTR, through an alias or not. -/
theorem find_alias (k : Fin 4) :
    (List.finRange 4).find? (fun j => intr j = inte k + setAlias) = none ∧
      (List.finRange 4).find? (fun j => intr j = inte k + clrAlias) = none := by
  revert k
  decide

theorem write_intr (k : Fin 4) : s.write (intr k) v
    = { s with raw := Function.update s.raw k (s.raw k &&& ~~~(v &&& latches)) } := by
  rw [IoBank.write, find_intr]

theorem write_set (k : Fin 4) : s.write (inte k + setAlias) v
    = { s with inte := Function.update s.inte k (s.inte k ||| v) } := by
  have hreg := (plain_inte k).register_add (l := setAlias) (by decide)
  rw [IoBank.write, hreg, (find_alias k).1, find_inte]
  dsimp only
  rw [(plain_inte k).combine_set]

theorem write_clr (k : Fin 4) : s.write (inte k + clrAlias) v
    = { s with inte := Function.update s.inte k (s.inte k &&& ~~~v) } := by
  have hreg := (plain_inte k).register_add (l := clrAlias) (by decide)
  rw [IoBank.write, hreg, (find_alias k).2, find_inte]
  dsimp only
  rw [(plain_inte k).combine_clr]

/-- The ones stored are for one pin, so that the latches of the others stay. -/
theorem pins_ack (s : IoBank) (n : Gp) (m : BitVec 4) :
    (s.write (intr (bank n)) (place n m)).pins = Function.update s.pins n ((s.pins n).ack m) := by
  rw [write_intr]
  refine pins_raw ?_ fun q hqn hb => ?_
  · rw [nibble_and_not, nibble_and, nibble_place, nibble_latches]
    rfl
  · rw [nibble_and_not, nibble_and, nibble_place_of_ne hqn hb]
    exact (congrArg (_ &&& ~~~·) BitVec.zero_and).trans (and_not_zero _)

theorem pins_enable (s : IoBank) (n : Gp) (m : BitVec 4) :
    (s.write (inte (bank n) + setAlias) (place n m)).pins
      = Function.update s.pins n ((s.pins n).enable m) := by
  rw [write_set]
  refine pins_inte ?_ fun q hqn hb => ?_
  · rw [nibble_or, nibble_place]
    rfl
  · rw [nibble_or, nibble_place_of_ne hqn hb]
    exact BitVec.or_zero

theorem pins_disable (s : IoBank) (n : Gp) (m : BitVec 4) :
    (s.write (inte (bank n) + clrAlias) (place n m)).pins
      = Function.update s.pins n ((s.pins n).disable m) := by
  rw [write_clr]
  refine pins_inte ?_ fun q hqn hb => ?_
  · rw [nibble_and_not, nibble_place]
    rfl
  · rw [nibble_and_not, nibble_place_of_ne hqn hb, and_not_zero]

end Accesses

/-! ### Calls are steps -/

section Calls

variable (T : Type)

/-- Nobody has to keep to anything. -/
def protocol : Protocol (ioBank T) where
  rely _ _ _ := True
  guar _ _ _ _ _ := True
  guar_rely _ _ _ := trivial
  env_rely _ := trivial

/-- A call takes effect with its only access. -/
def commit : (e' : PinOp) → (e : Op) → e.Answer → Option e'.Answer
  | .events n, .read32 _, (r : Word) | .irqStatus n, .read32 _, (r : Word) =>
    some ((r >>> (pin n).eventShift) &&& Pin.eventAll)
  | .ackEvents _ _, .write32 _ _, _ | .irqEnable _ _, .write32 _ _, _
  | .irqDisable _ _, .write32 _ _, _ => some ()
  | _, _, _ => none

def linearization : Linearization (ioBank T) (pins T) where
  abs := IoBank.pins
  protocol := protocol T
  inv _ _ := True
  commit := fun e' e r _ => commit e' e r
  inv_stable := fun _ _ _ _ => trivial
  env_abs := by
    rintro s s' ⟨n, b, hne, rfl⟩
    exact .inr ⟨n, b, hne, pins_edge s n b⟩

variable {T} {t : T}

/-- A call with one access. -/
theorem atomic_op {e' : PinOp} {e : Op} {f : e.Answer → e'.Answer}
    (hcommit : ∀ r, commit e' e r = some (f r))
    (h : ∀ s r s', IoBank.access e s r s' → Pins.access e' s.pins (f r) s'.pins) :
    Triple ((linearization T).duty t e') () (fun s => True ∧ s.2 = none)
      (.op e fun r => .ret (f r)) ((linearization T).Done t e') := by
  have hstable : ∀ g, Stable ((linearization T).duty t e') () fun s => True ∧ s.2 = g :=
    fun g => (linearization T).stable_duty e' g fun _ _ _ _ => trivial
  refine Triple.op (K := fun r s => True ∧ s.2 = some (f r)) (hstable none) ?_ fun r => ?_
  · rintro s r s' ⟨-, hnone⟩ ⟨ha, hs'⟩
    have hc : (linearization T).commit e' e r s.1 = some (f r) := hcommit r
    rw [hc, Option.some_or] at hs'
    refine ⟨⟨trivial, ?_⟩, trivial, hs'⟩
    rw [hc]
    exact ⟨hnone, h s.1 r s'.1 ha⟩
  · exact .ret (hstable _) fun s hs => ⟨trivial, .inl hs.2⟩

/-- A call that is a store. -/
theorem atomic_write {e' : PinOp} {addr v : Word} {f : Unit → e'.Answer}
    (hcommit : ∀ r, commit e' (.write32 addr v) r = some (f r))
    (h : ∀ s : IoBank, Pins.access e' s.pins (f ()) (s.write addr v).pins) :
    Triple ((linearization T).duty t e') () (fun s => True ∧ s.2 = none)
      (.op (Op.write32 addr v) fun r => .ret (f r)) ((linearization T).Done t e') := by
  refine atomic_op hcommit ?_
  rintro s r s' rfl
  exact h s

theorem atomic : (linearization T).Atomic PinOp.code := by
  intro t e'
  cases e' with
  | events n =>
    refine atomic_op (fun _ => rfl) ?_
    rintro s (r : Word) s' ⟨rfl, hr, -⟩
    refine ⟨rfl, ?_⟩
    rw [shiftRight_eventAll, hr (bank n) rfl]
    rfl
  | irqStatus n =>
    refine atomic_op (fun _ => rfl) ?_
    rintro s (r : Word) s' ⟨rfl, -, hr⟩
    refine ⟨rfl, ?_⟩
    rw [shiftRight_eventAll, hr (bank n) rfl, nibble_and]
    rfl
  | ackEvents n mask =>
    refine atomic_write (fun _ => rfl) fun s => ?_
    rw [shiftLeft_eventAll]
    exact pins_ack s n (mask.setWidth 4)
  | irqEnable n mask =>
    refine atomic_write (fun _ => rfl) fun s => ?_
    rw [shiftLeft_eventAll]
    exact pins_enable s n (mask.setWidth 4)
  | irqDisable n mask =>
    refine atomic_write (fun _ => rfl) fun s => ?_
    rw [shiftLeft_eventAll]
    exact pins_disable s n (mask.setWidth 4)

theorem PinOp.code_ne_ret (e : PinOp) (a : e.Answer) : e.code ≠ .ret a := by
  cases e <;> exact fun h => by cases h

end Calls

/-! ### What the calls on record have done -/

section Record

variable {T : Type}

/-- What a call does to the enabled events of pin `n`. -/
def PinOp.enabling (n : Gp) (x : BitVec 4) : PinOp → BitVec 4
  | .irqEnable q mask => if q = n then x ||| mask.setWidth 4 else x
  | .irqDisable q mask => if q = n then x &&& ~~~mask.setWidth 4 else x
  | .events _ | .irqStatus _ | .ackEvents _ _ => x

/-- The events of pin `n` that a call acknowledges. -/
def PinOp.acked (n : Gp) : PinOp → BitVec 4
  | .ackEvents q mask => if q = n then mask.setWidth 4 else 0
  | .events _ | .irqStatus _ | .irqEnable _ _ | .irqDisable _ _ => 0

/-- The enabled events of pin `n` after the calls on record, which has the newest first. -/
def enabledAfter (n : Gp) (x : BitVec 4) (tr : List (Event T PinOp.Answer)) : BitVec 4 :=
  tr.foldr (fun ev y => ev.op.enabling n y) x

/-- The calls on record acknowledge none of the events `m` of pin `n`. -/
def Unacknowledged (n : Gp) (m : BitVec 4) (tr : List (Event T PinOp.Answer)) : Prop :=
  ∀ ev ∈ tr, ev.op.acked n &&& m = 0

/-- Since `x₀`: the enables are those of the calls, and a latched edge that none of them has
acknowledged is still there. -/
def Kept (x₀ : Pins) (s : Pins × List (Event T PinOp.Answer)) : Prop :=
  ∀ n, (s.1 n).enabled = enabledAfter n (x₀ n).enabled s.2 ∧
    ∀ m, m &&& 0xC = m → Unacknowledged n m s.2 → (x₀ n).raw &&& m = m → (s.1 n).raw &&& m = m

/-- What a call does, seen from any pin. -/
theorem access_pin {e : PinOp} {x x' : Pins} {r : e.Answer} (h : Pins.access e x r x') (q : Gp) :
    (x' q).enabled = e.enabling q (x q).enabled ∧
      (x' q).raw = (x q).raw &&& ~~~(e.acked q &&& 0xC) := by
  have hkeep : (x q).raw = (x q).raw &&& ~~~((0 : BitVec 4) &&& 0xC) :=
    ((congrArg ((x q).raw &&& ~~~·) BitVec.zero_and).trans (and_not_zero _)).symm
  cases e with
  | events n | irqStatus n =>
    obtain ⟨rfl, -⟩ := h
    exact ⟨rfl, hkeep⟩
  | ackEvents n mask =>
    obtain rfl := h
    rcases eq_or_ne q n with rfl | hne
    · rw [Function.update_self, PinOp.acked, if_pos rfl]
      exact ⟨rfl, rfl⟩
    · rw [Function.update_of_ne hne, PinOp.acked, if_neg hne.symm]
      exact ⟨rfl, hkeep⟩
  | irqEnable n mask =>
    obtain rfl := h
    rcases eq_or_ne q n with rfl | hne
    · rw [Function.update_self, PinOp.enabling, if_pos rfl]
      exact ⟨rfl, hkeep⟩
    · rw [Function.update_of_ne hne, PinOp.enabling, if_neg hne.symm]
      exact ⟨rfl, hkeep⟩
  | irqDisable n mask =>
    obtain rfl := h
    rcases eq_or_ne q n with rfl | hne
    · rw [Function.update_self, PinOp.enabling, if_pos rfl]
      exact ⟨rfl, hkeep⟩
    · rw [Function.update_of_ne hne, PinOp.enabling, if_neg hne.symm]
      exact ⟨rfl, hkeep⟩

/-- Acknowledging other events leaves these. -/
theorem latched_ack {x a m : BitVec 4} (ha : a &&& m = 0) (hx : x &&& m = m) :
    x &&& ~~~(a &&& 0xC) &&& m = m := by
  have hclear : (a &&& 0xC) &&& m = 0 := by
    rw [BitVec.and_assoc, BitVec.and_comm 0xC m, ← BitVec.and_assoc, ha]
    exact BitVec.zero_and
  refine BitVec.eq_of_getLsbD_eq fun i hi => ?_
  have hxi := congrArg (·.getLsbD i) hx
  have hci := congrArg (·.getLsbD i) hclear
  simp only [BitVec.getLsbD_and] at hxi hci
  rw [BitVec.getLsbD_and, BitVec.getLsbD_and, BitVec.getLsbD_not, decide_eq_true hi, Bool.true_and,
    BitVec.getLsbD_and]
  cases hm : m.getLsbD i with
  | false => exact Bool.and_false _
  | true =>
    rw [hm] at hxi hci
    rw [Bool.and_true] at hxi hci ⊢
    have hzero : (0 : BitVec 4).getLsbD i = false := BitVec.getLsbD_zero
    rw [hxi, hci, hzero]
    rfl

/-- An edge only sets latches. -/
theorem latched_edge {x m : BitVec 4} (b : Bool) (hm : m &&& 0xC = m) (hx : x &&& m = m) :
    (x &&& ~~~levels ||| edgeTo b) &&& m = m := by
  revert x m b
  decide

theorem Kept.access {x₀ : Pins} {s s' : Pins × List (Event T PinOp.Answer)} {t : T} {e : PinOp}
    {r : e.Answer} (h : Kept x₀ s) (ha : (pins T).recorded.access t e s r s') : Kept x₀ s' := by
  obtain ⟨x, tr⟩ := s
  obtain ⟨x', tr'⟩ := s'
  obtain ⟨hcall, htr⟩ := ha
  dsimp only at htr
  subst htr
  intro n
  obtain ⟨hen, hraw⟩ := access_pin hcall n
  obtain ⟨hen₀, hlatched⟩ := h n
  dsimp only at hen₀ hlatched ⊢
  refine ⟨?_, fun m hm hacks hx => ?_⟩
  · rw [hen, hen₀]
    rfl
  · obtain ⟨hack, hacks⟩ := List.forall_mem_cons.mp hacks
    rw [hraw]
    exact latched_ack hack (hlatched m hm hacks hx)

theorem Kept.env {x₀ : Pins} {s s' : Pins × List (Event T PinOp.Answer)} (h : Kept x₀ s)
    (he : (pins T).recorded.env s s') : Kept x₀ s' := by
  obtain ⟨x, tr⟩ := s
  obtain ⟨x', tr'⟩ := s'
  obtain ⟨⟨n, b, -, hx'⟩, htr⟩ := he
  dsimp only at htr hx'
  subst htr hx'
  intro q
  obtain ⟨hen, hlatched⟩ := h q
  dsimp only at hen hlatched ⊢
  rcases eq_or_ne q n with rfl | hne
  · rw [Function.update_self]
    exact ⟨hen, fun m hm hacks hx => latched_edge b hm (hlatched m hm hacks hx)⟩
  · rw [Function.update_of_ne hne]
    exact ⟨hen, hlatched⟩

variable [DecidableEq T] {α : Type}

theorem Kept.of_reach {x₀ : Pins} {ts : T → Prog PinOp.Answer α}
    {c : Config T PinOp.Answer α (Pins × List (Event T PinOp.Answer))}
    (hc : (pins T).recorded.Reach ⟨(x₀, []), ts⟩ c) : Kept x₀ c.shared := by
  refine hc.induction (P := fun c => Kept x₀ c.shared) (fun n => ?_) fun c l c' _ ih hs => ?_
  · exact ⟨rfl, fun m _ _ hx => hx⟩
  · cases hs with
    | access ht ha => exact ih.access ha
    | unfold ht => exact ih
    | env he => exact ih.env he

/-- **Events pin by pin.** Whatever calls on whatever pins the threads make, and however these and
the edges on the pins interleave, the registers hold what pins of their own hold on which each call
is one step, and a thread that has ended has the result it has there. From any moment of the run to
any later one, the events of a pin that interrupt change only by the calls for that pin, and an edge
once latched is there until it is acknowledged for that pin. -/
theorem events_perPin {clients : T → Prog PinOp.Answer α} {s₀ : IoBank}
    {c₁ c : Config T Op.Answer α IoBank}
    (hc₁ : (ioBank T).Reach ⟨s₀, fun t => (clients t).implement PinOp.code⟩ c₁)
    (hc : (ioBank T).Reach c₁ c) :
    ∃ ts₁ ts tr, (pins T).Reach ⟨s₀.pins, clients⟩ ⟨c₁.shared.pins, ts₁⟩ ∧
      (pins T).recorded.Reach ⟨(c₁.shared.pins, []), ts₁⟩ ⟨(c.shared.pins, tr), ts⟩ ∧
      (∀ t a, c.threads t = .ret a → ts t = .ret a) ∧
      ∀ n, (c.shared.pins n).enabled = enabledAfter n (c₁.shared.pins n).enabled tr ∧
        ∀ m, m &&& 0xC = m → Unacknowledged n m tr → (c₁.shared.pins n).raw &&& m = m →
          (c.shared.pins n).raw &&& m = m := by
  obtain ⟨ts₁, hreach₁, hfollows₁⟩ := Linearization.simulates (atomic (T := T)) PinOp.code_ne_ret
    (fun _ => trivial) hc₁
  obtain ⟨ts, hreach, hfollows⟩ := Linearization.continues atomic PinOp.code_ne_ret hfollows₁ hc
  obtain ⟨tr, hrec⟩ := hreach.recorded
  refine ⟨ts₁, ts, tr, hreach₁, hrec, fun t a ht => ?_, Kept.of_reach hrec⟩
  have hf := hfollows t
  rw [ht] at hf
  exact hf.result PinOp.code_ne_ret

end Record

/-! ### A run -/

/-- What the registers answer. -/
def IoBank.answer : (e : Op) → IoBank → Option (e.Answer × IoBank)
  | .read32 addr, s =>
    some ((match (List.finRange 4).find? (fun k => intr k = addr),
        (List.finRange 4).find? (fun k => ints k = addr) with
      | some k, _ => s.raw k
      | none, some k => s.raw k &&& s.inte k
      | none, none => 0#32 : Word), s)
  | .write32 addr v, s => some ((), s.write addr v)
  | _, _ => none

theorem find_ints (k : Fin 4) : (List.finRange 4).find? (fun j => intr j = ints k) = none ∧
    (List.finRange 4).find? (fun j => ints j = ints k) = some k := by
  revert k
  decide

theorem access_of_answer {e : Op} {s : IoBank} {p : e.Answer × IoBank}
    (h : IoBank.answer e s = some p) : IoBank.access e s p.1 p.2 := by
  cases e with
  | read32 addr =>
    cases h
    refine ⟨rfl, ?_, ?_⟩
    · rintro k rfl
      rw [find_intr]
    · rintro k rfl
      rw [(find_ints k).1, (find_ints k).2]
  | write32 addr v => cases h; rfl
  | read8 | write8 | external => cases h

/-- Pin `i.1` goes to level `i.2`, if it is not there. -/
def IoBank.move (i : Gp × Bool) (s : IoBank) : Option IoBank :=
  if s.high i.1 ≠ i.2 then some (s.edge i.1 i.2) else none

theorem env_of_move {T : Type} {i : Gp × Bool} {s s' : IoBank} (h : s.move i = some s') :
    (ioBank T).env s s' := by
  rw [IoBank.move] at h
  split_ifs at h with hne
  cases h
  exact ⟨i.1, i.2, hne, rfl⟩

theorem reach_of_play {α : Type} {c c' : Config Bool Op.Answer α IoBank}
    (cs : List (Machine.Choice Bool (Gp × Bool)))
    (h : Machine.play (fun _ => IoBank.answer) IoBank.move c cs = some c') :
    (ioBank Bool).Reach c c' := by
  have hacc : ∀ (t : Bool) (e : Op) (s : IoBank) (p : e.Answer × IoBank),
      IoBank.answer e s = some p → (ioBank Bool).access t e s p.1 p.2 :=
    fun _ _ _ _ h => access_of_answer h
  exact Machine.Reach.of_play hacc (fun _ _ _ h => env_of_move h) cs h

/-- All pins are low. -/
def quiet : IoBank := ⟨fun _ => 0x11111111#32, fun _ => 0#32⟩

/-- One thread waits for a rising edge of pin `n`, the other acknowledges all events of pin `q`. -/
def sharers (n q : Gp) : Bool → Prog PinOp.Answer Word
  | true => .op (.irqEnable n 8#32) fun _ => .op (.irqStatus n) fun (r : Word) => .ret r
  | false => .op (.ackEvents q 0xF#32) fun _ => .ret 0#32

/-- Two pins in one register: the edge of the one is there after the other's acknowledgement. -/
theorem events_perPin_sharers : ∃ (n q : Gp) (c₁ c : Config Bool Op.Answer Word IoBank),
    bank n = bank q ∧
    (ioBank Bool).Reach ⟨quiet, fun t => (sharers n q t).implement PinOp.code⟩ c₁ ∧
    (ioBank Bool).Reach c₁ c ∧ c.threads true = .ret 8#32 ∧ ∃ ts₁ ts tr,
      (pins Bool).Reach ⟨quiet.pins, sharers n q⟩ ⟨c₁.shared.pins, ts₁⟩ ∧
      (pins Bool).recorded.Reach ⟨(c₁.shared.pins, []), ts₁⟩ ⟨(c.shared.pins, tr), ts⟩ ∧
      (∀ t a, c.threads t = .ret a → ts t = .ret a) ∧
      ∀ n, (c.shared.pins n).enabled = enabledAfter n (c₁.shared.pins n).enabled tr ∧
        ∀ m, m &&& 0xC = m → Unacknowledged n m tr → (c₁.shared.pins n).raw &&& m = m →
          (c.shared.pins n).raw &&& m = m := by
  obtain ⟨c₁, h₁, c, h, hend⟩ : ∃ c₁, Machine.play (fun _ => IoBank.answer) IoBank.move
      ⟨quiet, fun t => (sharers ⟨15, of_decide_eq_true rfl⟩ ⟨14, of_decide_eq_true rfl⟩ t).implement
        PinOp.code⟩
      [.thread true, .env (⟨15, of_decide_eq_true rfl⟩, true)] = some c₁ ∧
      ∃ c, Machine.play (fun _ => IoBank.answer) IoBank.move c₁ [.thread false, .thread true]
        = some c ∧ c.threads true = .ret 8#32 := ⟨_, rfl, _, rfl, rfl⟩
  have hc₁ := reach_of_play _ h₁
  have hc := reach_of_play _ h
  exact ⟨⟨15, of_decide_eq_true rfl⟩, ⟨14, of_decide_eq_true rfl⟩, c₁, c, rfl, hc₁, hc, hend,
    events_perPin hc₁ hc⟩

end Events
