import Inmojomni.Effect.Atomic
import Inmojomni.Effect.History
import Inmojomni.Uart

/-!
# Bytes through the UART

A PL011 moves bytes on its own: from its transmit FIFO to the line, and from the line to the pin or,
in the loopback mode, into its own receive FIFO. `Pl011` is the device, with steps of its own
between any two accesses of the driver.

`link` is what the calls of the driver are for: one queue of bytes to be sent and one of bytes that
have come, on which writing a byte, reading one and flushing are single steps. The device simulates
it whatever program calls the driver, so that in the loopback mode what is read is what was written,
in order, up to what an overrun loses.
-/

namespace Uart

open Mmio Effect Multicore

def frBusy : Word := 1#32 <<< 3

def frRxfe : Word := 1#32 <<< 4

def frTxff : Word := 1#32 <<< 5

def crLbe : Word := 1#32 <<< 7

def dr : Word := 0x00

def fr : Word := 0x18

/-! ### The driver -/

def writeByte (C : Chip) (b : Byte) : Firmware Unit := do
  let _ ← Prog.poll (Op.read32 (C.uart0Base + fr)) fun (r : Word) => decide (r &&& frTxff = 0)
  write32 (C.uart0Base + dr) (b.setWidth 32)

def flush (C : Chip) : Firmware Unit := do
  let _ ← Prog.poll (Op.read32 (C.uart0Base + fr)) fun (r : Word) => decide (r &&& frBusy = 0)

/-- `while (read32(UARTFR) & RXFE) != 0`, which answers `false` when the time is up. -/
def waitByte (C : Chip) (timeoutUs : Word) : Firmware Bool := do
  let t0 ← timeUs C
  Prog.loop (fun _ : Unit => do
    let st ← read32 (C.uart0Base + fr)
    if st &&& frRxfe ≠ 0#32 then do
      let t ← timeUs C
      if t - t0 > timeoutUs then return .inr false else return .inl ()
    else
      return .inr true) ()

/-- Next received byte, or -1 if none arrives within the timeout. -/
def readByte (C : Chip) (timeoutUs : Word) : Firmware Word := do
  let arrived ← waitByte C timeoutUs
  if arrived then return (← read32 (C.uart0Base + dr)) &&& 0xFF#32 else return -1

/-! ### The device -/

/-- The control register, the transmit FIFO, the byte on the line and the receive FIFO, what has
left by the pin, whether a byte found the receive FIFO full, and whether ever the driver has written
into a full FIFO, read from an empty one, or changed the mode while the UART was enabled or busy. -/
structure Pl011 where
  cr : Word
  tx : List Byte
  line : Option Byte
  rx : List Byte
  pin : List Byte
  overrun : Bool
  misused : Bool

namespace Pl011

/-- The loopback mode is on. -/
def Lbe (s : Pl011) : Prop := s.cr &&& crLbe ≠ 0#32

def Enabled (s : Pl011) : Prop := s.cr &&& crUarten ≠ 0#32

instance (s : Pl011) : Decidable s.Lbe := inferInstanceAs (Decidable (¬ _))

instance (s : Pl011) : Decidable s.Enabled := inferInstanceAs (Decidable (¬ _))

/-- Bytes that are still to be sent, the oldest first. -/
def pending (s : Pl011) : List Byte := s.line.toList ++ s.tx

variable (C : Chip) (depth : ℕ)

/-- A byte arrives at the receiver. -/
def arrive (s : Pl011) (b : Byte) : Pl011 :=
  if s.rx.length < depth then { s with rx := s.rx ++ [b] } else { s with overrun := true }

/-- A load of UARTDR, which has error flags beside the byte. -/
def Takes (s : Pl011) (r : Word) (s' : Pl011) : Prop :=
  match s.rx with
  | [] => s' = { s with misused := true }
  | b :: bs => r.setWidth 8 = b ∧ s' = { s with rx := bs }

/-- A store to UARTDR. -/
def put (s : Pl011) (b : Byte) : Pl011 :=
  if s.tx.length < depth then { s with tx := s.tx ++ [b] } else { s with misused := true }

/-- A store to UARTCR. -/
def control (s : Pl011) (v : Word) : Pl011 :=
  { s with
    cr := v
    misused := s.misused ||
      (decide ((v &&& crLbe ≠ 0#32) ≠ s.Lbe) && (decide s.Enabled || s.pending != [])) }

/-- What a load may answer, as far as the driver looks at it. -/
def Reads (addr : Word) (s : Pl011) (r : Word) : Prop :=
  if addr = C.uart0Base + fr then
    (r &&& frBusy = 0#32 ↔ s.pending = []) ∧ (r &&& frRxfe ≠ 0#32 ↔ s.rx = []) ∧
      (r &&& frTxff = 0#32 ↔ s.tx.length < depth)
  else if addr = C.uart0Base + Uart.cr then r = s.cr
  else True

/-- How an access is answered and what it does. The driver makes word accesses only. -/
def access : (e : Op) → Pl011 → e.Answer → Pl011 → Prop
  | .read32 addr, s, (r : Word), s' =>
    if addr = C.uart0Base + dr then s.Takes r s' else s' = s ∧ s.Reads C depth addr r
  | .write32 addr v, s, _, s' =>
    s' = if addr = C.uart0Base + dr then s.put depth (v.setWidth 8)
      else if addr = C.uart0Base + Uart.cr then s.control v else s
  | .external _, s, _, s' => s' = s
  | .read8 _, _, _, _ => False
  | .write8 _ _, _, _, _ => False

/-- A step of the device: a byte goes on the line, it has been sent, or one comes in by the pin. -/
inductive Step : Pl011 → Pl011 → Prop
  | start {s : Pl011} {b : Byte} {bs : List Byte} (hline : s.line = none) (htx : s.tx = b :: bs) :
      Step s { s with line := some b, tx := bs }
  | loop {s : Pl011} {b : Byte} (hline : s.line = some b) (hlbe : s.Lbe) :
      Step s (arrive depth { s with line := none } b)
  | out {s : Pl011} {b : Byte} (hline : s.line = some b) (hlbe : ¬ s.Lbe) :
      Step s { s with line := none, pin := s.pin ++ [b] }
  | receive {s : Pl011} (b : Byte) (hlbe : ¬ s.Lbe) : Step s (s.arrive depth b)

/-- The driver on the device. -/
def machine : Machine Unit Op.Answer Pl011 where
  access _ := access C depth
  env := Step depth

end Pl011

/-! ### What the calls are for -/

/-- The calls of a program. -/
inductive UartOp
  | writeByte (b : Byte)
  | readByte (timeoutUs : Word)
  | flush

/-- What a call answers. -/
def UartOp.Answer : UartOp → Type
  | writeByte _ => Unit
  | readByte _ => Word
  | flush => Unit

/-- The code behind a call. -/
def UartOp.code (C : Chip) : (e : UartOp) → Firmware e.Answer
  | .writeByte b => Uart.writeByte C b
  | .readByte timeoutUs => Uart.readByte C timeoutUs
  | .flush => Uart.flush C

/-- A byte to be sent, and the bytes that have come. -/
structure Link where
  lbe : Bool
  pending : List Byte
  rx : List Byte
  pin : List Byte
  overrun : Bool

namespace Link

/-- A byte arrives at the receiver. -/
def arrive (depth : ℕ) (s : Link) (b : Byte) : Link :=
  if s.rx.length < depth then { s with rx := s.rx ++ [b] } else { s with overrun := true }

/-- A call is one step. Reading fails without effect. -/
def access : (e : UartOp) → Link → e.Answer → Link → Prop
  | .writeByte b, s, _, s' => s' = { s with pending := s.pending ++ [b] }
  | .readByte _, s, (r : Word), s' =>
    (r = -1 ∧ s' = s) ∨ ∃ b bs, s.rx = b :: bs ∧ r = b.setWidth 32 ∧ s' = { s with rx := bs }
  | .flush, s, _, s' => s.pending = [] ∧ s' = s

/-- The oldest byte is sent, or one comes in by the pin. -/
inductive Step (depth : ℕ) : Link → Link → Prop
  | loop {s : Link} {b : Byte} {bs : List Byte} (hp : s.pending = b :: bs) (hlbe : s.lbe = true) :
      Step depth s (arrive depth { s with pending := bs } b)
  | out {s : Link} {b : Byte} {bs : List Byte} (hp : s.pending = b :: bs) (hlbe : s.lbe = false) :
      Step depth s { s with pending := bs, pin := s.pin ++ [b] }
  | receive {s : Link} (b : Byte) (hlbe : s.lbe = false) : Step depth s (s.arrive depth b)

end Link

/-- A link whose receiver holds `depth` bytes. -/
def link (depth : ℕ) : Machine Unit UartOp.Answer Link where
  access _ := Link.access
  env := Link.Step depth

/-! ### The device simulates the link -/

namespace Pl011

variable {C : Chip} {depth : ℕ} {s s' : Pl011}

/-- The state of the link. -/
def link (s : Pl011) : Link where
  lbe := decide s.Lbe
  pending := s.pending
  rx := s.rx
  pin := s.pin
  overrun := s.overrun

/-- What an access may do: write where there is room, read where there is data, and change the mode
while the UART is disabled and idle. -/
def Proper (C : Chip) (depth : ℕ) (e : Op) (s : Pl011) : Prop :=
  match e with
  | .read32 addr => addr = C.uart0Base + dr → s.rx ≠ []
  | .write32 addr v => (addr = C.uart0Base + dr → s.tx.length < depth) ∧
      (addr = C.uart0Base + Uart.cr → ((v &&& crLbe ≠ 0#32) ↔ s.Lbe) ∨ ¬ s.Enabled ∧ s.pending = [])
  | _ => True

/-- One program, and a device that makes steps of its own. -/
def protocol (C : Chip) (depth : ℕ) : Protocol (machine C depth) where
  rely _ := Step depth
  guar _ e s _ _ := Proper C depth e s
  guar_rely := fun htu => absurd rfl htu
  env_rely := fun h => h

/-- A byte is written, or read, with its access to UARTDR, and a flush is over with the status that
says so. -/
def commit (C : Chip) : (e' : UartOp) → (e : Op) → e.Answer → Option e'.Answer
  | .writeByte _, .write32 addr _, _ => if addr = C.uart0Base + dr then some () else none
  | .readByte _, .read32 addr, (r : Word) =>
    if addr = C.uart0Base + dr then some (r &&& 0xFF#32) else none
  | .flush, .read32 addr, (r : Word) =>
    if addr = C.uart0Base + fr ∧ r &&& frBusy = 0#32 then some () else none
  | _, _, _ => none

theorem link_arrive (s : Pl011) (b : Byte) : (s.arrive depth b).link = s.link.arrive depth b := by
  unfold arrive Link.arrive
  by_cases h : s.rx.length < depth
  · rw [if_pos h, if_pos (show s.link.rx.length < depth from h)]
    rfl
  · rw [if_neg h, if_neg (show ¬ s.link.rx.length < depth from h)]
    rfl

/-- A step of the device is a step of the link, or none where a byte goes on the line. -/
theorem Step.link_eq (h : Step depth s s') : s'.link = s.link ∨ Link.Step depth s.link s'.link := by
  cases h with
  | @start b bs hline htx =>
    refine .inl ?_
    simp only [link, pending, Lbe, hline, htx]
    rfl
  | @loop b hline hlbe =>
    have hp : s.link.pending = b :: s.tx := by
      simp only [link, pending, hline]
      rfl
    refine .inr ?_
    rw [link_arrive]
    exact .loop hp (decide_eq_true hlbe)
  | @out b hline hlbe =>
    have hp : s.link.pending = b :: s.tx := by
      simp only [link, pending, hline]
      rfl
    exact .inr (.out hp (decide_eq_false hlbe))
  | receive b hlbe =>
    rw [link_arrive]
    exact .inr (.receive b (decide_eq_false hlbe))

/-- How what the driver does on the device is read as calls on the link. -/
def linearization (C : Chip) (depth : ℕ) : Linearization (machine C depth) (Uart.link depth) where
  abs := link
  protocol := protocol C depth
  inv _ _ := True
  commit := fun e' e r _ => commit C e' e r
  inv_stable := fun _ _ _ _ => trivial
  env_abs := Step.link_eq

/-! ### What stays as it is -/

theorem stable_true : Stable (protocol C depth) () fun _ => True := fun _ _ _ _ => trivial

theorem rx_arrive (s : Pl011) (b : Byte) : s.rx <+: (s.arrive depth b).rx := by
  unfold arrive
  split_ifs
  · exact List.prefix_append _ _
  · exact List.prefix_rfl

/-- Only the driver takes what has come. -/
theorem Step.rx_prefix (h : Step depth s s') : s.rx <+: s'.rx := by
  cases h with
  | start hline htx => exact List.prefix_rfl
  | loop hline hlbe => exact rx_arrive { s with line := none } _
  | out hline hlbe => exact List.prefix_rfl
  | receive b hlbe => exact rx_arrive _ _

theorem tx_arrive (s : Pl011) (b : Byte) : (s.arrive depth b).tx = s.tx := by
  unfold arrive
  split_ifs <;> rfl

/-- Only the driver fills the transmit FIFO. -/
theorem Step.tx_length_le (h : Step depth s s') : s'.tx.length ≤ s.tx.length := by
  cases h with
  | @start b bs hline htx =>
    dsimp only
    rw [htx]
    exact Nat.le_succ _
  | loop hline hlbe => rw [tx_arrive]
  | out hline hlbe => exact le_rfl
  | receive b hlbe => rw [tx_arrive]

theorem stable_data : Stable (protocol C depth) () fun s => s.rx ≠ [] := by
  intro s s' hr hne hnil
  have hpre := Step.rx_prefix hr
  rw [hnil] at hpre
  exact hne (List.prefix_nil.mp hpre)

theorem stable_room : Stable (protocol C depth) () fun s => s.tx.length < depth :=
  fun _ _ hr hlt => (Step.tx_length_le hr).trans_lt hlt

/-! ### The registers -/

theorem fr_ne_dr (C : Chip) : C.uart0Base + fr ≠ C.uart0Base + dr := by
  cases C <;> decide

theorem time_ne_dr (C : Chip) : C.timerBase + 0x28#32 ≠ C.uart0Base + dr := by
  cases C <;> decide

/-- A load that is not of UARTDR takes nothing. -/
theorem access_glance {addr r : Word} (h : addr ≠ C.uart0Base + dr)
    (ha : access C depth (.read32 addr) s r s') : s' = s ∧ s.Reads C depth addr r := by
  dsimp only [access] at ha
  rwa [if_neg h] at ha

/-- What the flag register says. -/
theorem reads_fr {r : Word} (h : s.Reads C depth (C.uart0Base + fr) r) :
    (r &&& frBusy = 0#32 ↔ s.pending = []) ∧ (r &&& frRxfe ≠ 0#32 ↔ s.rx = []) ∧
      (r &&& frTxff = 0#32 ↔ s.tx.length < depth) := by
  rwa [Reads, if_pos rfl] at h

/-- What the control register says. -/
theorem reads_cr {r : Word} (h : s.Reads C depth (C.uart0Base + Uart.cr) r) : r = s.cr := by
  have hne : C.uart0Base + Uart.cr ≠ C.uart0Base + fr := by cases C <;> decide
  rwa [Reads, if_neg hne, if_pos rfl] at h

theorem access_take {r : Word} (h : s.rx ≠ [])
    (ha : access C depth (.read32 (C.uart0Base + dr)) s r s') :
    ∃ b bs, s.rx = b :: bs ∧ r.setWidth 8 = b ∧ s' = { s with rx := bs } := by
  dsimp only [access] at ha
  rw [if_pos rfl] at ha
  unfold Takes at ha
  split at ha
  · next hnil => exact absurd hnil h
  · next b bs hcons => exact ⟨b, bs, hcons, ha⟩

theorem access_put {v : Word} {r : (Op.write32 (C.uart0Base + dr) v).Answer}
    (h : s.tx.length < depth) (ha : access C depth (.write32 (C.uart0Base + dr) v) s r s') :
    s' = { s with tx := s.tx ++ [v.setWidth 8] } := by
  dsimp only [access] at ha
  rw [if_pos rfl, put, if_pos h] at ha
  exact ha

theorem glance_proper {addr : Word} (h : addr ≠ C.uart0Base + dr) :
    Proper C depth (.read32 addr) s :=
  fun heq => absurd heq h

theorem put_proper {v : Word} (h : s.tx.length < depth) :
    Proper C depth (.write32 (C.uart0Base + dr) v) s := by
  have hne : C.uart0Base + dr ≠ C.uart0Base + Uart.cr := by cases C <;> decide
  exact ⟨fun _ => h, fun heq => absurd heq hne⟩

/-- The byte that the driver makes of a load of UARTDR. -/
theorem and_mask_eq {r : Word} {b : Byte} (h : r.setWidth 8 = b) :
    r &&& 0xFF#32 = b.setWidth 32 := by
  subst h
  refine BitVec.eq_of_getLsbD_eq fun i hi => ?_
  have hmask : (0xFF#32).getLsbD i = decide (i < 8) := by
    revert i
    decide
  rw [BitVec.getLsbD_and, hmask, BitVec.getLsbD_setWidth, BitVec.getLsbD_setWidth]
  cases r.getLsbD i <;> simp [hi]

/-! ### Waiting for a byte -/

/-- The loop of `read_byte` on any machine that has the flag register: `E` is what a look at the
register says when there is no byte, and `A` when there is one. -/
theorem waitByte_rule {σ : Type} {M : Machine Unit Op.Answer σ} {Γ : Protocol M} {P E A : σ → Prop}
    (hP : Stable Γ () P) (hE : Stable Γ () E) (hA : Stable Γ () A) (hEP : ∀ s, E s → P s)
    (htime : ∀ Q, Q = P ∨ Q = E → ∀ s r s', Q s →
      M.access () (.read32 (C.timerBase + 0x28#32)) s r s' →
        Γ.guar () (.read32 (C.timerBase + 0x28#32)) s r s' ∧ Q s')
    (hfr : ∀ s (r : Word) s', P s → M.access () (.read32 (C.uart0Base + fr)) s r s' →
      Γ.guar () (.read32 (C.uart0Base + fr)) s r s' ∧
        if r &&& frRxfe ≠ 0#32 then E s' else A s') (timeoutUs : Word) :
    Triple Γ () P (waitByte C timeoutUs) fun arrived => if arrived then A else E := by
  refine (Triple.call hP (fun _ => hP) (htime P (.inl rfl))).bind fun t0 => ?_
  refine Triple.loop (I := fun _ => P) (J := fun (arrived : Bool) => if arrived then A else E)
    (fun _ => hP)
    (fun (arrived : Bool) => ?_) (fun _ => ?_) ()
  · cases arrived
    · exact hE
    · exact hA
  refine Triple.op (e := Op.read32 (C.uart0Base + fr))
    (K := fun (r : Word) s => if r &&& frRxfe ≠ 0#32 then E s else A s) hP
    (fun s r s' hs ha => hfr s r s' hs ha) ?_
  intro (r : Word)
  change Triple _ () (fun s => if r &&& frRxfe ≠ 0#32 then E s else A s)
    (if r &&& frRxfe ≠ 0#32 then _ else _) _
  by_cases hempty : r &&& frRxfe ≠ 0#32
  · simp only [if_pos hempty]
    refine (Triple.call hE (fun _ => hE) (htime E (.inr rfl))).bind fun t => ?_
    split
    · exact Triple.ret hE fun s hs => hs
    · exact Triple.ret hE hEP
  · simp only [if_neg hempty]
    exact Triple.ret hA fun s hs => hs

/-! ### The calls take effect at one point -/

section Calls

variable {e' : UartOp} {g : Option e'.Answer}

/-- Inside a call that has taken effect with the answer `g`, or with none not yet. -/
abbrev Within (P : Pl011 → Prop) (g : Option e'.Answer) (s : Pl011 × Option e'.Answer) : Prop :=
  P s.1 ∧ s.2 = g

theorem Within.stable {P : Pl011 → Prop} (h : Stable (protocol C depth) () P) :
    Stable ((linearization C depth).duty () e') () (Within P g) :=
  (linearization C depth).stable_duty e' g h

/-- A load that neither takes a byte nor decides the call leaves everything as it is. -/
theorem access_within {P : Pl011 → Prop} {addr r : Word} {s s' : Pl011 × Option e'.Answer}
    (haddr : addr ≠ C.uart0Base + dr) (hc : commit C e' (.read32 addr) r = none)
    (hs : Within P g s)
    (ha : ((linearization C depth).view () e').access () (.read32 addr) s r s') :
    ((linearization C depth).duty () e').guar () (.read32 addr) s r s' ∧
      Within P g s' ∧ s'.1 = s.1 ∧ s.1.Reads C depth addr r := by
  obtain ⟨heq, hreads⟩ := access_glance haddr ha.1
  have hproper : Proper C depth (.read32 addr) s.1 := glance_proper haddr
  have hs' := ha.2
  rw [show (linearization C depth).commit e' (.read32 addr) r s.1 = none from hc,
    Option.none_or] at hs'
  refine ⟨⟨hproper, ?_⟩, ⟨?_, hs'.trans hs.2⟩, heq, hreads⟩
  · rw [show (linearization C depth).commit e' (.read32 addr) r s.1 = none from hc, heq]
    exact rfl
  · rw [heq]
    exact hs.1

theorem writeByte_spec (b : Byte) :
    Triple ((linearization C depth).duty () (.writeByte b)) () (Within (fun _ => True) none)
      (Uart.writeByte C b) ((linearization C depth).Done () (.writeByte b)) := by
  have hroom : Stable ((linearization C depth).duty () (.writeByte b)) ()
      (Within (fun s => s.tx.length < depth) none) := Within.stable stable_room
  have htrue : ∀ g, Stable ((linearization C depth).duty () (.writeByte b)) ()
      (Within (fun _ => True) g) := fun g => Within.stable stable_true
  -- until the FIFO has room
  have hpoll : Triple ((linearization C depth).duty () (.writeByte b)) ()
      (Within (fun _ => True) none)
      (Prog.poll (Op.read32 (C.uart0Base + fr)) fun (r : Word) => decide (r &&& frTxff = 0))
      fun _ => Within (fun s => s.tx.length < depth) none := by
    refine Triple.poll (htrue none) (fun _ => hroom) fun s r s' hs ha => ?_
    obtain ⟨hguar, hs', heq, hreads⟩ := access_within (fr_ne_dr C) rfl hs ha
    refine ⟨hguar, ?_⟩
    split
    case isTrue hdone =>
      refine ⟨?_, hs'.2⟩
      rw [heq]
      exact (reads_fr hreads).2.2.mp (of_decide_eq_true hdone)
    case isFalse => exact hs'
  -- the byte goes into the FIFO: here the call takes effect
  have hwrite : Triple ((linearization C depth).duty () (.writeByte b)) ()
      (Within (fun s => s.tx.length < depth) none) (write32 (C.uart0Base + dr) (b.setWidth 32))
      fun _ => Within (fun _ => True) (some ()) := by
    refine Triple.call hroom (fun _ => htrue _) fun s r s' hs ha => ?_
    have hput := access_put (r := r) hs.1 ha.1
    have hc : (linearization C depth).commit (.writeByte b)
        (.write32 (C.uart0Base + dr) (b.setWidth 32)) r s.1 = some () := if_pos rfl
    have hs' := ha.2
    rw [hc] at hs'
    refine ⟨⟨put_proper hs.1, ?_⟩, trivial, hs'⟩
    rw [hc]
    refine ⟨hs.2, ?_⟩
    change s'.1.link = { s.1.link with pending := s.1.link.pending ++ [b] }
    rw [hput, BitVec.setWidth_setWidth_of_le _ (by decide), BitVec.setWidth_eq]
    simp only [link, pending, List.append_assoc]
    rfl
  exact hpoll.bind fun _ => hwrite.post fun _ s hs => ⟨trivial, .inl hs.2⟩

theorem flush_spec :
    Triple ((linearization C depth).duty () .flush) () (Within (fun _ => True) none)
      (Uart.flush C) ((linearization C depth).Done () .flush) := by
  have htrue : ∀ g, Stable ((linearization C depth).duty () .flush) ()
      (Within (fun _ => True) g) := fun g => Within.stable stable_true
  have hpoll : Triple ((linearization C depth).duty () .flush) () (Within (fun _ => True) none)
      (Prog.poll (Op.read32 (C.uart0Base + fr)) fun (r : Word) => decide (r &&& frBusy = 0))
      fun _ => Within (fun _ => True) (some ()) := by
    refine Triple.poll (htrue none) (fun _ => htrue _) fun s (r : Word) s' hs ha => ?_
    obtain ⟨heq, hreads⟩ := access_glance (fr_ne_dr C) ha.1
    have hproper : Proper C depth (.read32 (C.uart0Base + fr)) s.1 := glance_proper (fr_ne_dr C)
    have hs' := ha.2
    by_cases hidle : r &&& frBusy = 0#32
    · have hc : (linearization C depth).commit .flush (.read32 (C.uart0Base + fr)) r s.1 = some () :=
        if_pos ⟨rfl, hidle⟩
      rw [hc] at hs'
      refine ⟨⟨hproper, ?_⟩, ?_⟩
      · rw [hc]
        refine ⟨hs.2, (reads_fr hreads).1.mp hidle, ?_⟩
        rw [heq]
      · split
        case isTrue => exact ⟨trivial, hs'⟩
        case isFalse h => exact absurd (decide_eq_true hidle) h
    · have hc : commit C .flush (.read32 (C.uart0Base + fr)) r = none := if_neg fun h => hidle h.2
      obtain ⟨hguar, hwithin, -, -⟩ := access_within (fr_ne_dr C) hc hs ha
      refine ⟨hguar, ?_⟩
      split
      case isTrue h => exact absurd (of_decide_eq_true h) hidle
      case isFalse => exact hwithin
  exact hpoll.bind fun _ => Triple.ret (htrue _) fun s hs => ⟨trivial, .inl hs.2⟩

theorem waitByte_spec (timeoutUs : Word) :
    Triple ((linearization C depth).duty () (.readByte timeoutUs)) () (Within (fun _ => True) none)
      (waitByte C timeoutUs) fun arrived =>
        if arrived then Within (fun s => s.rx ≠ []) none else Within (fun _ => True) none := by
  have htrue : Stable ((linearization C depth).duty () (.readByte timeoutUs)) ()
      (Within (fun _ => True) none) := Within.stable stable_true
  have hglance : ∀ addr ≠ C.uart0Base + dr, ∀ r : Word,
      commit C (.readByte timeoutUs) (.read32 addr) r = none := fun _ h _ => if_neg h
  refine waitByte_rule htrue htrue (Within.stable stable_data) (fun _ hs => hs) ?_ ?_ timeoutUs
  · rintro Q (rfl | rfl) s r s' hs ha
    all_goals
      obtain ⟨hguar, hs', -, -⟩ := access_within (time_ne_dr C) (hglance _ (time_ne_dr C) r) hs ha
      exact ⟨hguar, hs'⟩
  · intro s r s' hs ha
    obtain ⟨hguar, hs', heq, hreads⟩ := access_within (fr_ne_dr C) (hglance _ (fr_ne_dr C) r) hs ha
    refine ⟨hguar, ?_⟩
    split
    case isTrue => exact hs'
    case isFalse hset =>
      refine ⟨?_, hs'.2⟩
      rw [heq]
      exact fun hnil => hset ((reads_fr hreads).2.1.mpr hnil)

theorem readByte_spec (timeoutUs : Word) :
    Triple ((linearization C depth).duty () (.readByte timeoutUs)) () (Within (fun _ => True) none)
      (Uart.readByte C timeoutUs) ((linearization C depth).Done () (.readByte timeoutUs)) := by
  have htrue : ∀ g, Stable ((linearization C depth).duty () (.readByte timeoutUs)) ()
      (Within (fun _ => True) g) := fun g => Within.stable stable_true
  refine (waitByte_spec timeoutUs).bind fun arrived => ?_
  cases arrived with
  | true =>
    have hdata : Stable ((linearization C depth).duty () (.readByte timeoutUs)) ()
        (Within (fun s => s.rx ≠ []) none) := Within.stable stable_data
    have htake : Triple ((linearization C depth).duty () (.readByte timeoutUs)) ()
        (Within (fun s => s.rx ≠ []) none) (read32 (C.uart0Base + dr))
        fun v => Within (fun _ => True) (some (v &&& 0xFF#32)) := by
      refine Triple.call hdata (fun _ => htrue _) fun s (r : Word) s' hs ha => ?_
      obtain ⟨b, bs, hrx, hb, hs₁⟩ := access_take hs.1 ha.1
      have hc : (linearization C depth).commit (.readByte timeoutUs)
          (.read32 (C.uart0Base + dr)) r s.1 = some (r &&& 0xFF#32) := if_pos rfl
      have hproper : Proper C depth (.read32 (C.uart0Base + dr)) s.1 := fun _ => hs.1
      have hs' := ha.2
      rw [hc] at hs'
      refine ⟨⟨hproper, ?_⟩, trivial, hs'⟩
      rw [hc]
      refine ⟨hs.2, .inr ⟨b, bs, hrx, and_mask_eq hb, ?_⟩⟩
      rw [hs₁]
      exact rfl
    refine htake.bind fun v => ?_
    exact Triple.ret (htrue _) fun s hs => ⟨trivial, .inl hs.2⟩
  | false =>
    exact Triple.ret (htrue none) fun s hs => ⟨trivial, .inr ⟨hs.2, .inl ⟨rfl, rfl⟩⟩⟩

/-- **Each call is one step.** -/
theorem atomic (C : Chip) (depth : ℕ) : (linearization C depth).Atomic (UartOp.code C) := by
  intro _ e'
  cases e' with
  | writeByte b => exact writeByte_spec b
  | readByte timeoutUs => exact readByte_spec timeoutUs
  | flush => exact flush_spec

end Calls

end Pl011

theorem UartOp.code_ne_ret (C : Chip) (e : UartOp) (a : e.Answer) : UartOp.code C e ≠ .ret a := by
  cases e <;> rintro ⟨⟩

/-! ### The bytes on record -/

/-- The bytes that have been written, oldest first. -/
def written : List (Event Unit UartOp.Answer) → List Byte
  | [] => []
  | ⟨_, .writeByte b, _⟩ :: tr => written tr ++ [b]
  | ⟨_, .readByte _, _⟩ :: tr => written tr
  | ⟨_, .flush, _⟩ :: tr => written tr

/-- The answers of the reads that have not timed out, oldest first. -/
def answered : List (Event Unit UartOp.Answer) → List Word
  | [] => []
  | ⟨_, .writeByte _, _⟩ :: tr => answered tr
  | ⟨_, .readByte _, (r : Word)⟩ :: tr => if r = -1 then answered tr else answered tr ++ [r]
  | ⟨_, .flush, _⟩ :: tr => answered tr

/-- Bytes as `read_byte` answers them. -/
def words (bs : List Byte) : List Word := bs.map (BitVec.setWidth 32)

theorem setWidth_ne (b : Byte) : b.setWidth 32 ≠ -1 := by
  revert b
  decide

/-- Where the bytes are that were in the link at the start, `x₀`, and those written since. -/
structure Delivered (x₀ : Link) (s : Link × List (Event Unit UartOp.Answer)) : Prop where
  lbe : s.1.lbe = x₀.lbe
  pin : x₀.lbe = false → x₀.pin ++ x₀.pending ++ written s.2 = s.1.pin ++ s.1.pending
  some : x₀.lbe = true → List.Sublist (answered s.2 ++ words (s.1.rx ++ s.1.pending))
    (words (x₀.rx ++ x₀.pending ++ written s.2))
  all : x₀.lbe = true → s.1.overrun = false →
    words (x₀.rx ++ x₀.pending ++ written s.2) = answered s.2 ++ words (s.1.rx ++ s.1.pending)

section Record

variable {depth : ℕ} {x₀ : Link} {s s' : Link × List (Event Unit UartOp.Answer)}

theorem Delivered.access {e : UartOp} {r : e.Answer} (h : Delivered x₀ s)
    (ha : (link depth).recorded.access () e s r s') : Delivered x₀ s' := by
  obtain ⟨x, tr⟩ := s
  obtain ⟨x', tr'⟩ := s'
  obtain ⟨hcall, htr⟩ := ha
  dsimp only at htr
  subst htr
  obtain ⟨hlbe, hpin, hsome, hall⟩ := h
  dsimp only at hlbe hpin hsome hall
  cases e with
  | writeByte b =>
    obtain rfl : x' = { x with pending := x.pending ++ [b] } := hcall
    have hw : written (⟨(), .writeByte b, r⟩ :: tr) = written tr ++ [b] := rfl
    have ha : answered (⟨(), .writeByte b, r⟩ :: tr) = answered tr := rfl
    refine ⟨hlbe, fun h₀ => ?_, fun h₀ => ?_, fun h₀ hover => ?_⟩
    · dsimp only
      rw [hw, ← List.append_assoc, hpin h₀, List.append_assoc]
    · have hsub := (hsome h₀).append_right (words [b])
      simpa [hw, ha, words, List.append_assoc] using hsub
    · have heq := congrArg (· ++ words [b]) (hall h₀ hover)
      simpa [hw, ha, words, List.append_assoc] using heq
  | readByte timeoutUs =>
    have hw : written (⟨(), .readByte timeoutUs, r⟩ :: tr) = written tr := rfl
    obtain ⟨rfl, rfl⟩ | ⟨b, bs, hrx, rfl, rfl⟩ := hcall
    · have ha : answered (⟨(), .readByte timeoutUs, (-1 : Word)⟩ :: tr) = answered tr := if_pos rfl
      refine ⟨hlbe, fun h₀ => ?_, fun h₀ => ?_, fun h₀ hover => ?_⟩
      · dsimp only
        rw [hw, hpin h₀]
      · dsimp only
        rw [hw, ha]
        exact hsome h₀
      · dsimp only
        rw [hw, ha, hall h₀ hover]
    · have ha : answered (⟨(), .readByte timeoutUs, b.setWidth 32⟩ :: tr)
          = answered tr ++ [b.setWidth 32] := if_neg (setWidth_ne b)
      have hmove : ∀ ps, answered tr ++ words (x.rx ++ ps)
          = (answered tr ++ [b.setWidth 32]) ++ words (bs ++ ps) := by
        intro ps
        rw [hrx, words, words, List.cons_append, List.map_cons, List.append_assoc,
          List.singleton_append]
      refine ⟨hlbe, fun h₀ => ?_, fun h₀ => ?_, fun h₀ hover => ?_⟩
      · dsimp only
        rw [hw, hpin h₀]
      · dsimp only
        rw [hw, ha, ← hmove]
        exact hsome h₀
      · dsimp only
        rw [hw, ha, ← hmove, hall h₀ hover]
  | flush =>
    obtain ⟨-, rfl⟩ := hcall
    exact ⟨hlbe, hpin, hsome, hall⟩

theorem Delivered.env (h : Delivered x₀ s) (ha : (link depth).recorded.env s s') :
    Delivered x₀ s' := by
  obtain ⟨x, tr⟩ := s
  obtain ⟨x', tr'⟩ := s'
  obtain ⟨hstep, htr⟩ := ha
  dsimp only at htr hstep
  subst htr
  obtain ⟨hlbe, hpin, hsome, hall⟩ := h
  dsimp only at hlbe hpin hsome hall
  cases hstep with
  | @loop b bs hp hl =>
    have h₀ : x₀.lbe = true := hlbe.symm.trans hl
    unfold Link.arrive
    split
    case isTrue hroom =>
      have heq : (x.rx ++ [b]) ++ bs = x.rx ++ x.pending := by
        rw [hp, List.append_assoc, List.singleton_append]
      refine ⟨hlbe, fun hf => absurd (h₀.symm.trans hf) (by decide), fun _ => ?_, fun _ hover => ?_⟩
      · dsimp only
        rw [heq]
        exact hsome h₀
      · dsimp only
        rw [heq, hall h₀ hover]
    case isFalse hfull =>
      -- the byte is lost: what is left is still in order
      refine ⟨hlbe, fun hf => absurd (h₀.symm.trans hf) (by decide), fun _ => ?_,
        fun _ hover => Bool.noConfusion hover⟩
      refine List.Sublist.trans ?_ (hsome h₀)
      rw [hp]
      refine (List.Sublist.refl _).append (List.Sublist.map _ ?_)
      exact (List.Sublist.refl _).append (List.sublist_cons_self b bs)
  | @out b bs hp hl =>
    have h₀ : x₀.lbe = false := hlbe.symm.trans hl
    refine ⟨hlbe, fun _ => ?_, fun hf => absurd (h₀.symm.trans hf) (by decide),
      fun hf => absurd (h₀.symm.trans hf) (by decide)⟩
    dsimp only
    rw [hpin h₀, hp, List.append_assoc, List.singleton_append]
  | receive b hl =>
    have h₀ : x₀.lbe = false := hlbe.symm.trans hl
    unfold Link.arrive
    split
    all_goals
      exact ⟨hlbe, hpin, fun hf => absurd (h₀.symm.trans hf) (by decide),
        fun hf => absurd (h₀.symm.trans hf) (by decide)⟩

/-- Where the bytes are after a run of the link. -/
theorem Delivered.of_reach {α : Type} {client : Prog UartOp.Answer α}
    {c : Config Unit UartOp.Answer α (Link × List (Event Unit UartOp.Answer))}
    (hc : (link depth).recorded.Reach ⟨(x₀, []), fun _ => client⟩ c) : Delivered x₀ c.shared := by
  refine hc.induction (P := fun c => Delivered x₀ c.shared) ?_ fun c l c' _ ih hs => ?_
  · exact ⟨rfl, fun _ => List.append_nil _, fun _ => by simp [answered, written],
      fun _ _ => by simp [answered, written]⟩
  · cases hs with
    | access ht ha => exact ih.access ha
    | unfold ht => exact ih
    | env he => exact ih.env he

end Record

/-- No proper access and no step of the device misuses it. -/
theorem Pl011.misused_access {C : Chip} {depth : ℕ} {s s' : Pl011} {e : Op} {r : e.Answer}
    (h : Proper C depth e s) (ha : access C depth e s r s') : s'.misused = s.misused := by
  cases e with
  | read32 addr =>
    by_cases haddr : addr = C.uart0Base + dr
    · subst haddr
      obtain ⟨b, bs, -, -, rfl⟩ := access_take (h rfl) ha
      rfl
    · rw [(access_glance haddr ha).1]
  | write32 addr v =>
    obtain ⟨hput, hmode⟩ := h
    dsimp only [access] at ha
    subst ha
    split_ifs with hdr hcr
    · rw [put, if_pos (hput hdr)]
    · obtain heq | ⟨henabled, hidle⟩ := hmode hcr
      · simp [control, heq]
      · simp [control, henabled, hidle]
    · rfl
  | external f =>
    obtain rfl : s' = s := ha
    rfl
  | read8 addr => exact absurd ha id
  | write8 addr v => exact absurd ha id

theorem Pl011.misused_step {depth : ℕ} {s s' : Pl011} (h : Step depth s s') :
    s'.misused = s.misused := by
  cases h with
  | start hline htx => rfl
  | loop hline hlbe =>
    unfold arrive
    split_ifs <;> rfl
  | out hline hlbe => rfl
  | receive b hlbe =>
    unfold arrive
    split_ifs <;> rfl

/-- **Bytes through the UART.** Whatever a program does with the calls of the driver, and whenever
the device moves its bytes: what leaves by the pin is what was written, in order; and in the
loopback mode what is read is what was written, in order, but for bytes that find the receive FIFO
full, and all of it if there are none. No byte is written into a full FIFO and none is read from an
empty one. -/
theorem calls_deliver (C : Chip) (depth : ℕ) {α : Type} {client : Prog UartOp.Answer α} {s₀ : Pl011}
    {c : Config Unit Op.Answer α Pl011}
    (hc : (Pl011.machine C depth).Reach ⟨s₀, fun _ => client.implement (UartOp.code C)⟩ c) :
    ∃ ts tr, (link depth).recorded.Reach
        ⟨(s₀.link, []), fun _ => client⟩ ⟨(c.shared.link, tr), ts⟩ ∧
      (∀ a, c.threads () = .ret a → ts () = .ret a) ∧
      (¬ s₀.Lbe → s₀.pin ++ s₀.pending ++ written tr = c.shared.pin ++ c.shared.pending) ∧
      (s₀.Lbe →
        List.Sublist (answered tr ++ words (c.shared.rx ++ c.shared.pending))
          (words (s₀.rx ++ s₀.pending ++ written tr)) ∧
        (c.shared.overrun = false → words (s₀.rx ++ s₀.pending ++ written tr)
          = answered tr ++ words (c.shared.rx ++ c.shared.pending))) ∧
      c.shared.misused = s₀.misused := by
  have hatomic := Pl011.atomic C depth
  obtain ⟨ts, hreach, hfollows⟩ := Linearization.simulates hatomic (UartOp.code_ne_ret C)
    (fun _ => trivial) hc
  obtain ⟨tr, hrec⟩ := hreach.recorded
  have hdel := Delivered.of_reach hrec
  refine ⟨ts, tr, hrec, fun a ht => ?_, fun h₀ => hdel.pin (decide_eq_false h₀),
    fun h₀ => ⟨hdel.some (decide_eq_true h₀), hdel.all (decide_eq_true h₀)⟩, ?_⟩
  · have hf := hfollows ()
    rw [ht] at hf
    exact hf.result (UartOp.code_ne_ret C)
  · refine Linearization.invariant (I := fun s => s.misused = s₀.misused) hatomic
      (UartOp.code_ne_ret C) (fun _ => trivial) rfl ?_ (fun s s' h hs => ?_) hc
    · intro t e s r s' ha hproper hs
      exact (Pl011.misused_access hproper ha).trans hs
    · exact (Pl011.misused_step h).trans hs

/-! ### A run -/

namespace Pl011

/-- The flag register. -/
def status (depth : ℕ) (s : Pl011) : Word :=
  (if s.pending = [] then 0#32 else frBusy) ||| (if s.rx = [] then frRxfe else 0#32) |||
    (if s.tx.length < depth then 0#32 else frTxff)

/-- What a load of UARTDR answers and leaves. -/
def take (s : Pl011) : Word × Pl011 :=
  match s.rx with
  | [] => (0#32, { s with misused := true })
  | b :: bs => (b.setWidth 32, { s with rx := bs })

/-- What a load answers and leaves; `now` is what the clock shows. -/
def load (C : Chip) (depth : ℕ) (now addr : Word) (s : Pl011) : Word × Pl011 :=
  if addr = C.uart0Base + dr then s.take
  else (if addr = C.uart0Base + fr then s.status depth
    else if addr = C.uart0Base + Uart.cr then s.cr else now, s)

/-- One of the answers that the device may give, where the clock stands still. -/
def answer (C : Chip) (depth : ℕ) (now : Word) : (e : Op) → Pl011 → Option (e.Answer × Pl011)
  | .read32 addr, s => some (s.load C depth now addr)
  | .write32 addr v, s => some ((), if addr = C.uart0Base + dr then s.put depth (v.setWidth 8)
      else if addr = C.uart0Base + Uart.cr then s.control v else s)
  | .external _, _ => none
  | .read8 _, _ => none
  | .write8 _ _, _ => none

/-- What the device does next with what is to be sent. -/
def send (depth : ℕ) (s : Pl011) : Option Pl011 :=
  match s.line, s.tx with
  | none, [] => none
  | none, b :: bs => some { s with line := some b, tx := bs }
  | some b, _ =>
    some (if s.Lbe then arrive depth { s with line := none } b
      else { s with line := none, pin := s.pin ++ [b] })

theorem status_reads (C : Chip) (depth : ℕ) (s : Pl011) :
    s.Reads C depth (C.uart0Base + fr) (s.status depth) := by
  rw [Reads, if_pos rfl, status]
  by_cases hp : s.pending = [] <;> by_cases hr : s.rx = [] <;>
    by_cases ht : s.tx.length < depth <;> simp [hp, hr, ht, frBusy, frRxfe, frTxff]

theorem takes_take (s : Pl011) : s.Takes s.take.1 s.take.2 := by
  unfold Takes take
  split
  · rfl
  · refine ⟨?_, rfl⟩
    dsimp only
    rw [BitVec.setWidth_setWidth_of_le _ (by decide), BitVec.setWidth_eq]

theorem access_of_answer {C : Chip} {depth : ℕ} {now : Word} {e : Op} {s : Pl011}
    {p : e.Answer × Pl011} (h : answer C depth now e s = some p) : access C depth e s p.1 p.2 := by
  cases e with
  | read32 addr =>
    obtain rfl := Option.some.inj h
    dsimp only [access]
    by_cases hdr : addr = C.uart0Base + dr
    · rw [if_pos hdr, load, if_pos hdr]
      exact takes_take s
    · rw [if_neg hdr, load, if_neg hdr]
      refine ⟨rfl, ?_⟩
      dsimp only
      by_cases hfr : addr = C.uart0Base + fr
      · rw [if_pos hfr, hfr]
        exact status_reads C depth s
      · rw [if_neg hfr]
        by_cases hcr : addr = C.uart0Base + Uart.cr
        · rw [if_pos hcr, Reads, if_neg hfr, if_pos hcr]
        · rw [if_neg hcr, Reads, if_neg hfr, if_neg hcr]
          trivial
  | write32 addr v =>
    obtain rfl := Option.some.inj h
    rfl
  | external f => cases h
  | read8 addr => cases h
  | write8 addr v => cases h

theorem step_of_send {depth : ℕ} {s s' : Pl011} (h : send depth s = some s') : Step depth s s' := by
  unfold send at h
  split at h
  · cases h
  · next b bs hline htx =>
    obtain rfl := Option.some.inj h
    exact .start hline htx
  · next b hline =>
    obtain rfl := Option.some.inj h
    split_ifs with hlbe
    · exact .loop hline hlbe
    · exact .out hline hlbe

/-- A schedule is a run: `true` is a step of the program, `false` one of the device. -/
theorem reach_of_play {C : Chip} {depth : ℕ} {α : Type} {c c' : Config Unit Op.Answer α Pl011}
    (now : Word) (ms : List Bool)
    (h : Machine.play (fun _ => answer C depth now) (fun (_ : Unit) => send depth) c
      (ms.map fun m => if m then .thread () else .env ()) = some c') :
    (machine C depth).Reach c c' := by
  have hacc : ∀ (t : Unit) (e : Op) (s : Pl011) (p : e.Answer × Pl011),
      answer C depth now e s = some p → (machine C depth).access t e s p.1 p.2 :=
    fun _ _ _ _ h => access_of_answer h
  exact Machine.Reach.of_play hacc (fun (_ : Unit) _ _ h => step_of_send h) _ h

end Pl011

/-- One byte there and back. -/
def echoByte : Prog UartOp.Answer Word :=
  .op (.writeByte 0xA5#8) fun _ => .op (.readByte 2000#32) fun (r : Word) => .ret r

/-- A UART in the loopback mode with nothing to do. -/
def looped : Pl011 := ⟨crUarten ||| crTxe ||| crRxe ||| crLbe, [], none, [], [], false, false⟩

theorem calls_deliver_echo : ∃ c : Config Unit Op.Answer Word Pl011,
    (Pl011.machine .rp2040 32).Reach
      ⟨looped, fun _ => echoByte.implement (UartOp.code .rp2040)⟩ c ∧
    c.threads () = .ret 0xA5#32 ∧ ∃ ts tr,
      (link 32).recorded.Reach ⟨(looped.link, []), fun _ => echoByte⟩ ⟨(c.shared.link, tr), ts⟩ ∧
      (∀ a, c.threads () = .ret a → ts () = .ret a) ∧
      (¬ looped.Lbe → looped.pin ++ looped.pending ++ written tr = c.shared.pin ++ c.shared.pending) ∧
      (looped.Lbe →
        List.Sublist (answered tr ++ words (c.shared.rx ++ c.shared.pending))
          (words (looped.rx ++ looped.pending ++ written tr)) ∧
        (c.shared.overrun = false → words (looped.rx ++ looped.pending ++ written tr)
          = answered tr ++ words (c.shared.rx ++ c.shared.pending))) ∧
      c.shared.misused = looped.misused := by
  have h : (Pl011.machine .rp2040 32).Reach _ _ := Pl011.reach_of_play
    (c := ⟨looped, fun _ => echoByte.implement (UartOp.code .rp2040)⟩) 0#32
    [true, true, true, false, false, true, true, true, true] rfl
  exact ⟨_, h, rfl, calls_deliver .rp2040 32 h⟩

end Uart
