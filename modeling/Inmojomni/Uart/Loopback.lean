import Inmojomni.Uart.Link

/-!
# The loopback mode

`loopback` is no single step for a program. It waits until the UART is idle, and only then, and only
while the UART is disabled, changes the mode, as the TRM asks for: so no byte is sent in one mode
and arrives in the other. Meanwhile the device makes steps of its own. What each phase of the call
can count on is that the device sends what it has, and that an idle UART in the loopback mode
receives nothing.
-/

namespace Uart

open Mmio Effect Multicore

/-- The internal TX->RX loopback. It drains, disables, flips LBE, then re-enables, and flushes what
the receiver has collected before. -/
def loopback (C : Chip) (enable : Bool) : Firmware Unit := do
  let _ ← Prog.poll (Op.read32 (C.uart0Base + fr)) fun (r : Word) => decide (r &&& frBusy = 0)
  let v ← read32 (C.uart0Base + cr)
  write32 (C.uart0Base + cr) (v &&& ~~~crUarten)
  let v := if enable then v ||| crLbe else v &&& ~~~crLbe
  write32 (C.uart0Base + cr) (v &&& ~~~crUarten)
  write32 (C.uart0Base + cr) (v ||| crUarten)
  if enable then
    Prog.loop (fun _ : Unit => do
      let b ← readByte C 300#32
      if b ≠ -1 then return .inl () else return .inr ()) ()
  else
    return ()

/-! ### Changing the mode -/

/-- What will have left by the pin when all that is pending has been sent. -/
def Link.leaving (s : Link) : List Byte := s.pin ++ if s.lbe then [] else s.pending

theorem Link.arrive_eq (depth : ℕ) (s : Link) (b : Byte) :
    (s.arrive depth b).lbe = s.lbe ∧ (s.arrive depth b).pending = s.pending ∧
      (s.arrive depth b).pin = s.pin := by
  unfold arrive
  split_ifs <;> exact ⟨rfl, rfl, rfl⟩

theorem Link.Step.leaving_eq {depth : ℕ} {s s' : Link} (h : Step depth s s') :
    s'.leaving = s.leaving := by
  cases h with
  | @loop b bs hp hl =>
    obtain ⟨hlbe, -, hpin⟩ := arrive_eq depth { s with pending := bs } b
    rw [leaving, leaving, hlbe, hpin, if_pos hl, if_pos hl]
  | @out b bs hp hl =>
    have hf : ¬ s.lbe = true := by rw [hl]; decide
    rw [leaving, leaving, if_neg hf, if_neg hf, hp, List.append_assoc, List.singleton_append]
  | receive b hl =>
    obtain ⟨hlbe, hpending, hpin⟩ := arrive_eq depth s b
    rw [leaving, leaving, hlbe, hpending, hpin]

/-- With nothing to be sent the link only receives, and not even that in the loopback mode. -/
theorem Link.Step.of_idle {depth : ℕ} {s s' : Link} (h : Step depth s s') (hp : s.pending = []) :
    s'.pending = [] ∧ s'.pin = s.pin ∧ s.lbe = false := by
  cases h with
  | loop hcons hl => exact absurd (hp.symm.trans hcons) (List.cons_ne_nil _ _).symm
  | out hcons hl => exact absurd (hp.symm.trans hcons) (List.cons_ne_nil _ _).symm
  | receive b hl =>
    obtain ⟨-, hpending, hpin⟩ := arrive_eq depth s b
    exact ⟨hpending.trans hp, hpin, hl⟩

namespace Pl011

variable {C : Chip} {depth : ℕ} {s₀ s s' : Pl011} {x : Word}

theorem Step.cr_eq (h : Step depth s s') : s'.cr = s.cr := by
  cases h with
  | start hline htx => rfl
  | loop hline hlbe =>
    unfold arrive
    split_ifs <;> rfl
  | out hline hlbe => rfl
  | receive b hlbe =>
    unfold arrive
    split_ifs <;> rfl

/-- The UART is sending what was pending in `s₀`. -/
structure Draining (s₀ s : Pl011) : Prop where
  cr : s.cr = s₀.cr
  leaving : s.link.leaving = s₀.link.leaving

/-- The UART is idle, with its bytes gone in the mode that it had in `s₀`, and UARTCR holds `x`. -/
structure Idle (s₀ : Pl011) (x : Word) (s : Pl011) : Prop where
  cr : s.cr = x
  pending : s.pending = []
  pin : s.pin = s₀.link.leaving

theorem Draining.stable : Stable (protocol C depth) () (Draining s₀) := by
  rintro s s' hr ⟨hcr, hleaving⟩
  refine ⟨(Step.cr_eq hr).trans hcr, ?_⟩
  obtain heq | hstep := Step.link_eq hr
  · rw [heq, hleaving]
  · rw [hstep.leaving_eq, hleaving]

/-- What the driver has read from UARTCR is there as long as it stores nothing else. -/
theorem Idle.stable : Stable (protocol C depth) () (Idle s₀ x) := by
  rintro s s' hr ⟨hcr, hpending, hpin⟩
  have hcr' := (Step.cr_eq hr).trans hcr
  obtain heq | hstep := Step.link_eq hr
  · exact ⟨hcr', (congrArg Link.pending heq).trans hpending, (congrArg Link.pin heq).trans hpin⟩
  · obtain ⟨hpending', hpin', -⟩ := hstep.of_idle hpending
    exact ⟨hcr', hpending', hpin'.trans hpin⟩

/-- An idle UART in the loopback mode receives nothing. -/
theorem Idle.stable_rx (hx : x &&& crLbe ≠ 0#32) {P : List Byte → Prop} :
    Stable (protocol C depth) () fun s => Idle s₀ x s ∧ P s.rx := by
  rintro s s' hr ⟨hidle, hP⟩
  refine ⟨Idle.stable s s' hr hidle, ?_⟩
  have hlbe : s.Lbe := by rw [Lbe, hidle.cr]; exact hx
  obtain heq | hstep := Step.link_eq hr
  · have hrx : s'.rx = s.rx := congrArg Link.rx heq
    rw [hrx]
    exact hP
  · obtain ⟨-, -, hf⟩ := hstep.of_idle hidle.pending
    exact absurd hlbe (of_decide_eq_false hf)

theorem cr_ne_dr (C : Chip) : C.uart0Base + Uart.cr ≠ C.uart0Base + dr := by
  cases C <;> decide

/-- The polling of BUSY: it ends with an idle UART. -/
theorem drain_spec :
    Triple (protocol C depth) () (Draining s₀)
      (Prog.poll (Op.read32 (C.uart0Base + fr)) fun (r : Word) => decide (r &&& frBusy = 0))
      fun _ => Idle s₀ s₀.cr := by
  refine Triple.poll Draining.stable (fun _ => Idle.stable) fun s r s' hs ha => ?_
  obtain ⟨rfl, hreads⟩ := access_glance (fr_ne_dr C) ha
  have hproper : Proper C depth (.read32 (C.uart0Base + fr)) s' := glance_proper (fr_ne_dr C)
  refine ⟨hproper, ?_⟩
  split
  case isTrue hidle =>
    have hp : s'.pending = [] := (reads_fr hreads).1.mp (of_decide_eq_true hidle)
    have hp' : s'.link.pending = [] := hp
    have hleaving := hs.leaving
    rw [Link.leaving, hp', ite_self, List.append_nil] at hleaving
    exact ⟨hs.cr, hp, hleaving⟩
  case isFalse => exact hs

/-- A store to UARTCR of an idle UART, which changes the mode only if the UART is disabled. -/
theorem control_spec (v : Word)
    (h : ((v &&& crLbe ≠ 0#32) ↔ (x &&& crLbe ≠ 0#32)) ∨ x &&& crUarten = 0#32) :
    Triple (protocol C depth) () (Idle s₀ x) (write32 (C.uart0Base + Uart.cr) v)
      fun _ => Idle s₀ v := by
  refine Triple.call Idle.stable (fun _ => Idle.stable) fun s r s' hs ha => ?_
  have hproper : Proper C depth (.write32 (C.uart0Base + Uart.cr) v) s := by
    refine ⟨fun heq => absurd heq (cr_ne_dr C), fun _ => ?_⟩
    rw [Lbe, Enabled, hs.cr, not_not]
    exact h.imp id fun h => ⟨h, hs.pending⟩
  refine ⟨hproper, ?_⟩
  have hs' : s' = s.control v := by
    have := ha
    dsimp only [machine, access] at this
    rwa [if_neg (cr_ne_dr C), if_pos rfl] at this
  rw [hs']
  exact ⟨rfl, hs.pending, hs.pin⟩

/-- A read of a byte from an idle UART in the loopback mode: it answers -1 only if there is none. -/
theorem readByte_idle_spec (hx : x &&& crLbe ≠ 0#32) (timeoutUs : Word) :
    Triple (protocol C depth) () (Idle s₀ x) (readByte C timeoutUs)
      fun r s => Idle s₀ x s ∧ (r = -1 → s.rx = []) := by
  have hE : Stable (protocol C depth) () fun s => Idle s₀ x s ∧ s.rx = [] :=
    Idle.stable_rx hx (P := (· = []))
  have hA : Stable (protocol C depth) () fun s => Idle s₀ x s ∧ s.rx ≠ [] :=
    Idle.stable_rx hx (P := (· ≠ []))
  have hwait : Triple (protocol C depth) () (Idle s₀ x) (waitByte C timeoutUs) fun arrived =>
      if arrived then fun s => Idle s₀ x s ∧ s.rx ≠ [] else fun s => Idle s₀ x s ∧ s.rx = [] := by
    refine waitByte_rule Idle.stable hE hA (fun _ hs => hs.1) ?_ ?_ timeoutUs
    · intro Q _ s r s' hs ha
      obtain ⟨rfl, -⟩ := access_glance (time_ne_dr C) ha
      exact ⟨fun heq => absurd heq (time_ne_dr C), hs⟩
    · intro s r s' hs ha
      obtain ⟨rfl, hreads⟩ := access_glance (fr_ne_dr C) ha
      refine ⟨fun heq => absurd heq (fr_ne_dr C), ?_⟩
      split
      case isTrue hempty => exact ⟨hs, (reads_fr hreads).2.1.mp hempty⟩
      case isFalse hset => exact ⟨hs, fun hnil => hset ((reads_fr hreads).2.1.mpr hnil)⟩
  refine hwait.bind fun arrived => ?_
  have hst : ∀ φ : Prop, Stable (protocol C depth) () fun s => Idle s₀ x s ∧ (φ → s.rx = []) :=
    fun φ => Idle.stable_rx hx (P := fun rx => φ → rx = [])
  cases arrived with
  | true =>
    have hread : Triple (protocol C depth) () (fun s => Idle s₀ x s ∧ s.rx ≠ [])
        (read32 (C.uart0Base + dr)) fun _ => Idle s₀ x := by
      refine Triple.call hA (fun _ => Idle.stable) fun s r s' hs ha => ?_
      obtain ⟨b, bs, hrx, hb, rfl⟩ := access_take hs.2 ha
      exact ⟨fun _ => hs.2, hs.1.cr, hs.1.pending, hs.1.pin⟩
    refine hread.bind fun v => Triple.ret Idle.stable fun s hs => ⟨hs, fun hneg => ?_⟩
    exact absurd ((and_mask_eq rfl).symm.trans hneg) (setWidth_ne _)
  | false => exact Triple.ret hE fun s hs => ⟨hs.1, fun _ => hs.2⟩

/-- What UARTCR holds when `loopback` is through with it. -/
def switched (x : Word) (enable : Bool) : Word :=
  (if enable then x ||| crLbe else x &&& ~~~crLbe) ||| crUarten

theorem and_not_uarten (v : Word) : (v &&& ~~~crUarten) &&& crLbe = v &&& crLbe :=
  BitVec.and_not_and (by decide) v

theorem or_uarten (v : Word) : (v ||| crUarten) &&& crLbe = v &&& crLbe := by
  rw [BitVec.and_comm, BitVec.and_or_distrib_left, show crLbe &&& crUarten = 0#32 by decide,
    BitVec.or_zero, BitVec.and_comm]

/-- The mode is as asked. -/
theorem switched_lbe (x : Word) (enable : Bool) :
    switched x enable &&& crLbe ≠ 0#32 ↔ enable = true := by
  rw [switched, or_uarten]
  cases enable with
  | true =>
    rw [if_pos rfl, BitVec.or_and_self]
    decide
  | false =>
    rw [if_neg Bool.false_ne_true, BitVec.and_not_and_self]
    decide

/-- Where `loopback` leaves the UART: enabled, in the mode asked for, with nothing to be sent and,
in the loopback mode, nothing received; what was pending has left in the mode of before. -/
def Switched (s₀ : Pl011) (enable : Bool) (s : Pl011) : Prop :=
  Idle s₀ (switched s₀.cr enable) s ∧ (enable = true → s.rx = [])

theorem loopback_spec (enable : Bool) :
    Triple (protocol C depth) () (Draining s₀) (loopback C enable) fun _ => Switched s₀ enable := by
  have hread : Triple (protocol C depth) () (Idle s₀ s₀.cr) (read32 (C.uart0Base + Uart.cr))
      fun v s => v = s₀.cr ∧ Idle s₀ s₀.cr s := by
    refine Triple.call Idle.stable (fun v s s' hr hs => ⟨hs.1, Idle.stable s s' hr hs.2⟩) ?_
    intro s r s' hs ha
    obtain ⟨rfl, hreads⟩ := access_glance (cr_ne_dr C) ha
    exact ⟨fun heq => absurd heq (cr_ne_dr C), (reads_cr hreads).trans hs.cr, hs⟩
  refine drain_spec.bind fun _ => hread.bind fun v => Triple.assume fun hv => ?_
  subst hv
  refine (control_spec _ (.inl ?_)).bind fun _ => (control_spec _ (.inr ?_)).bind fun _ =>
    (control_spec _ (.inl ?_)).bind fun _ => ?_
  · rw [and_not_uarten]
  · exact BitVec.and_not_and_self _ _
  · rw [and_not_uarten, or_uarten]
  change Triple _ () (Idle s₀ (switched s₀.cr enable)) _ _
  cases enable with
  | true =>
    have hx := (switched_lbe s₀.cr true).mpr rfl
    have hst : ∀ φ : Prop, Stable (protocol C depth) () fun s =>
        Idle s₀ (switched s₀.cr true) s ∧ (φ → s.rx = []) :=
      fun φ => Idle.stable_rx hx (P := fun rx => φ → rx = [])
    refine Triple.loop (I := fun _ => Idle s₀ (switched s₀.cr true))
      (J := fun _ => Switched s₀ true) (fun _ => Idle.stable) (fun _ => hst _) (fun _ => ?_) ()
    refine (readByte_idle_spec hx 300#32).bind fun b => ?_
    split
    case isTrue hb => exact Triple.ret (hst _) fun s hs => hs.1
    case isFalse hb =>
      exact Triple.ret (hst _) fun s hs => ⟨hs.1, fun _ => hs.2 (not_not.mp hb)⟩
  | false =>
    exact Triple.ret Idle.stable fun s hs => ⟨hs, fun h => absurd h Bool.false_ne_true⟩

end Pl011

/-- A UART outside the loopback mode with nothing to do. -/
def unlooped : Pl011 := ⟨crUarten ||| crTxe ||| crRxe, [], none, [], [], false, false⟩

/-- **Changing the mode.** Whatever the UART is doing when `loopback` is called, and whatever it
does meanwhile, the mode changes only while it is disabled and idle. When the call returns the UART
is enabled in the mode asked for and idle, what was pending has all been sent in the mode of before,
and in the loopback mode the receiver is empty. -/
theorem loopback_switches (C : Chip) (depth : ℕ) (enable : Bool) {s₀ : Pl011}
    {c : Config Unit Op.Answer Unit Pl011}
    (hc : (Pl011.machine C depth).Reach ⟨s₀, fun _ => loopback C enable⟩ c) :
    c.shared.misused = s₀.misused ∧
      (c.threads () = .ret () →
        (c.shared.Lbe ↔ enable = true) ∧ c.shared.Enabled ∧ c.shared.pending = [] ∧
        c.shared.pin = s₀.pin ++ (if s₀.Lbe then [] else s₀.pending) ∧
        (enable = true → c.shared.rx = [])) := by
  have hspec : ∀ t, Triple (Pl011.protocol C depth) t (Pl011.Draining s₀) (loopback C enable)
      fun _ => Pl011.Switched s₀ enable := fun _ => Pl011.loopback_spec enable
  have hstart : ∀ _ : Unit, Pl011.Draining s₀ s₀ := fun _ => ⟨rfl, rfl⟩
  constructor
  · refine (Pl011.protocol C depth).invariant (I := fun s => s.misused = s₀.misused) hspec hstart
      rfl ?_ (fun s s' h hs => (Pl011.misused_step h).trans hs) hc
    intro t e s r s' ha hproper hs
    exact (Pl011.misused_access hproper ha).trans hs
  · intro hend
    have hsafe := (Pl011.protocol C depth).sound hspec hstart hc ()
    obtain ⟨⟨hcr, hpending, hpin⟩, hrx⟩ := Safe.result hsafe hend
    refine ⟨?_, ?_, hpending, ?_, hrx⟩
    · rw [Pl011.Lbe, hcr]
      exact Pl011.switched_lbe s₀.cr enable
    · rw [Pl011.Enabled, hcr, Pl011.switched, BitVec.or_and_self]
      decide
    · rw [hpin, Link.leaving]
      by_cases hlbe : s₀.Lbe
      · rw [if_pos hlbe, if_pos (show s₀.link.lbe = true from decide_eq_true hlbe)]
        rfl
      · rw [if_neg hlbe, if_neg (show ¬ s₀.link.lbe = true by simpa [Pl011.link] using hlbe)]
        rfl

/-- Out of the loopback mode, with a byte under way; and into it, with a byte in the receiver. -/
theorem loopback_switches_both :
    (∃ c : Config Unit Op.Answer Unit Pl011,
      (Pl011.machine .rp2040 32).Reach
        ⟨{ looped with tx := [0x41#8] }, fun _ => loopback .rp2040 false⟩ c ∧
      c.threads () = .ret () ∧ c.shared.misused = false ∧ ¬ c.shared.Lbe ∧ c.shared.Enabled ∧
      c.shared.pending = [] ∧ c.shared.pin = []) ∧
    ∃ c : Config Unit Op.Answer Unit Pl011,
      (Pl011.machine .rp2040 32).Reach
        ⟨{ unlooped with rx := [0#8] }, fun _ => loopback .rp2040 true⟩ c ∧
      c.threads () = .ret () ∧ c.shared.misused = false ∧ c.shared.Lbe ∧ c.shared.Enabled ∧
      c.shared.pending = [] ∧ c.shared.rx = [] := by
  constructor
  · have h : (Pl011.machine .rp2040 32).Reach _ _ := Pl011.reach_of_play
      (c := ⟨{ looped with tx := [0x41#8] }, fun _ => loopback .rp2040 false⟩) 0#32
      [true, true, true, false, true, true, false, true, true, true, true, true] rfl
    obtain ⟨hmisused, hdone⟩ := loopback_switches .rp2040 32 false h
    obtain ⟨hlbe, henabled, hpending, hpin, -⟩ := hdone rfl
    exact ⟨_, h, rfl, hmisused, fun hx => absurd (hlbe.mp hx) Bool.false_ne_true, henabled,
      hpending, hpin⟩
  · -- the second attempt to read has begun when 301 microseconds pass
    have h : (Pl011.machine .rp2040 32).Reach _ _ := (Pl011.reach_of_play
      (c := ⟨{ unlooped with rx := [0#8] }, fun _ => loopback .rp2040 true⟩) 0#32
      (List.replicate 15 true) rfl).trans (Pl011.reach_of_play 301#32 [true] rfl)
    obtain ⟨hmisused, hdone⟩ := loopback_switches .rp2040 32 true h
    obtain ⟨hlbe, henabled, hpending, -, hrx⟩ := hdone rfl
    exact ⟨_, h, rfl, hmisused, hlbe.mpr rfl, henabled, hpending, hrx rfl⟩

end Uart
