import Inmojomni.Effect.Atomic
import Inmojomni.Effect.History
import Inmojomni.Multicore
import Inmojomni.Sync

/-!
# The inter-core FIFOs as channels

SIO has a FIFO towards each core. `fifo_push` polls its status until there is room, or until a
timeout, and then writes a word; `fifo_pop` polls until there is data and then reads one. Between
the last poll and the access the other core may push and pop as well.

`fifos` is the hardware, accessed by both cores; `channels` is what the calls are for: two bounded
queues, on which a push and a pop are single steps that fail without effect or do what they are
named after. What makes it work is what each core may do to the FIFOs of the other: it takes words
out of the one and puts words into the other, so that room seen stays room and data seen stays
data. So whatever programs the cores run, and whatever the interleaving, `fifos` simulates
`channels`, no word is written into a full FIFO and none is read from an empty one.
-/

/-- The other core. -/
def Core.peer : Core → Core
  | .core0 => .core1
  | .core1 => .core0

theorem Core.peer_ne (t : Core) : t.peer ≠ t := by
  cases t <;> decide

theorem Core.eq_peer {t u : Core} (h : t ≠ u) : u = t.peer := by
  cases t <;> cases u <;> first | rfl | exact absurd rfl h

@[simp] theorem Core.peer_peer (t : Core) : t.peer.peer = t := by
  cases t <;> rfl

namespace Multicore

open Mmio Effect

/-! ### The calls -/

/-- The calls that a program makes of the FIFOs. -/
inductive FifoOp
  | push (v timeoutUs : Word)
  | pop (timeoutUs : Word)

/-- `fifo_push` tells whether it succeeded, `fifo_pop` also with which word. -/
def FifoOp.Answer : FifoOp → Type
  | push _ _ => Bool
  | pop _ => Bool × Word

/-- The code behind a call. -/
def FifoOp.code (C : Chip) : (e : FifoOp) → Firmware e.Answer
  | .push v timeoutUs => fifoPush C v timeoutUs
  | .pop timeoutUs => fifoPop C timeoutUs

/-- Two bounded queues, one towards each core, on which a call is one step. A call that fails has no
effect. -/
def channels (depth : ℕ) : Machine Core FifoOp.Answer (Core → List Word) where
  access
    | t, .push v _, q, (ok : Bool), q' =>
      if ok then
        (q t.peer).length < depth ∧ q' = Function.update q t.peer (q t.peer ++ [v])
      else q' = q
    | t, .pop _, q, (r : Bool × Word), q' =>
      if r.1 then q t = r.2 :: q' t ∧ q' t.peer = q t.peer else r.2 = 0#32 ∧ q' = q

/-! ### The hardware -/

/-- The words on their way to each core, and whether ever a word was written into a full FIFO or
read from an empty one. -/
structure Fifos where
  rx : Core → List Word
  misused : Bool

namespace Fifos

variable (C : Chip) (depth : ℕ)

/-- A load of FIFO_RD by core `t`. -/
def Pops (t : Core) (s : Fifos) (r : Word) (s' : Fifos) : Prop :=
  match s.rx t with
  | [] => s' = { s with misused := true }
  | v :: vs => r = v ∧ s' = { s with rx := Function.update s.rx t vs }

/-- How an access of core `t` is answered and what it does. The code here makes word accesses
only, and what is behind the other addresses is left open. -/
def access (t : Core) : (e : Op) → Fifos → e.Answer → Fifos → Prop
  | .read32 addr, s, (r : Word), s' =>
    if addr = C.sioFifoRd then Pops t s r s'
    else if addr = C.sioFifoSt then
      s' = s ∧ (r &&& stVld ≠ 0#32 ↔ s.rx t ≠ []) ∧
        (r &&& stRdy ≠ 0#32 ↔ (s.rx t.peer).length < depth)
    else s' = s
  | .write32 addr v, s, _, s' =>
    if addr = C.sioFifoWr then
      if (s.rx t.peer).length < depth then
        s' = { s with rx := Function.update s.rx t.peer (s.rx t.peer ++ [v]) }
      else s' = { s with misused := true }
    else s' = s
  | .external _, s, _, s' => s' = s
  | .read8 _, _, _, _ => False
  | .write8 _ _, _, _, _ => False

/-- Both cores on the FIFOs. -/
def fifos : Machine Core Op.Answer Fifos where
  access := access C depth

/-- What an access may do: write where there is room, and read where there is data. -/
def Proper (t : Core) (e : Op) (s : Fifos) : Prop :=
  match e with
  | .read32 addr => addr = C.sioFifoRd → s.rx t ≠ []
  | .write32 addr _ => addr = C.sioFifoWr → (s.rx t.peer).length < depth
  | _ => True

/-- The other core may add to what is on the way to `t`, and take from what `t` has sent. -/
def Tolerates (t : Core) (s s' : Fifos) : Prop :=
  s.rx t <+: s'.rx t ∧ s'.rx t.peer <:+ s.rx t.peer

variable {C depth} {t u : Core} {s s' : Fifos}

theorem Tolerates.refl (t : Core) (s : Fifos) : Tolerates t s s :=
  ⟨List.prefix_rfl, List.suffix_rfl⟩

/-- An access at neither end of the FIFOs. -/
def Apart (C : Chip) : Op → Prop
  | .read32 addr => addr ≠ C.sioFifoRd
  | .write32 addr _ => addr ≠ C.sioFifoWr
  | .external _ => True
  | _ => False

theorem Apart.eq {e : Op} {r : e.Answer} (h : Apart C e) (ha : access C depth t e s r s') :
    s' = s := by
  cases e with
  | read32 addr =>
    dsimp only [access] at ha
    rw [if_neg h] at ha
    split at ha
    · exact ha.1
    · exact ha
  | write32 addr v =>
    rw [access, if_neg h] at ha
    exact ha
  | external f => exact ha
  | read8 addr => exact absurd ha id
  | write8 addr v => exact absurd ha id

/-- What a proper access does: a core takes the oldest word that came to it, or sends one. -/
theorem access_cases {e : Op} {r : e.Answer} (h : Proper C depth t e s)
    (ha : access C depth t e s r s') :
    s' = s ∨
    (∃ vs v, s.rx t = v :: vs ∧ s' = { s with rx := Function.update s.rx t vs }) ∨
    (∃ v, s' = { s with rx := Function.update s.rx t.peer (s.rx t.peer ++ [v]) }) := by
  by_cases hapart : Apart C e
  · exact .inl (hapart.eq ha)
  cases e with
  | read32 addr =>
    obtain rfl := not_not.mp hapart
    dsimp only [access] at ha
    rw [if_pos rfl] at ha
    unfold Pops at ha
    split at ha
    · next hnil => exact absurd hnil (h rfl)
    · next v vs hcons => exact .inr (.inl ⟨vs, v, hcons, ha.2⟩)
  | write32 addr v =>
    obtain rfl := not_not.mp hapart
    rw [access, if_pos rfl, if_pos (h rfl)] at ha
    exact .inr (.inr ⟨v, ha⟩)
  | external f => exact absurd trivial hapart
  | read8 addr => exact absurd ha id
  | write8 addr v => exact absurd ha id

/-- The division of labour: each core at its own end of each FIFO. -/
def protocol (C : Chip) (depth : ℕ) : Protocol (fifos C depth) where
  rely := Tolerates
  guar t e s _ _ := Proper C depth t e s
  guar_rely := by
    intro t u e s s' r htu ha hp
    obtain rfl := Core.eq_peer htu
    obtain rfl | ⟨vs, v, hcons, rfl⟩ | ⟨v, rfl⟩ := access_cases hp ha
    · exact .refl _ _
    · refine ⟨?_, ?_⟩
      · dsimp only
        rw [Function.update_of_ne t.peer_ne]
      · dsimp only
        rw [Core.peer_peer, Function.update_self, hcons]
        exact List.suffix_cons v vs
    · refine ⟨?_, ?_⟩
      · dsimp only
        rw [Function.update_self]
        exact List.prefix_append _ _
      · dsimp only
        rw [Core.peer_peer, Function.update_of_ne t.peer_ne.symm]
  env_rely := fun h => absurd h id

/-! ### The calls take effect at one point -/

/-- A push takes effect when it writes its word, and a pop when it reads one. -/
def commit (C : Chip) : (e' : FifoOp) → (e : Op) → e.Answer → Option e'.Answer
  | .push _ _, .write32 addr _, _ => if addr = C.sioFifoWr then some true else none
  | .pop _, .read32 addr, (r : Word) => if addr = C.sioFifoRd then some (true, r) else none
  | _, _, _ => none

theorem Apart.commit_eq {e : Op} (h : Apart C e) (e' : FifoOp) (r : e.Answer) :
    commit C e' e r = none := by
  cases e' <;> cases e <;> first | rfl | exact if_neg h

theorem Apart.proper {e : Op} (h : Apart C e) : Proper C depth t e s := by
  cases e <;> first | exact trivial | exact fun heq => absurd heq h

/-- How what the cores do on the FIFOs is read as calls on the queues. -/
def linearization (C : Chip) (depth : ℕ) : Linearization (fifos C depth) (channels depth) where
  abs := rx
  protocol := protocol C depth
  inv _ _ := True
  commit := fun e' e r _ => commit C e' e r
  inv_stable := fun _ _ _ _ => trivial
  env_abs := fun h => absurd h id

section Calls

variable {e' : FifoOp}

/-- Inside a call that has taken effect with the answer `g`, or with none not yet. -/
abbrev Within (P : Fifos → Prop) (g : Option e'.Answer) (s : Fifos × Option e'.Answer) : Prop :=
  P s.1 ∧ s.2 = g

variable {g : Option e'.Answer}

/-- An access at neither end is of no account. -/
theorem Apart.call {e : Op} (h : Apart C e) {P : Fifos → Prop}
    (hP : Stable (protocol C depth) t P) :
    Triple ((linearization C depth).duty t e') () (Within P g) (Prog.call e)
      fun _ => Within P g := by
  have hst := (linearization C depth).stable_duty e' g hP
  refine Triple.call hst (fun _ => hst) fun s r s' hs ha => ?_
  have heq : s'.1 = s.1 := h.eq ha.1
  have hnone : (linearization C depth).commit e' e r s.1 = none := h.commit_eq e' r
  have hs' := ha.2
  rw [hnone, Option.none_or] at hs'
  refine ⟨⟨h.proper, ?_⟩, ?_, ?_⟩
  · rw [hnone, heq]
    exact rfl
  · rw [heq]
    exact hs.1
  · rw [hs']
    exact hs.2

theorem ticks_spec {P : Fifos → Prop} (hP : Stable (protocol C depth) t P) :
    Triple ((linearization C depth).duty t e') () (Within P g) (ticks C) fun _ => Within P g := by
  cases C with
  | rp2040 => exact Apart.call (e := .read32 _) (by unfold Apart; decide) hP
  | rp2350 => exact Apart.call (e := .external .readMcycle) trivial hP

theorem sev_spec {P : Fifos → Prop} (hP : Stable (protocol C depth) t P) :
    Triple ((linearization C depth).duty t e') () (Within P g) sev fun _ => Within P g :=
  Apart.call (e := .external .picoSev) trivial hP

theorem stable_true : Stable (protocol C depth) t fun _ => True := fun _ _ _ _ => trivial

/-- Data seen stays data: only core `t` takes it. -/
theorem stable_data : Stable (protocol C depth) t fun s => s.rx t ≠ [] := by
  intro s s' hr hne hnil
  have hpre : s.rx t <+: s'.rx t := hr.1
  rw [hnil] at hpre
  exact hne (List.prefix_nil.mp hpre)

/-- Room seen stays room: only core `t` fills it. -/
theorem stable_room : Stable (protocol C depth) t fun s => (s.rx t.peer).length < depth :=
  fun _ _ hr hlt => (List.IsSuffix.length_le hr.2).trans_lt hlt

theorem status_apart (C : Chip) : Apart C (.read32 C.sioFifoSt) := by
  cases C <;> unfold Apart <;> decide

theorem access_status {r : Word} (ha : access C depth t (.read32 C.sioFifoSt) s r s') :
    (r &&& stVld ≠ 0#32 ↔ s.rx t ≠ []) ∧ (r &&& stRdy ≠ 0#32 ↔ (s.rx t.peer).length < depth) := by
  have hne : C.sioFifoSt ≠ C.sioFifoRd := status_apart C
  dsimp only [access] at ha
  rw [if_neg hne, if_pos rfl] at ha
  exact ha.2

/-- **Waiting.** It answers `true` only if the bit was set, which then says `P` for good. -/
theorem wait_spec {bit : Word} {P : Fifos → Prop} (hP : Stable (protocol C depth) t P)
    (hbit : ∀ s s' (r : Word), access C depth t (.read32 C.sioFifoSt) s r s' →
      r &&& bit ≠ 0#32 → P s) (timeoutUs : Word) :
    Triple ((linearization C depth).duty t e') () (Within (fun _ => True) none)
      (fifoWait C bit timeoutUs) fun ok => Within (fun s => ok = true → P s) none := by
  have htrue : Stable (protocol C depth) t fun _ => True := stable_true
  have hst := (linearization C depth).stable_duty e' none htrue
  have himp : ∀ φ : Prop, Stable (protocol C depth) t fun s => φ → P s :=
    fun φ s s' hr h hφ => hP s s' hr (h hφ)
  have hstP := fun φ => (linearization C depth).stable_duty e' none (himp φ)
  refine (ticks_spec stable_true).bind fun t₀ => ?_
  refine Triple.loop (I := fun _ => Within (fun _ => True) none)
    (J := fun ok => Within (fun s => ok = true → P s) none) (fun _ => hst) (fun _ => hstP _) ?_ ()
  intro _
  -- a round: the status, and if the bit is clear the time
  refine Triple.op (e := Op.read32 C.sioFifoSt) (P := Within (fun _ => True) none)
    (K := fun (r : Word) => Within (fun s => r &&& bit ≠ 0#32 → P s) none) hst ?_ ?_
  · rintro s r s' ⟨-, hnone⟩ ⟨ha, hs'⟩
    have heq : s'.1 = s.1 := (status_apart C).eq ha
    have hc : (linearization C depth).commit e' (.read32 C.sioFifoSt) r s.1 = none :=
      (status_apart C).commit_eq e' r
    have hproper : Proper C depth t (.read32 C.sioFifoSt) s.1 := (status_apart C).proper
    rw [hc, Option.none_or] at hs'
    refine ⟨⟨hproper, ?_⟩, ?_, hs'.trans hnone⟩
    · rw [hc, heq]
      exact rfl
    · rw [heq]
      exact hbit s.1 s'.1 r ha
  · intro (r : Word)
    change Triple _ () _ (if r &&& bit = 0#32 then _ else _) _
    split
    case isTrue hzero =>
      refine ((ticks_spec stable_true).pre fun s hs => ⟨trivial, hs.2⟩).bind fun now => ?_
      split
      · exact Triple.ret hst fun s hs => ⟨fun h => absurd h (by decide), hs.2⟩
      · exact Triple.ret hst fun s hs => hs
    case isFalse hset => exact Triple.ret (hstP _) fun s hs => ⟨fun _ => hs.1 hset, hs.2⟩

theorem access_write {v : Word} {r : (Op.write32 C.sioFifoWr v).Answer}
    (h : (s.rx t.peer).length < depth) (ha : access C depth t (.write32 C.sioFifoWr v) s r s') :
    s'.rx = Function.update s.rx t.peer (s.rx t.peer ++ [v]) := by
  dsimp only [access] at ha
  rw [if_pos rfl, if_pos h] at ha
  rw [ha]

theorem access_read {r : Word} (h : s.rx t ≠ [])
    (ha : access C depth t (.read32 C.sioFifoRd) s r s') :
    s.rx t = r :: s'.rx t ∧ s'.rx t.peer = s.rx t.peer := by
  dsimp only [access] at ha
  rw [if_pos rfl] at ha
  unfold Pops at ha
  split at ha
  · next hnil => exact absurd hnil h
  · next v vs hcons =>
    obtain ⟨rfl, rfl⟩ := ha
    dsimp only
    rw [Function.update_self, Function.update_of_ne t.peer_ne]
    exact ⟨hcons, rfl⟩

theorem push_spec (v timeoutUs : Word) :
    Triple ((linearization C depth).duty t (.push v timeoutUs)) () (Within (fun _ => True) none)
      (fifoPush C v timeoutUs) ((linearization C depth).Done t (.push v timeoutUs)) := by
  have hwait : Triple ((linearization C depth).duty t (.push v timeoutUs)) ()
      (Within (fun _ => True) none) (fifoWait C stRdy timeoutUs)
      fun ok => Within (fun s => ok = true → (s.rx t.peer).length < depth) none :=
    wait_spec stable_room (fun _ _ _ ha hset => (access_status ha).2.mp hset) timeoutUs
  have hst : ∀ g, Stable ((linearization C depth).duty t (.push v timeoutUs)) ()
      (Within (fun _ => True) g) := fun g => (linearization C depth).stable_duty _ g stable_true
  refine hwait.bind fun ok => ?_
  split
  case isTrue hok =>
    subst hok
    have hroom : Stable ((linearization C depth).duty t (.push v timeoutUs)) ()
        (Within (fun s => (s.rx t.peer).length < depth) none) :=
      (linearization C depth).stable_duty _ none stable_room
    -- the word goes out: here the push takes effect
    have hwrite : Triple ((linearization C depth).duty t (.push v timeoutUs)) ()
        (Within (fun s => (s.rx t.peer).length < depth) none) (write32 C.sioFifoWr v)
        fun _ => Within (fun _ => True) (some true) := by
      refine Triple.call hroom (fun _ => hst _) fun s r s' hs ha => ?_
      have hc : (linearization C depth).commit (.push v timeoutUs) (.write32 C.sioFifoWr v) r s.1
          = some true := if_pos rfl
      have hproper : Proper C depth t (.write32 C.sioFifoWr v) s.1 := fun _ => hs.1
      have hs' := ha.2
      rw [hc] at hs'
      refine ⟨⟨hproper, ?_⟩, trivial, hs'⟩
      rw [hc]
      exact ⟨hs.2, hs.1, access_write (r := r) hs.1 ha.1⟩
    refine (hwrite.pre fun s hs => ⟨hs.1 rfl, hs.2⟩).bind fun _ => ?_
    refine (sev_spec stable_true).bind fun _ => ?_
    exact Triple.ret (hst _) fun s hs => ⟨trivial, .inl hs.2⟩
  case isFalse hok =>
    refine Triple.ret (P := Within (fun _ => True) none) (hst _) (fun s hs => ?_) |>.pre
      fun s hs => ⟨trivial, hs.2⟩
    exact ⟨trivial, .inr ⟨hs.2, rfl⟩⟩

theorem pop_spec (timeoutUs : Word) :
    Triple ((linearization C depth).duty t (.pop timeoutUs)) () (Within (fun _ => True) none)
      (fifoPop C timeoutUs) ((linearization C depth).Done t (.pop timeoutUs)) := by
  have hwait : Triple ((linearization C depth).duty t (.pop timeoutUs)) ()
      (Within (fun _ => True) none) (fifoWait C stVld timeoutUs)
      fun ok => Within (fun s => ok = true → s.rx t ≠ []) none :=
    wait_spec stable_data (fun _ _ _ ha hset => (access_status ha).1.mp hset) timeoutUs
  have hst : ∀ g, Stable ((linearization C depth).duty t (.pop timeoutUs)) ()
      (Within (fun _ => True) g) := fun g => (linearization C depth).stable_duty _ g stable_true
  refine hwait.bind fun ok => ?_
  split
  case isTrue hok =>
    subst hok
    have hdata : Stable ((linearization C depth).duty t (.pop timeoutUs)) ()
        (Within (fun s => s.rx t ≠ []) none) :=
      (linearization C depth).stable_duty _ none stable_data
    -- the word comes in: here the pop takes effect
    have hread : Triple ((linearization C depth).duty t (.pop timeoutUs)) ()
        (Within (fun s => s.rx t ≠ []) none) (read32 C.sioFifoRd)
        fun v => Within (fun _ => True) (some (true, v)) := by
      refine Triple.call hdata (fun _ => hst _) fun s r s' hs ha => ?_
      have hc : (linearization C depth).commit (.pop timeoutUs) (.read32 C.sioFifoRd) r s.1
          = some (true, r) := if_pos rfl
      have hproper : Proper C depth t (.read32 C.sioFifoRd) s.1 := fun _ => hs.1
      have hs' := ha.2
      rw [hc] at hs'
      refine ⟨⟨hproper, ?_⟩, trivial, hs'⟩
      rw [hc]
      exact ⟨hs.2, access_read hs.1 ha.1⟩
    refine (hread.pre fun s hs => ⟨hs.1 rfl, hs.2⟩).bind fun v => ?_
    exact Triple.ret (hst _) fun s hs => ⟨trivial, .inl hs.2⟩
  case isFalse hok =>
    refine Triple.ret (P := Within (fun _ => True) none) (hst _) (fun s hs => ?_) |>.pre
      fun s hs => ⟨trivial, hs.2⟩
    exact ⟨trivial, .inr ⟨hs.2, rfl, rfl⟩⟩

/-- **Each call is one step.** -/
theorem atomic (C : Chip) (depth : ℕ) : (linearization C depth).Atomic (FifoOp.code C) := by
  intro t e'
  cases e' with
  | push v timeoutUs => exact push_spec v timeoutUs
  | pop timeoutUs => exact pop_spec timeoutUs

end Calls

end Fifos

theorem FifoOp.code_ne_ret (C : Chip) (e : FifoOp) (a : e.Answer) : FifoOp.code C e ≠ .ret a := by
  cases e <;> cases C <;> rintro ⟨⟩

/-! ### The words on record -/

/-- The words that core `t` has sent, oldest first. -/
def sent (t : Core) : List (Event Core FifoOp.Answer) → List Word
  | [] => []
  | ⟨u, .push v _, (ok : Bool)⟩ :: tr => if u = t ∧ ok then sent t tr ++ [v] else sent t tr
  | ⟨_, .pop _, _⟩ :: tr => sent t tr

/-- The words that core `t` has received, oldest first. -/
def received (t : Core) : List (Event Core FifoOp.Answer) → List Word
  | [] => []
  | ⟨_, .push _ _, _⟩ :: tr => received t tr
  | ⟨u, .pop _, (r : Bool × Word)⟩ :: tr =>
    if u = t ∧ r.1 then received t tr ++ [r.2] else received t tr

/-- Nothing is lost, duplicated or overtaken: what was in the FIFO at the start and what the other
core has sent is what core `t` has received and what is still under way. -/
def InOrder (q₀ : Core → List Word) (s : (Core → List Word) × List (Event Core FifoOp.Answer)) :
    Prop :=
  ∀ t : Core, q₀ t ++ sent t.peer s.2 = received t s.2 ++ s.1 t

section Record

variable {depth : ℕ} {q₀ : Core → List Word} {t : Core}
  {s s' : (Core → List Word) × List (Event Core FifoOp.Answer)}

theorem InOrder.access {e : FifoOp} {r : e.Answer} (h : InOrder q₀ s)
    (ha : (channels depth).recorded.access t e s r s') : InOrder q₀ s' := by
  obtain ⟨q, tr⟩ := s
  obtain ⟨q', tr'⟩ := s'
  obtain ⟨hcall, htr⟩ := ha
  dsimp only at htr
  subst htr
  intro u
  have hu := h u
  dsimp only at hu ⊢
  cases e with
  | push v timeoutUs =>
    cases r with
    | false =>
      obtain rfl : q' = q := hcall
      simpa [sent, received] using hu
    | true =>
      obtain rfl : q' = Function.update q t.peer (q t.peer ++ [v]) := hcall.2
      have hrec : received u (⟨t, .push v timeoutUs, true⟩ :: tr) = received u tr := rfl
      rw [hrec]
      by_cases htu : t = u.peer
      · subst htu
        rw [sent, if_pos ⟨rfl, rfl⟩, Core.peer_peer, Function.update_self, ← List.append_assoc, hu,
          List.append_assoc]
      · have hne : u ≠ t.peer := by
          rintro rfl
          exact htu (Core.peer_peer t).symm
        rw [sent, if_neg fun hc => htu hc.1, Function.update_of_ne hne]
        exact hu
  | pop timeoutUs =>
    obtain ⟨ok, v⟩ := r
    cases ok with
    | false =>
      obtain rfl : q' = q := hcall.2
      simpa [sent, received] using hu
    | true =>
      obtain ⟨hpop, hkeep⟩ : q t = v :: q' t ∧ q' t.peer = q t.peer := hcall
      have hsent : sent u.peer (⟨t, .pop timeoutUs, (true, v)⟩ :: tr) = sent u.peer tr := rfl
      rw [hsent]
      by_cases htu : t = u
      · subst htu
        rw [received, if_pos ⟨rfl, rfl⟩, hu, hpop, List.append_assoc, List.singleton_append]
      · obtain rfl := Core.eq_peer htu
        rw [received, if_neg fun hc => htu hc.1, hkeep]
        exact hu

/-- **Order.** It holds after every run of the channels. -/
theorem InOrder.of_reach {α : Type} {clients : Core → Prog FifoOp.Answer α}
    {c : Config Core FifoOp.Answer α ((Core → List Word) × List (Event Core FifoOp.Answer))}
    (hc : (channels depth).recorded.Reach ⟨(q₀, []), clients⟩ c) : InOrder q₀ c.shared := by
  refine hc.induction (P := fun c => InOrder q₀ c.shared) (fun t => ?_) fun c l c' _ ih hs => ?_
  · exact List.append_nil (q₀ t)
  · cases hs with
    | access ht ha => exact ih.access ha
    | unfold ht => exact ih
    | env he => exact absurd he.1 id

end Record

/-- A run of the FIFOs is one of the channels, with what the calls have sent and received. -/
theorem Fifos.reach_channels {C : Chip} {depth : ℕ} {α : Type}
    {clients : Core → Prog FifoOp.Answer α} {s₀ : Fifos} {c : Config Core Op.Answer α Fifos}
    (hc : (fifos C depth).Reach ⟨s₀, fun t => (clients t).implement (FifoOp.code C)⟩ c) :
    ∃ ts tr, (channels depth).recorded.Reach ⟨(s₀.rx, []), clients⟩ ⟨(c.shared.rx, tr), ts⟩ ∧
      ∀ t a, c.threads t = .ret a → ts t = .ret a := by
  obtain ⟨ts, hreach, hfollows⟩ := Linearization.simulates (atomic C depth) (FifoOp.code_ne_ret C)
    (fun _ => trivial) hc
  obtain ⟨tr, hrec⟩ := hreach.recorded
  refine ⟨ts, tr, hrec, fun t a ht => ?_⟩
  have hf := hfollows t
  rw [ht] at hf
  exact hf.result (FifoOp.code_ne_ret C)

/-- **The FIFOs are channels.** Whatever the programs of the two cores do, and however their
accesses interleave, the FIFOs hold what two bounded queues hold on which each call is one step; a
program that has ended has the result it has there. No word is lost, duplicated or overtaken, none
is written into a full FIFO and none is read from an empty one. -/
theorem fifos_channels (C : Chip) (depth : ℕ) {α : Type} {clients : Core → Prog FifoOp.Answer α}
    {s₀ : Fifos} {c : Config Core Op.Answer α Fifos}
    (hc : (Fifos.fifos C depth).Reach ⟨s₀, fun t => (clients t).implement (FifoOp.code C)⟩ c) :
    ∃ ts tr, (channels depth).recorded.Reach ⟨(s₀.rx, []), clients⟩ ⟨(c.shared.rx, tr), ts⟩ ∧
      (∀ t a, c.threads t = .ret a → ts t = .ret a) ∧
      (∀ t : Core, s₀.rx t ++ sent t.peer tr = received t tr ++ c.shared.rx t) ∧
      c.shared.misused = s₀.misused := by
  obtain ⟨ts, tr, hrec, hresult⟩ := Fifos.reach_channels hc
  refine ⟨ts, tr, hrec, hresult, InOrder.of_reach hrec, ?_⟩
  refine Linearization.invariant (I := fun s => s.misused = s₀.misused) (Fifos.atomic C depth)
    (FifoOp.code_ne_ret C) (fun _ => trivial) rfl ?_ (fun _ _ h => absurd h id) hc
  intro t e s r s' ha hproper hs
  obtain rfl | ⟨vs, v, -, rfl⟩ | ⟨v, rfl⟩ := Fifos.access_cases hproper ha
  · exact hs
  · exact hs
  · exact hs

/-! ### A run -/

/-- The status word of core `t`. -/
def Fifos.status (depth : ℕ) (t : Core) (s : Fifos) : Word :=
  (if s.rx t ≠ [] then stVld else 0#32) |||
    if (s.rx t.peer).length < depth then stRdy else 0#32

/-- What a load of FIFO_RD answers and leaves. -/
def Fifos.pop (t : Core) (s : Fifos) : Word × Fifos :=
  match s.rx t with
  | [] => (0#32, { s with misused := true })
  | v :: vs => (v, { s with rx := Function.update s.rx t vs })

/-- What a store to FIFO_WR leaves. -/
def Fifos.push (depth : ℕ) (t : Core) (v : Word) (s : Fifos) : Fifos :=
  if (s.rx t.peer).length < depth then
    { s with rx := Function.update s.rx t.peer (s.rx t.peer ++ [v]) }
  else { s with misused := true }

/-- What a load answers and leaves. -/
def Fifos.load (C : Chip) (depth : ℕ) (t : Core) (addr : Word) (s : Fifos) : Word × Fifos :=
  if addr = C.sioFifoRd then s.pop t
  else if addr = C.sioFifoSt then (s.status depth t, s) else (0#32, s)

/-- One of the answers that the hardware may give, where the clocks stand still. -/
def Fifos.answer (C : Chip) (depth : ℕ) (t : Core) : (e : Op) → Fifos → Option (e.Answer × Fifos)
  | .read32 addr, s => some (s.load C depth t addr)
  | .write32 addr v, s => some ((), if addr = C.sioFifoWr then s.push depth t v else s)
  | .external .picoSev, s => some ((), s)
  | .external .readMcycle, s => some (0#32, s)
  | .external (.core1MetaWord _), _ => none
  | .read8 _, _ => none
  | .write8 _ _, _ => none

theorem Fifos.pops_pop (t : Core) (s : Fifos) : s.Pops t (s.pop t).1 (s.pop t).2 := by
  unfold Pops pop
  split
  · rfl
  · exact ⟨rfl, rfl⟩

theorem Fifos.status_iff (depth : ℕ) (t : Core) (s : Fifos) :
    (s.status depth t &&& stVld ≠ 0#32 ↔ s.rx t ≠ []) ∧
      (s.status depth t &&& stRdy ≠ 0#32 ↔ (s.rx t.peer).length < depth) := by
  by_cases hp : s.rx t = [] <;> by_cases hq : (s.rx t.peer).length < depth <;>
    simp [status, hp, hq, stVld, stRdy]

theorem Fifos.access_of_answer {C : Chip} {depth : ℕ} {t : Core} {e : Op} {s : Fifos}
    {p : e.Answer × Fifos} (h : answer C depth t e s = some p) : access C depth t e s p.1 p.2 := by
  cases e with
  | read32 addr =>
    obtain rfl := Option.some.inj h
    dsimp only [access]
    split_ifs with hrd hst
    · rw [load, if_pos hrd]
      exact pops_pop t s
    · rw [load, if_neg hrd, if_pos hst]
      exact ⟨rfl, status_iff depth t s⟩
    · rw [load, if_neg hrd, if_neg hst]
  | write32 addr v =>
    obtain rfl := Option.some.inj h
    dsimp only [access]
    split_ifs with hwr hroom
    · rw [push, if_pos hroom]
    · rw [push, if_neg hroom]
    · rfl
  | external f =>
    cases f with
    | picoSev => obtain rfl := Option.some.inj h; rfl
    | readMcycle => obtain rfl := Option.some.inj h; rfl
    | core1MetaWord i => cases h
  | read8 addr => cases h
  | write8 addr v => cases h

/-- A schedule of the cores is a run. -/
theorem Fifos.reach_of_play {C : Chip} {depth : ℕ} {α : Type} {c c' : Config Core Op.Answer α Fifos}
    (ts : List Core)
    (h : Machine.play (answer C depth) (fun (_ : Empty) _ => none) c (ts.map .thread) = some c') :
    (fifos C depth).Reach c c' := by
  have hacc : ∀ (t : Core) (e : Op) (s : Fifos) (p : e.Answer × Fifos),
      answer C depth t e s = some p → (fifos C depth).access t e s p.1 p.2 :=
    fun _ _ _ _ h => access_of_answer h
  exact Machine.Reach.of_play hacc (fun (i : Empty) _ _ _ => i.elim) _ h

/-- Core 0 sends a word, and core 1 takes it. -/
def handover : Core → Prog FifoOp.Answer (Bool × Word)
  | .core0 => .op (.push 7#32 0#32) fun (ok : Bool) => .ret (ok, 7#32)
  | .core1 => .op (.pop 0#32) fun (r : Bool × Word) => .ret r

theorem fifos_channels_handover : ∃ c : Config Core Op.Answer (Bool × Word) Fifos,
    (Fifos.fifos .rp2040 8).Reach
      ⟨⟨fun _ => [], false⟩, fun t => (handover t).implement (FifoOp.code .rp2040)⟩ c ∧
    c.threads .core1 = .ret (true, 7#32) ∧ ∃ ts tr,
      (channels 8).recorded.Reach ⟨(fun _ => [], []), handover⟩ ⟨(c.shared.rx, tr), ts⟩ ∧
      (∀ t a, c.threads t = .ret a → ts t = .ret a) ∧
      (∀ t : Core, [] ++ sent t.peer tr = received t tr ++ c.shared.rx t) ∧
      c.shared.misused = false := by
  have h : (Fifos.fifos .rp2040 8).Reach _ _ := Fifos.reach_of_play
    (c := ⟨⟨fun _ => [], false⟩, fun t => (handover t).implement (FifoOp.code .rp2040)⟩)
    (List.replicate 5 Core.core0 ++ List.replicate 4 Core.core1) rfl
  exact ⟨_, h, rfl, fifos_channels .rp2040 8 h⟩

end Multicore
